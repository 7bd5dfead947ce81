import MemLint.Proofs.Grammar.Derivation
import MemLint.Proofs.Grammar.FileRules

/-! The grammar of statements and files without a parser, in the manner of that of expressions. The
tree of a source text that is accepted is derived from all of its tokens. -/

namespace MemLint.Grammar

/-! ### Statements -/

/-- An expression that may be missing. -/
inductive DerivesMaybe : List Mark → Expr → Prop where
  | none : DerivesMaybe [] .absent
  | some {us : List Mark} {e : Expr} (h : Derives us (.expr e)) : DerivesMaybe us e

/-- The declaration of one name, from the name on. -/
inductive DeclaresName : List Mark → Stmt → Prop where
  | plain {n : Token} (hn : n.kind = .ident) : DeclaresName [.other n] (.decl n.lex .absent)
  | init {n a : Token} {us : List Mark} {e : Expr} (hn : n.kind = .ident) (ha : a.kind = .assign)
      (he : Derives us (.value e)) : DeclaresName (.other n :: .other a :: us) (.decl n.lex e)
  | array {n o c : Token} {us : List Mark} {size : Expr} (hn : n.kind = .ident)
      (ho : o.kind = .lbrack) (hs : Derives us (.expr size)) (hc : c.kind = .rbrack) :
      DeclaresName (.other n :: .other o :: (us ++ [.other c])) (.expr (.arrayDecl n.lex size))
  | filled {n o c a : Token} {us vs : List Mark} {size : Expr} {k : Nat} (hn : n.kind = .ident)
      (ho : o.kind = .lbrack) (hs : Derives us (.expr size)) (hc : c.kind = .rbrack)
      (ha : a.kind = .assign) (hk : Derives vs (.init k)) :
      DeclaresName (.other n :: .other o :: (us ++ .other c :: .other a :: vs))
        (.expr (.arrayDecl n.lex size))
  | counted {n o c a : Token} {vs : List Mark} {k : Nat} (hn : n.kind = .ident)
      (ho : o.kind = .lbrack) (hc : c.kind = .rbrack) (ha : a.kind = .assign)
      (hk : Derives vs (.init k)) :
      DeclaresName (.other n :: .other o :: .other c :: .other a :: vs)
        (.expr (.arrayDecl n.lex (.intLit k)))

/-- The declarations of names of one base type. -/
inductive DeclaresNames (base : DeclType.Base) : List Mark → List Stmt → Prop where
  | one {us : List Mark} {s : Stmt} (h : DeclaresName us s) : DeclaresNames base us [s]
  | more {t : Token} {stars : List Token} {us vs : List Mark} {ss : List Stmt} {s : Stmt}
      {type : DeclType} (hss : DeclaresNames base us ss) (ht : t.kind = .comma)
      (hstars : stars.foldlM star (.base base) = some type) (hs : DeclaresName vs s) :
      DeclaresNames base (us ++ .other t :: (stars.map .other ++ vs)) (ss ++ [s])

inductive StmtPhrase where
  | stmt (s : Stmt)
  | stmts (ss : List Stmt)
  /-- The first part of the head of a `for`. -/
  | first (s : Stmt)

inductive DerivesStmt : List Mark → StmtPhrase → Prop where
  | noStmt : DerivesStmt [] (.stmts [])
  | nextStmt {us vs : List Mark} {ss : List Stmt} {s : Stmt} (hss : DerivesStmt us (.stmts ss))
      (hs : DerivesStmt vs (.stmt s)) : DerivesStmt (us ++ vs) (.stmts (ss ++ [s]))
  | block {o c : Token} {us : List Mark} {ss : List Stmt} (ho : o.kind = .lbrace)
      (hss : DerivesStmt us (.stmts ss)) (hc : c.kind = .rbrace) :
      DerivesStmt (.other o :: (us ++ [.other c])) (.stmt (.block ss))
  | empty {t : Token} (ht : t.kind = .semi) : DerivesStmt [.other t] (.stmt (.block []))
  | ret {t c : Token} {us : List Mark} {x : Expr} (ht : t.kind = .kwReturn)
      (hx : DerivesMaybe us x) (hc : c.kind = .semi) :
      DerivesStmt (.other t :: (us ++ [.other c])) (.stmt (.ret x))
  | cond {t o c : Token} {us vs : List Mark} {test : Expr} {yes : Stmt} (ht : t.kind = .kwIf)
      (ho : o.kind = .lparen) (htest : Derives us (.expr test)) (hc : c.kind = .rparen)
      (hyes : DerivesStmt vs (.stmt yes)) :
      DerivesStmt (.other t :: .other o :: (us ++ .other c :: vs)) (.stmt (.cond test yes .absent))
  | condElse {t o c u : Token} {us vs ws : List Mark} {test : Expr} {yes no : Stmt}
      (ht : t.kind = .kwIf) (ho : o.kind = .lparen) (htest : Derives us (.expr test))
      (hc : c.kind = .rparen) (hyes : DerivesStmt vs (.stmt yes)) (hu : u.kind = .kwElse)
      (hno : DerivesStmt ws (.stmt no)) :
      DerivesStmt (.other t :: .other o :: (us ++ .other c :: (vs ++ .other u :: ws)))
        (.stmt (.cond test yes no))
  | whileLoop {t o c : Token} {us vs : List Mark} {test : Expr} {body : Stmt}
      (ht : t.kind = .kwWhile) (ho : o.kind = .lparen) (htest : Derives us (.expr test))
      (hc : c.kind = .rparen) (hbody : DerivesStmt vs (.stmt body)) :
      DerivesStmt (.other t :: .other o :: (us ++ .other c :: vs))
        (.stmt (.loop .absent test .absent body))
  | doLoop {t u o c c' : Token} {us vs : List Mark} {test : Expr} {body : Stmt}
      (ht : t.kind = .kwDo) (hbody : DerivesStmt us (.stmt body)) (hu : u.kind = .kwWhile)
      (ho : o.kind = .lparen) (htest : Derives vs (.expr test)) (hc : c.kind = .rparen)
      (hc' : c'.kind = .semi) :
      DerivesStmt (.other t :: (us ++ .other u :: .other o :: (vs ++ [.other c, .other c'])))
        (.stmt (.loop .absent test .absent body))
  | noFirst {t : Token} (ht : t.kind = .semi) : DerivesStmt [.other t] (.first .absent)
  | someFirst {us : List Mark} {s : Stmt} (h : DerivesStmt us (.stmt s)) : DerivesStmt us (.first s)
  | forLoop {t o c c' : Token} {us vs ws xs : List Mark} {init body : Stmt} {test post : Expr}
      (ht : t.kind = .kwFor) (ho : o.kind = .lparen) (hinit : DerivesStmt us (.first init))
      (htest : DerivesMaybe vs test) (hc : c.kind = .semi) (hpost : DerivesMaybe ws post)
      (hc' : c'.kind = .rparen) (hbody : DerivesStmt xs (.stmt body)) :
      DerivesStmt (.other t :: .other o :: (us ++ (vs ++ .other c :: (ws ++ .other c' :: xs))))
        (.stmt (.loop init test post body))
  | jump {t c : Token} {kind : Jump} (ht : jumpKind? t.kind = some kind) (hc : c.kind = .semi) :
      DerivesStmt [.other t, .other c] (.stmt (.jump kind))
  | decl {c : Token} {ts : List Token} {us : List Mark} {type : DeclType} {ss : List Stmt}
      (ht : TypeText ts type) (hss : DeclaresNames type.root us ss) (hc : c.kind = .semi) :
      DerivesStmt (ts.map .other ++ (us ++ [.other c])) (.stmt (joined ss))
  | expr {c : Token} {us : List Mark} {x : Expr} (hx : Derives us (.expr x)) (hc : c.kind = .semi) :
      DerivesStmt (us ++ [.other c]) (.stmt (.expr x))

/-! ### Files -/

/-- One token of a kind, or none. -/
inductive MaybeToken (k : Token.Kind) : List Token → Prop where
  | none : MaybeToken k []
  | some {t : Token} (ht : t.kind = k) : MaybeToken k [t]

inductive ParamText : List Token → Param → Prop where
  | plain {ts amp name : List Token} {type : DeclType} (ht : TypeText ts type)
      (ha : MaybeToken .amp amp) (hn : MaybeToken .ident name) :
      ParamText (ts ++ (amp ++ name)) ⟨peekLex name, type⟩
  | array {o c : Token} {ts amp name size : List Token} {type : DeclType} (ht : TypeText ts type)
      (ha : MaybeToken .amp amp) (hn : MaybeToken .ident name) (ho : o.kind = .lbrack)
      (hs : MaybeToken .int size) (hc : c.kind = .rbrack) :
      ParamText (ts ++ (amp ++ (name ++ o :: (size ++ [c])))) ⟨peekLex name, .pointer type⟩

inductive ParamsText : List Token → List Param → Prop where
  | one {ts : List Token} {p : Param} (h : ParamText ts p) : ParamsText ts [p]
  | more {t : Token} {ts ts' : List Token} {ps : List Param} {p : Param} (hps : ParamsText ts ps)
      (ht : t.kind = .comma) (hp : ParamText ts' p) : ParamsText (ts ++ t :: ts') (ps ++ [p])

/-- What stands between the parentheses of a function. -/
inductive HeadText : List Token → List Param → Prop where
  | none : HeadText [] []
  | void {t : Token} (ht : t.kind = .kwVoid) : HeadText [t] []
  | some {ts : List Token} {ps : List Param} (h : ParamsText ts ps) : HeadText ts ps

inductive DerivesDecl : List Mark → List Decl → Prop where
  | prototype {n o c e : Token} {ts hs : List Token} {type : DeclType} {ps : List Param}
      (ht : TypeText ts type) (hn : n.kind = .ident) (ho : o.kind = .lparen) (hp : HeadText hs ps)
      (hc : c.kind = .rparen) (he : e.kind = .semi) :
      DerivesDecl ((ts ++ n :: o :: (hs ++ [c, e])).map .other) [.func n.lex ps type .absent]
  | func {n o c o' c' : Token} {ts hs : List Token} {us : List Mark} {type : DeclType}
      {ps : List Param} {ss : List Stmt} (ht : TypeText ts type) (hn : n.kind = .ident)
      (ho : o.kind = .lparen) (hp : HeadText hs ps) (hc : c.kind = .rparen) (ho' : o'.kind = .lbrace)
      (hss : DerivesStmt us (.stmts ss)) (hc' : c'.kind = .rbrace) :
      DerivesDecl ((ts ++ n :: o :: (hs ++ [c, o'])).map .other ++ (us ++ [.other c']))
        [.func n.lex ps type (.block ss)]
  | vars {c : Token} {ts : List Token} {us : List Mark} {type : DeclType} {ss : List Stmt}
      (ht : TypeText ts type) (hss : DeclaresNames type.root us ss) (hc : c.kind = .semi) :
      DerivesDecl (ts.map .other ++ (us ++ [.other c])) (ss.map Decl.ofStmt)
  | stmt {us : List Mark} {s : Stmt} (h : DerivesStmt us (.stmt s)) : DerivesDecl us [.stmt s]

inductive DerivesFile : List Mark → List Decl → Prop where
  | nil : DerivesFile [] []
  | next {us vs : List Mark} {ds ds' : List Decl} (hds : DerivesFile us ds)
      (hd : DerivesDecl vs ds') : DerivesFile (us ++ vs) (ds ++ ds')

/-! ### What the statement productions take -/

variable {value : Scopes → Parser Expr} {stmt : Declaring Stmt} {scopes scopes' : Scopes}
  {ts mid rest : List Token} {e : Expr} {s : Stmt}

theorem maybe_of_optional {p : Parser Expr} (hp : Derived p .value) {stop : Token.Kind}
    (h : OptionalRule stop p ts e rest) : ∃ us, Spans ts us rest ∧ DerivesMaybe us e := by
  cases h with
  | absent _ => exact ⟨[], .nil _, .none⟩
  | present _ he =>
    obtain ⟨us, hus, he⟩ := hp.expression he
    exact ⟨us, hus, .some he⟩

theorem declaresName_of_rule (hv : ∀ scopes, Derived (value scopes) .value) {type : DeclType}
    {n : Token} (hn : n.kind = .ident) {r : Stmt × Scopes}
    (h : DeclaratorRule value type n.lex scopes ts r rest) :
    ∃ us, Spans (n :: ts) us rest ∧ DeclaresName us r.1 := by
  cases h with
  | @array o _ _ _ ho hs =>
    cases hs with
    | @sized c _ _ _ _ hs hc _ _ =>
      obtain ⟨us, hus, hs⟩ := (hv scopes).expression hs
      have hsize := (hus.append (.one (.other c) _)).cons (.other o)
      exact ⟨_, hsize.cons (.other n), .array hn ho hs hc⟩
    | @filled c a _ _ _ _ _ _ hs hc ha hk =>
      obtain ⟨us, hus, hs⟩ := (hv scopes).expression hs
      obtain ⟨vs, hvs, hk⟩ := derivable_of_initList (hv scopes) hk
      have hinit := (hvs.cons (.other a)).cons (.other c)
      have hsize := (hus.append hinit).cons (.other o)
      exact ⟨_, hsize.cons (.other n), .filled hn ho hs hc ha hk⟩
    | @counted c a _ _ _ hc ha hk =>
      obtain ⟨vs, hvs, hk⟩ := derivable_of_initList (hv scopes) hk
      have hinit := (hvs.cons (.other a)).cons (.other c)
      exact ⟨_, (hinit.cons (.other o)).cons (.other n), .counted hn ho hc ha hk⟩
  | @init a _ _ e ha he =>
    obtain ⟨us, hus, he⟩ := hv scopes he
    exact ⟨_, (hus.cons (.other a)).cons (.other n), .init hn ha he⟩
  | plain _ _ => exact ⟨_, .one (.other n) _, .plain hn⟩

theorem declaresNames_of_rule (hv : ∀ scopes, Derived (value scopes) .value) {type : DeclType}
    {n : Token} (hn : n.kind = .ident) {ss : List Stmt}
    (h : DeclaratorsRule value type n.lex scopes ts ss scopes' rest) :
    ∃ c us, Spans (n :: ts) us (c :: rest) ∧ DeclaresNames type.root us ss ∧ c.kind = .semi := by
  obtain ⟨s, σ, mid, done, c, hs, hr, hc, rfl⟩ := h
  obtain ⟨us, hus, hs⟩ := declaresName_of_rule hv hn hs
  have hdone : ∃ us, Spans (n :: ts) us (c :: rest) ∧ DeclaresNames type.root us done.reverse := by
    apply hr.preserve (P := fun r mid => ∃ us, Spans (n :: ts) us mid ∧
      DeclaresNames type.root us r.1.reverse)
    · rintro ⟨done, σ⟩ mid r rest hstep ⟨us, hus, hss⟩
      obtain ⟨t, mid, n', mid', s, σ', rfl, ht, hmid, hn', hs, rfl⟩ := step_declaratorRound.1 hstep
      obtain ⟨stars, hstars, hv'⟩ := absorb_eq star (.base type.root) mid
      obtain ⟨vs, hvs, hs⟩ := declaresName_of_rule hv hn' hs
      rw [hmid] at hstars
      have hspan : Spans mid (stars.map .other ++ vs) rest := by
        rw [hstars]
        exact (Spans.other stars _).append hvs
      refine ⟨_, hus.append (hspan.cons (.other t)), ?_⟩
      rw [List.reverse_cons]
      exact .more hss ht hv' hs
    · exact ⟨us, hus, .one hs⟩
  obtain ⟨us, hus, hss⟩ := hdone
  exact ⟨c, us, hus, hss, hc⟩

/-- Whatever the production gives is derived from the tokens it takes. -/
def DerivedStmt (p : Declaring Stmt) : Prop :=
  ∀ ⦃scopes ts s σ rest⦄, Gives (p scopes ts) (s, σ) rest →
    ∃ us, Spans ts us rest ∧ DerivesStmt us (.stmt s)

theorem stmts_of_blockRule (h : DerivedStmt stmt) (hb : BlockRule stmt scopes ts s rest) :
    ∃ o c us ss, Spans ts (.other o :: (us ++ [.other c])) rest ∧ o.kind = .lbrace ∧
      c.kind = .rbrace ∧ DerivesStmt us (.stmts ss) ∧ s = .block ss := by
  obtain @⟨o, c, ts, _, done, σ, ho, hr, hc⟩ := hb
  have hdone : ∃ us, Spans ts us (c :: rest) ∧ DerivesStmt us (.stmts done.reverse) := by
    apply hr.preserve (P := fun r mid => ∃ us, Spans ts us mid ∧
      DerivesStmt us (.stmts r.1.reverse))
    · rintro ⟨done, σ⟩ mid r rest hstep ⟨us, hus, hss⟩
      obtain ⟨-, -, s, σ', hs, rfl⟩ := step_blockRound.1 hstep
      obtain ⟨vs, hvs, hs⟩ := h hs
      refine ⟨_, hus.append hvs, ?_⟩
      rw [List.reverse_cons]
      exact .nextStmt hss hs
    · exact ⟨[], .nil ts, .noStmt⟩
  obtain ⟨us, hus, hss⟩ := hdone
  exact ⟨o, c, us, _, (hus.append (.one (.other c) _)).cons (.other o), ho, hc, hss, rfl⟩

/-- An expression in parentheses, in front of what is marked already. -/
theorem test_of_rule {p : Parser Expr} (hp : Derived p .value) (h : TestRule p ts e mid)
    {vs : List Mark} (hvs : Spans mid vs rest) :
    ∃ o c us, Spans ts (.other o :: (us ++ .other c :: vs)) rest ∧ o.kind = .lparen ∧
      Derives us (.expr e) ∧ c.kind = .rparen := by
  obtain @⟨o, c, ts, _, e, ho, he, hc⟩ := h
  obtain ⟨us, hus, he⟩ := hp.expression he
  exact ⟨o, c, us, (hus.append (hvs.cons (.other c))).cons (.other o), ho, he, hc⟩

theorem DerivedStmt.first (h : DerivedStmt stmt) (hf : ForInitRule stmt scopes ts s scopes' rest) :
    ∃ us, Spans ts us rest ∧ DerivesStmt us (.first s) := by
  cases hf with
  | @absent t _ ht => exact ⟨_, .one (.other t) _, .noFirst ht⟩
  | present _ hs =>
    obtain ⟨us, hus, hs⟩ := h hs
    exact ⟨us, hus, .someFirst hs⟩

theorem DerivedStmt.statement (hv : ∀ scopes, Derived (value scopes) .value)
    (h : DerivedStmt stmt) : DerivedStmt (statement value stmt) := by
  intro scopes ts s σ rest hg
  cases gives_statement.1 hg with
  | block hb =>
    obtain ⟨o, c, us, ss, hspan, ho, hc, hss, rfl⟩ := stmts_of_blockRule h hb
    exact ⟨_, hspan, .block ho hss hc⟩
  | @empty t _ ht => exact ⟨_, .one (.other t) _, .empty ht⟩
  | @ret t c _ _ x ht hx hc =>
    obtain ⟨us, hus, hx⟩ := maybe_of_optional (hv scopes) hx
    exact ⟨_, (hus.append (.one (.other c) _)).cons (.other t), .ret ht hx hc⟩
  | @cond t _ _ _ _ _ _ ht htest hyes _ =>
    obtain ⟨vs, hvs, hyes⟩ := h hyes
    obtain ⟨o, c, us, hus, ho, htest, hc⟩ := test_of_rule (hv scopes) htest hvs
    exact ⟨_, hus.cons (.other t), .cond ht ho htest hc hyes⟩
  | @condElse t u _ _ _ _ _ _ _ _ _ ht htest hyes hu hno =>
    obtain ⟨vs, hvs, hyes⟩ := h hyes
    obtain ⟨ws, hws, hno⟩ := h hno
    have hbranches := hvs.append (hws.cons (.other u))
    obtain ⟨o, c, us, hus, ho, htest, hc⟩ := test_of_rule (hv scopes) htest hbranches
    exact ⟨_, hus.cons (.other t), .condElse ht ho htest hc hyes hu hno⟩
  | @whileLoop t _ _ _ _ _ _ ht htest hbody =>
    obtain ⟨vs, hvs, hbody⟩ := h hbody
    obtain ⟨o, c, us, hus, ho, htest, hc⟩ := test_of_rule (hv scopes) htest hvs
    exact ⟨_, hus.cons (.other t), .whileLoop ht ho htest hc hbody⟩
  | @doLoop t u c' _ _ _ _ _ σ ht hbody hu htest hc' =>
    obtain ⟨us, hus, hbody⟩ := h hbody
    obtain ⟨o, c, vs, hvs, ho, htest, hc⟩ := test_of_rule (hv σ) htest (.one (.other c') rest)
    exact ⟨_, (hus.append (hvs.cons (.other u))).cons (.other t),
      .doLoop ht hbody hu ho htest hc hc'⟩
  | @forLoop t o c c' _ _ _ _ _ _ _ _ _ σ _ ht ho hinit htest hc hpost hc' hbody =>
    obtain ⟨us, hus, hinit⟩ := h.first hinit
    obtain ⟨vs, hvs, htest⟩ := maybe_of_optional (hv σ) htest
    obtain ⟨ws, hws, hpost⟩ := maybe_of_optional (hv σ) hpost
    obtain ⟨xs, hxs, hbody⟩ := h hbody
    have hhead := hvs.append ((hws.append (hxs.cons (.other c'))).cons (.other c))
    exact ⟨_, ((hus.append hhead).cons (.other o)).cons (.other t),
      .forLoop ht ho hinit htest hc hpost hc' hbody⟩
  | @jump t c _ kind ht hc => exact ⟨_, (Spans.one (.other c) _).cons (.other t), .jump ht hc⟩
  | decl _ hs =>
    obtain ⟨type, n, mid, ss, htype, hn, hss, rfl⟩ := gives_localDecl.1 hs
    obtain ⟨part, rfl, hpart⟩ := typeText_of_gives htype
    obtain ⟨c, us, hus, hss, hc⟩ := declaresNames_of_rule hv hn hss
    exact ⟨_, (Spans.other part _).append (hus.append (.one (.other c) _)), .decl hpart hss hc⟩
  | @expr c _ _ x _ hx hc =>
    obtain ⟨us, hus, hx⟩ := (hv scopes).expression hx
    exact ⟨_, hus.append (.one (.other c) _), .expr hx hc⟩

/-- What the statement production gives is derived from the tokens it takes. -/
theorem derivedStmt (d : Nat) : DerivedStmt (Grammar.stmt d) := by
  induction d with
  | zero => exact fun _ _ _ _ _ h => (not_gives_stmt_zero h).elim
  | succ d ih =>
    intro scopes ts s σ rest h
    rw [Grammar.stmt] at h
    exact ih.statement (fun scopes => (derived scopes d).1) h

/-! ### What the file productions take -/

/-- What is skipped is one token or none, and so is the text to be had from it. -/
theorem skip_eq (k : Token.Kind) (hk : k ≠ .eof) (ts : List Token) :
    ∃ part, ts = part ++ skip k ts ∧ MaybeToken k part ∧
      (if peek ts = k then peekLex ts else "") = peekLex part := by
  unfold skip
  split
  next h =>
    obtain ⟨t, rest, rfl, ht⟩ := exists_of_peek h hk
    exact ⟨[t], rfl, .some ht, rfl⟩
  next => exact ⟨[], rfl, .none, rfl⟩

theorem paramText_of_rule {part : List Token} {type : DeclType} (ht : TypeText part type)
    {p : Param} (h : ParamRule type ts p rest) :
    ∃ part', part ++ ts = part' ++ rest ∧ ParamText part' p := by
  obtain ⟨amp, hamp, ha, -⟩ := skip_eq .amp (by decide) ts
  obtain ⟨name, hname, hn, hlex⟩ := skip_eq .ident (by decide) (skip .amp ts)
  rw [hname] at hamp
  cases h with
  | plain _ =>
    rw [nameHere, hlex]
    refine ⟨_, ?_, .plain ht ha hn⟩
    rw [List.append_assoc, List.append_assoc, ← hamp]
  | @array o c mid _ ho hk hc hr =>
    obtain ⟨size, hsize, hs, -⟩ := skip_eq .int (by decide) mid
    rw [nameHere, hlex]
    refine ⟨_, ?_, .array ht ha hn hk hs hr⟩
    rw [hamp, ho, hsize, hc]
    simp only [List.append_assoc, List.cons_append, List.nil_append]

theorem paramsText_of_rule {part : List Token} {type : DeclType} (ht : TypeText part type)
    {ps : List Param} (h : ParamsFromRule type ts ps rest) :
    ∃ part', part ++ ts = part' ++ rest ∧ ParamsText part' ps := by
  obtain ⟨p, mid, done, hp, hr, rfl⟩ := h
  obtain ⟨first, hfirst, hp⟩ := paramText_of_rule ht hp
  apply hr.preserve (P := fun done rest =>
    ∃ part', part ++ ts = part' ++ rest ∧ ParamsText part' done.reverse)
  · rintro done mid ps rest hstep ⟨part', hpart, hps⟩
    obtain ⟨t, mid, type, mid', p, rfl, hk, htype, hp, rfl⟩ := step_paramRound.1 hstep
    obtain ⟨next, rfl, hnext⟩ := typeText_of_gives htype
    obtain ⟨next', hnext', hp⟩ := paramText_of_rule hnext hp
    refine ⟨part' ++ t :: next', ?_, ?_⟩
    · rw [hpart, hnext', List.append_assoc, List.cons_append]
    · rw [List.reverse_cons]
      exact .more hps hk hp
  · exact ⟨first, hfirst, .one hp⟩

theorem headText_of_rule {ps : List Param} (h : ParamsRule ts ps rest) :
    ∃ part, ts = part ++ rest ∧ HeadText part ps := by
  cases h with
  | none _ => exact ⟨[], rfl, .none⟩
  | @void t _ ht _ => exact ⟨[t], rfl, .void ht⟩
  | @voidFrom t ts _ _ ht _ hp =>
    obtain ⟨stars, hstars, hv⟩ := absorb_eq star (.base .void) ts
    have htype : TypeText (t :: stars) (absorb star (.base .void) ts).1 :=
      ⟨[], t, [], stars, .void, .void, rfl, rfl, by rw [ht]; rfl, rfl, hv⟩
    obtain ⟨part, hpart, hps⟩ := paramsText_of_rule htype hp
    refine ⟨part, ?_, .some hps⟩
    rw [← hpart, List.cons_append, ← hstars]
  | typed _ _ ht hp =>
    obtain ⟨part, rfl, htype⟩ := typeText_of_gives ht
    obtain ⟨part', hpart, hps⟩ := paramsText_of_rule htype hp
    exact ⟨part', hpart, .some hps⟩

theorem derivesDecl_of_func {limit : Nat} {part : List Token} {type : DeclType} {n : Token}
    {f : Decl} (ht : TypeText part type) (hn : n.kind = .ident)
    (h : FuncRule (Grammar.stmt limit) type n.lex scopes ts f rest) :
    ∃ us, Spans (part ++ n :: ts) us rest ∧ DerivesDecl us [f] := by
  cases h with
  | @prototype o c e _ _ ps ho hp hc he =>
    obtain ⟨head, rfl, hhead⟩ := headText_of_rule hp
    refine ⟨_, ?_, .prototype ht hn ho hhead hc he⟩
    have h := Spans.other (part ++ n :: o :: (head ++ [c, e])) rest
    simpa using h
  | @body o c _ mid _ ps _ ho hp hc hb =>
    obtain ⟨head, rfl, hhead⟩ := headText_of_rule hp
    obtain ⟨o', c', us, ss, hus, ho', hc', hss, rfl⟩ := stmts_of_blockRule (derivedStmt limit) hb
    refine ⟨_, ?_, .func ht hn ho hhead hc ho' hss hc'⟩
    have h := (Spans.other (part ++ n :: o :: (head ++ [c])) mid).append hus
    simpa using h

theorem derivesDecl_of_rule {limit : Nat} {ds : List Decl}
    (h : DeclRule limit scopes ts ds scopes' rest) :
    ∃ us, Spans ts us rest ∧ DerivesDecl us ds := by
  cases h with
  | func _ ht hn _ hf =>
    obtain ⟨part, rfl, htype⟩ := typeText_of_gives ht
    exact derivesDecl_of_func htype hn hf
  | vars _ ht hn _ hss =>
    obtain ⟨part, rfl, htype⟩ := typeText_of_gives ht
    obtain ⟨c, us, hus, hss, hc⟩ :=
      declaresNames_of_rule (fun scopes => (derived scopes limit).1) hn hss
    exact ⟨_, (Spans.other part _).append (hus.append (.one (.other c) _)), .vars htype hss hc⟩
  | stmt _ hs =>
    obtain ⟨us, hus, hs⟩ := derivedStmt limit hs
    exact ⟨us, hus, .stmt hs⟩

/-- The declarations of a text that is accepted are derived from all its tokens. -/
theorem exists_derivesFile {limit : Nat} {source : List Char} {ds : List Decl}
    (h : parse limit source = .ok ds) :
    ∃ us, us.map Mark.token = (Token.scan source).tokens ∧ DerivesFile us ds := by
  obtain ⟨done, σ, hr, rfl⟩ := file_eq_ok.1 (parse_eq_ok.1 h)
  generalize (Token.scan source).tokens = ts at hr ⊢
  have hfile : ∃ us, Spans ts us [] ∧ DerivesFile us done.reverse := by
    apply hr.preserve (P := fun r mid => ∃ us, Spans ts us mid ∧ DerivesFile us r.1.reverse)
    · rintro ⟨done, σ⟩ mid r rest hstep ⟨us, hus, hds⟩
      obtain ⟨ds, σ', hd, rfl⟩ := step_fileRound.1 hstep
      obtain ⟨vs, hvs, hd⟩ := derivesDecl_of_rule hd
      refine ⟨_, hus.append hvs, ?_⟩
      rw [List.reverse_append, List.reverse_reverse]
      exact .next hds hd
    · exact ⟨[], .nil ts, .nil⟩
  obtain ⟨us, hus, hds⟩ := hfile
  exact ⟨us, by rw [hus, List.append_nil], hds⟩

end MemLint.Grammar
