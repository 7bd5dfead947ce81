import MemLint.Grammar.Stmt
import MemLint.Proofs.Grammar.ExprRules

/-! The grammar of statements and local declarations as rules, in the manner of the rules for
expressions. -/

namespace MemLint.Grammar

variable {value : Scopes → Parser Expr} {stmt : Declaring Stmt} {scopes scopes' : Scopes}
  {ts rest : List Token} {s : Stmt} {src : List Token}

/-! ### Declarators -/

/-- The size of an array, from behind its opening bracket. -/
inductive ArrayRule (value : Parser Expr) : List Token → Expr → List Token → Prop where
  | sized {c : Token} {ts rest : List Token} {size : Expr} (hb : peek ts ≠ .rbrack)
      (hs : Gives (expression value ts) size (c :: rest)) (hc : c.kind = .rbrack)
      (hl : peek rest ≠ .lbrack) (ha : peek rest ≠ .assign) : ArrayRule value ts size rest
  | filled {c a : Token} {ts mid rest : List Token} {size : Expr} {n : Nat}
      (hb : peek ts ≠ .rbrack) (hs : Gives (expression value ts) size (c :: a :: mid))
      (hc : c.kind = .rbrack) (ha : a.kind = .assign) (hn : Gives (initList value mid) n rest) :
      ArrayRule value ts size rest
  | counted {c a : Token} {mid rest : List Token} {n : Nat} (hc : c.kind = .rbrack)
      (ha : a.kind = .assign) (hn : Gives (initList value mid) n rest) :
      ArrayRule value (c :: a :: mid) (.intLit n) rest

theorem gives_arrayDeclarator {p : Parser Expr} {name : String} {here : Parsed Unit src}
    {r : Stmt × Scopes} :
    Gives (arrayDeclarator p name scopes here) r rest ↔
      ∃ size, ArrayRule p here.rest.tail size rest ∧
        r = (.expr (.arrayDecl name size), scopes.declare name true) := by
  simp only [arrayDeclarator, pure_bind]
  constructor
  · intro h
    split at h
    next hb =>
      obtain ⟨closed, hc, h⟩ := gives_bind.1 h
      obtain ⟨hr, hc⟩ := gives_andThen_expect.1 hc
      rw [rest_set, rest_advance] at hr
      split at h
      next => exact (not_gives_throw h).elim
      next =>
        split at h
        next ha =>
          obtain ⟨count, hn, h⟩ := gives_bind.1 h
          obtain ⟨rfl, rfl⟩ := gives_pure.1 h
          obtain ⟨a, mid, hm, ha⟩ := exists_of_peek ha (by decide)
          have hn := gives_andThen.1 hn
          rw [rest_advance, hm, List.tail_cons] at hn
          rw [hr, hm]
          exact ⟨_, .counted hc ha hn, rfl⟩
        next => exact (not_gives_throw h).elim
    next hb =>
      obtain ⟨size, hs, h⟩ := gives_bind.1 h
      obtain ⟨closed, hc, h⟩ := gives_bind.1 h
      have hs := gives_andThen.1 hs
      obtain ⟨hr, hc⟩ := gives_andThen_expect.1 hc
      rw [rest_map] at hr
      rw [hr] at hs
      split at h
      next => exact (not_gives_throw h).elim
      next hl =>
        split at h
        next ha =>
          obtain ⟨count, hn, h⟩ := gives_bind.1 h
          obtain ⟨rfl, rfl⟩ := gives_pure.1 h
          obtain ⟨a, mid, hm, ha⟩ := exists_of_peek ha (by decide)
          have hn := gives_andThen.1 hn
          rw [rest_advance, hm, List.tail_cons] at hn
          rw [hm] at hs
          exact ⟨_, .filled hb hs hc ha hn, rfl⟩
        next ha =>
          obtain ⟨rfl, rfl⟩ := gives_pure.1 h
          exact ⟨_, .sized hb hs hc hl ha, rfl⟩
  · rintro ⟨size, h, rfl⟩
    generalize hr : here.rest.tail = ts at h
    cases h with
    | sized hb hs hc hl ha =>
      simp only [rest_advance, hr, hb, if_false]
      refine gives_bind_of (gives_andThen.2 (by rw [rest_advance, hr]; exact hs)) fun _ => ?_
      refine gives_bind_of (gives_andThen_expect.2 ⟨rfl, hc⟩) fun _ => ?_
      simp [hl, ha]
    | filled hb hs hc ha hn =>
      simp only [rest_advance, hr, hb, if_false]
      refine gives_bind_of (gives_andThen.2 (by rw [rest_advance, hr]; exact hs)) fun _ => ?_
      refine gives_bind_of (gives_andThen_expect.2 ⟨rfl, hc⟩) fun _ => ?_
      simp only [peek_cons, ha, if_true, reduceCtorEq, if_false]
      exact gives_bind_of (gives_andThen.2 hn) fun _ => gives_pure.2 ⟨rfl, rfl⟩
    | counted hc ha hn =>
      simp only [rest_advance, hr, peek_cons, hc, if_true]
      refine gives_bind_of (gives_andThen_expect.2 ⟨hr, hc⟩) fun _ => ?_
      simp only [peek_cons, ha, if_true, reduceCtorEq, if_false]
      exact gives_bind_of (gives_andThen.2 hn) fun _ => gives_pure.2 ⟨rfl, rfl⟩

/-- What follows a declared name. -/
inductive DeclaratorRule (value : Scopes → Parser Expr) (type : DeclType) (name : String)
    (scopes : Scopes) : List Token → Stmt × Scopes → List Token → Prop where
  | array {t : Token} {ts rest : List Token} {size : Expr} (ht : t.kind = .lbrack)
      (hs : ArrayRule (value scopes) ts size rest) :
      DeclaratorRule value type name scopes (t :: ts)
        (.expr (.arrayDecl name size), scopes.declare name true) rest
  | init {t : Token} {ts rest : List Token} {e : Expr} (ht : t.kind = .assign)
      (he : Gives (value scopes ts) e rest) :
      DeclaratorRule value type name scopes (t :: ts)
        (.decl name e, scopes.declare name type.isPointer) rest
  | plain {ts : List Token} (hl : peek ts ≠ .lbrack) (ha : peek ts ≠ .assign) :
      DeclaratorRule value type name scopes ts
        (.decl name .absent, scopes.declare name type.isPointer) ts

theorem gives_declarator {type : DeclType} {name : String} {here : Parsed Unit src}
    {r : Stmt × Scopes} :
    Gives (declarator value type name scopes here) r rest ↔
      DeclaratorRule value type name scopes here.rest r rest := by
  unfold declarator
  constructor
  · intro h
    split at h
    next ht =>
      obtain ⟨t, mid, hm, ht⟩ := exists_of_peek ht (by decide)
      obtain ⟨size, hs, rfl⟩ := gives_arrayDeclarator.1 h
      rw [hm, List.tail_cons] at hs
      rw [hm]
      exact .array ht hs
    next ht =>
      obtain ⟨t, mid, hm, ht⟩ := exists_of_peek ht (by decide)
      obtain ⟨init, he, h⟩ := gives_bind.1 h
      obtain ⟨rfl, rfl⟩ := gives_pure.1 h
      have he := gives_andThen.1 he
      rw [rest_advance, hm, List.tail_cons] at he
      rw [hm]
      exact .init ht he
    next hl ha =>
      obtain ⟨rfl, rfl⟩ := gives_ok.1 h
      exact .plain hl ha
  · intro h
    generalize hr : here.rest = ts at h
    cases h with
    | array ht hs =>
      simp only [peek_cons, ht]
      exact gives_arrayDeclarator.2 ⟨_, by rw [hr]; exact hs, rfl⟩
    | init ht he =>
      simp only [peek_cons, ht]
      refine gives_bind_of (gives_andThen.2 (by rw [rest_advance, hr]; exact he)) fun _ => ?_
      exact gives_pure.2 ⟨rfl, rfl⟩
    | plain hl ha =>
      split
      next h => exact (hl h).elim
      next h => exact (ha h).elim
      next => exact gives_ok.2 ⟨rfl, hr⟩

theorem step_declaratorRound {base : DeclType.Base} {done : List Stmt} {r : List Stmt × Scopes} :
    Step (declaratorRound value base) (done, scopes) ts r rest ↔
      ∃ t mid n mid' s σ, ts = t :: mid ∧ t.kind = .comma ∧
        (absorb star (.base base) mid).2 = n :: mid' ∧ n.kind = .ident ∧
        DeclaratorRule value (absorb star (.base base) mid).1 n.lex scopes mid' (s, σ) rest ∧
        r = (s :: done, σ) := by
  constructor
  · rintro ⟨x, hx, hg⟩
    cases ts with
    | nil => cases hx
    | cons t mid =>
      simp only [declaratorRound] at hx
      split at hx
      next hk =>
        cases hx
        obtain ⟨name, hn, h⟩ := gives_bind.1 hg
        obtain ⟨s, hs, h⟩ := gives_bind.1 h
        obtain ⟨rfl, rfl⟩ := gives_pure.1 h
        obtain ⟨hr, hn⟩ := gives_andThen_expect.1 hn
        exact ⟨t, mid, name.val, name.rest, _, _, rfl, hk, hr, hn,
          gives_declarator.1 hs, rfl⟩
      next => cases hx
  · rintro ⟨t, mid, n, mid', s, σ, rfl, hk, hr, hn, hs, rfl⟩
    refine ⟨_, by simp only [declaratorRound, hk, if_true]; rfl, ?_⟩
    refine gives_bind_of (gives_andThen_expect.2 ⟨hr, hn⟩) fun _ => ?_
    exact gives_bind_of (gives_declarator.2 hs) fun _ => gives_pure.2 ⟨rfl, rfl⟩

theorem declaratorRound_eq_none {base : DeclType.Base} {r : List Stmt × Scopes} :
    declaratorRound value base r ts = none ↔ peek ts ≠ .comma := by
  cases ts with
  | nil => simp [declaratorRound, peek]
  | cons t mid => simp [declaratorRound]

/-- Declarators after their first name, up to the semicolon. -/
def DeclaratorsRule (value : Scopes → Parser Expr) (type : DeclType) (name : String)
    (scopes : Scopes) (ts : List Token) (ss : List Stmt) (scopes' : Scopes) (rest : List Token) :
    Prop :=
  ∃ s σ mid done t, DeclaratorRule value type name scopes ts (s, σ) mid ∧
    Rounds (declaratorRound value type.root) ([s], σ) mid (done, scopes') (t :: rest) ∧
    t.kind = .semi ∧ ss = done.reverse

theorem gives_declarators {type : DeclType} {name : Parsed Token src} {ss : List Stmt} :
    Gives (declarators value type scopes name) (ss, scopes') rest ↔
      DeclaratorsRule value type name.val.lex scopes name.rest ss scopes' rest := by
  constructor
  · intro h
    obtain ⟨s, hs, h⟩ := gives_bind.1 h
    obtain ⟨done, hd, h⟩ := gives_bind.1 h
    obtain ⟨semi, hc, h⟩ := gives_bind.1 h
    obtain ⟨hv, rfl⟩ := gives_pure.1 h
    cases hv
    have hd := gives_parsed_chain.1 hd
    obtain ⟨hr, hc⟩ := gives_andThen_expect.1 hc
    rw [hr] at hd
    exact ⟨_, _, _, _, _, gives_declarator.1 hs, hd, hc, rfl⟩
  · rintro ⟨s, σ, mid, done, t, hs, hd, hc, rfl⟩
    refine gives_bind_of (gives_declarator.2 hs) fun _ => ?_
    refine gives_bind_of (gives_parsed_chain.2 hd) fun _ => ?_
    exact gives_bind_of (gives_andThen_expect.2 ⟨rfl, hc⟩) fun _ =>
      gives_pure.2 ⟨rfl, rfl⟩

theorem gives_localDecl :
    Gives (localDecl value scopes ts) (s, scopes') rest ↔
      ∃ type n mid ss, Gives (declType ts) type (n :: mid) ∧ n.kind = .ident ∧
        DeclaratorsRule value type n.lex scopes mid ss scopes' rest ∧ s = joined ss := by
  constructor
  · intro h
    obtain ⟨type, ht, h⟩ := gives_bind.1 h
    obtain ⟨name, hn, h⟩ := gives_bind.1 h
    obtain ⟨ss, hs, h⟩ := gives_bind.1 h
    obtain ⟨hv, rfl⟩ := gives_pure.1 h
    cases hv
    obtain ⟨hr, hn⟩ := gives_andThen_expect.1 hn
    rw [hr] at ht
    exact ⟨_, _, _, _, ht, hn, gives_declarators.1 hs, rfl⟩
  · rintro ⟨type, n, mid, ss, ht, hn, hs, rfl⟩
    refine gives_bind_of ht fun _ => ?_
    refine gives_bind_of (gives_andThen_expect.2 ⟨rfl, hn⟩) fun _ => ?_
    exact gives_bind_of (gives_declarators.2 hs) fun _ => gives_pure.2 ⟨rfl, rfl⟩

/-! ### Statements -/

theorem step_blockRound {done : List Stmt} {r : List Stmt × Scopes} :
    Step (blockRound stmt) (done, scopes) ts r rest ↔
      peek ts ≠ .rbrace ∧ peek ts ≠ .eof ∧
        ∃ s σ, Gives (stmt scopes ts) (s, σ) rest ∧ r = (s :: done, σ) := by
  constructor
  · rintro ⟨x, hx, hg⟩
    simp only [blockRound] at hx
    split at hx
    next => cases hx
    next hk =>
      cases hx
      obtain ⟨s, hs, h⟩ := gives_bind.1 hg
      obtain ⟨rfl, rfl⟩ := gives_pure.1 h
      exact ⟨fun h => hk (.inl h), fun h => hk (.inr h), _, _, hs, rfl⟩
  · rintro ⟨hb, he, s, σ, hs, rfl⟩
    refine ⟨_, by simp only [blockRound, hb, he, or_self, if_false]; rfl, ?_⟩
    exact gives_bind_of hs fun _ => gives_pure.2 ⟨rfl, rfl⟩

theorem blockRound_eq_none {r : List Stmt × Scopes} :
    blockRound stmt r ts = none ↔ peek ts = .rbrace ∨ peek ts = .eof := by
  simp only [blockRound]
  split
  next h => exact ⟨fun _ => h, fun _ => rfl⟩
  next h => simp [h]

/-- A block: statements between braces, in scopes of their own. -/
inductive BlockRule (stmt : Declaring Stmt) (scopes : Scopes) :
    List Token → Stmt → List Token → Prop where
  | mk {t c : Token} {ts rest : List Token} {done : List Stmt} {σ : Scopes} (ht : t.kind = .lbrace)
      (hd : Rounds (blockRound stmt) ([], scopes.push) ts (done, σ) (c :: rest))
      (hc : c.kind = .rbrace) : BlockRule stmt scopes (t :: ts) (.block done.reverse) rest

theorem BlockRule.peek_eq (h : BlockRule stmt scopes ts s rest) : peek ts = .lbrace := by
  cases h with
  | mk ht _ _ => exact ht

theorem gives_block : Gives (block stmt scopes ts) s rest ↔ BlockRule stmt scopes ts s rest := by
  constructor
  · intro h
    obtain ⟨opened, ho, h⟩ := gives_bind.1 h
    obtain ⟨done, hd, h⟩ := gives_bind.1 h
    obtain ⟨closed, hc, h⟩ := gives_bind.1 h
    obtain ⟨rfl, rfl⟩ := gives_pure.1 h
    obtain ⟨hr, ht⟩ := gives_expect.1 ho
    have hd := gives_parsed_chain.1 hd
    obtain ⟨hr', hc⟩ := gives_andThen_expect.1 hc
    rw [hr'] at hd
    have hb : BlockRule stmt scopes (opened.val :: opened.rest) _ _ := .mk ht hd hc
    rwa [← hr] at hb
  · rintro ⟨ht, hd, hc⟩
    refine gives_bind_of (gives_expect.2 ⟨rfl, ht⟩) fun _ => ?_
    refine gives_bind_of (gives_parsed_chain.2 hd) fun _ => ?_
    exact gives_bind_of (gives_andThen_expect.2 ⟨rfl, hc⟩) fun _ =>
      gives_pure.2 ⟨rfl, rfl⟩

/-- An expression in parentheses. -/
inductive TestRule (value : Parser Expr) : List Token → Expr → List Token → Prop where
  | mk {t c : Token} {ts rest : List Token} {e : Expr} (ht : t.kind = .lparen)
      (he : Gives (expression value ts) e (c :: rest)) (hc : c.kind = .rparen) :
      TestRule value (t :: ts) e rest

theorem gives_condition {p : Parser Expr} {e : Expr} :
    Gives (condition p ts) e rest ↔ TestRule p ts e rest := by
  constructor
  · intro h
    obtain ⟨opened, ho, h⟩ := gives_bind.1 h
    obtain ⟨x, hx, h⟩ := gives_bind.1 h
    obtain ⟨closed, hc, h⟩ := gives_bind.1 h
    obtain ⟨rfl, rfl⟩ := gives_pure.1 h
    obtain ⟨hr, ht⟩ := gives_expect.1 ho
    have hx := gives_andThen.1 hx
    obtain ⟨hr', hc⟩ := gives_andThen_expect.1 hc
    rw [hr'] at hx
    have he : TestRule p (opened.val :: opened.rest) _ _ := .mk ht hx hc
    rwa [← hr] at he
  · rintro ⟨ht, he, hc⟩
    refine gives_bind_of (gives_expect.2 ⟨rfl, ht⟩) fun _ => ?_
    refine gives_bind_of (gives_andThen.2 he) fun _ => ?_
    exact gives_bind_of (gives_andThen_expect.2 ⟨rfl, hc⟩) fun _ =>
      gives_pure.2 ⟨rfl, rfl⟩

/-- An expression that may be missing in front of the token that ends it. -/
inductive OptionalRule (stop : Token.Kind) (value : Parser Expr) (ts : List Token) :
    Expr → List Token → Prop where
  | absent (h : peek ts = stop) : OptionalRule stop value ts .absent ts
  | present {e : Expr} {rest : List Token} (h : peek ts ≠ stop)
      (he : Gives (expression value ts) e rest) : OptionalRule stop value ts e rest

theorem gives_optional {α : Type} {stop : Token.Kind} {p : Parser Expr} {here : Parsed α src}
    {e : Expr} : Gives (optional stop p here) e rest ↔ OptionalRule stop p here.rest e rest := by
  unfold Grammar.optional
  constructor
  · intro h
    split at h
    next hs =>
      obtain ⟨rfl, rfl⟩ := gives_ok.1 h
      exact .absent hs
    next hs => exact .present hs (gives_andThen.1 h)
  · rintro (hs | ⟨hs, he⟩)
    · simp [hs]
    · simp only [hs, if_false]
      exact gives_andThen.2 he

/-- The first part of the head of a `for`, from behind the opening parenthesis. -/
inductive ForInitRule (stmt : Declaring Stmt) (scopes : Scopes) :
    List Token → Stmt → Scopes → List Token → Prop where
  | absent {t : Token} {rest : List Token} (ht : t.kind = .semi) :
      ForInitRule stmt scopes (t :: rest) .absent scopes.push rest
  | present {ts rest : List Token} {s : Stmt} {σ : Scopes} (ht : peek ts ≠ .semi)
      (hs : Gives (stmt scopes.push ts) (s, σ) rest) : ForInitRule stmt scopes ts s σ rest

/-- How a word leaves the body of a loop. -/
def jumpKind? : Token.Kind → Option Jump
  | .kwBreak => some .leave
  | .kwContinue => some .again
  | _ => none

/-- A statement that starts here is an expression. -/
def startsExpr : Token.Kind → Bool
  | .lbrace | .semi | .kwReturn | .kwIf | .kwWhile | .kwDo | .kwFor | .kwBreak | .kwContinue =>
    false
  | k => !k.startsType

/-- A statement. -/
inductive StmtRule (value : Scopes → Parser Expr) (stmt : Declaring Stmt) (scopes : Scopes) :
    List Token → Stmt → Scopes → List Token → Prop where
  | block {ts rest : List Token} {s : Stmt} (hs : BlockRule stmt scopes ts s rest) :
      StmtRule value stmt scopes ts s scopes rest
  | empty {t : Token} {rest : List Token} (ht : t.kind = .semi) :
      StmtRule value stmt scopes (t :: rest) (.block []) scopes rest
  | ret {t c : Token} {ts rest : List Token} {x : Expr} (ht : t.kind = .kwReturn)
      (hx : OptionalRule .semi (value scopes) ts x (c :: rest)) (hc : c.kind = .semi) :
      StmtRule value stmt scopes (t :: ts) (.ret x) scopes rest
  | cond {t : Token} {ts mid rest : List Token} {test : Expr} {yes : Stmt} {σ : Scopes}
      (ht : t.kind = .kwIf) (htest : TestRule (value scopes) ts test mid)
      (hyes : Gives (stmt scopes mid) (yes, σ) rest) (helse : peek rest ≠ .kwElse) :
      StmtRule value stmt scopes (t :: ts) (.cond test yes .absent) σ rest
  | condElse {t u : Token} {ts mid mid' rest : List Token} {test : Expr} {yes no : Stmt}
      {σ σ' : Scopes} (ht : t.kind = .kwIf) (htest : TestRule (value scopes) ts test mid)
      (hyes : Gives (stmt scopes mid) (yes, σ) (u :: mid')) (hu : u.kind = .kwElse)
      (hno : Gives (stmt σ mid') (no, σ') rest) :
      StmtRule value stmt scopes (t :: ts) (.cond test yes no) σ' rest
  | whileLoop {t : Token} {ts mid rest : List Token} {test : Expr} {body : Stmt} {σ : Scopes}
      (ht : t.kind = .kwWhile) (htest : TestRule (value scopes) ts test mid)
      (hbody : Gives (stmt scopes mid) (body, σ) rest) :
      StmtRule value stmt scopes (t :: ts) (.loop .absent test .absent body) σ rest
  | doLoop {t u c : Token} {ts mid rest : List Token} {test : Expr} {body : Stmt} {σ : Scopes}
      (ht : t.kind = .kwDo) (hbody : Gives (stmt scopes ts) (body, σ) (u :: mid))
      (hu : u.kind = .kwWhile) (htest : TestRule (value σ) mid test (c :: rest))
      (hc : c.kind = .semi) :
      StmtRule value stmt scopes (t :: ts) (.loop .absent test .absent body) σ rest
  | forLoop {t o c c' : Token} {ts mid mid' mid'' rest : List Token} {init body : Stmt}
      {test post : Expr} {σ σ' : Scopes} (ht : t.kind = .kwFor) (ho : o.kind = .lparen)
      (hinit : ForInitRule stmt scopes ts init σ mid)
      (htest : OptionalRule .semi (value σ) mid test (c :: mid')) (hc : c.kind = .semi)
      (hpost : OptionalRule .rparen (value σ) mid' post (c' :: mid'')) (hc' : c'.kind = .rparen)
      (hbody : Gives (stmt σ mid'') (body, σ') rest) :
      StmtRule value stmt scopes (t :: o :: ts) (.loop init test post body) scopes rest
  | jump {t c : Token} {rest : List Token} {kind : Jump} (ht : jumpKind? t.kind = some kind)
      (hc : c.kind = .semi) : StmtRule value stmt scopes (t :: c :: rest) (.jump kind) scopes rest
  | decl {ts rest : List Token} {s : Stmt} {σ : Scopes} (ht : (peek ts).startsType)
      (hs : Gives (localDecl value scopes ts) (s, σ) rest) : StmtRule value stmt scopes ts s σ rest
  | expr {c : Token} {ts rest : List Token} {x : Expr} (ht : startsExpr (peek ts))
      (hx : Gives (expression (value scopes) ts) x (c :: rest)) (hc : c.kind = .semi) :
      StmtRule value stmt scopes ts (.expr x) scopes rest

private theorem gives_with_scopes {x : Except Fault (Parsed Stmt src)} :
    Gives (do let s ← x; return s.map (·, scopes)) (s, scopes') rest ↔
      Gives x s rest ∧ scopes' = scopes := by
  constructor
  · intro h
    obtain ⟨p, hp, h⟩ := gives_bind.1 h
    obtain ⟨hv, rfl⟩ := gives_pure.1 h
    cases hv
    exact ⟨hp, rfl⟩
  · rintro ⟨hx, rfl⟩
    exact gives_bind_of hx fun _ => gives_pure.2 ⟨rfl, rfl⟩

theorem gives_returnStmt {p : Parser Expr} {here : Parsed Token src} :
    Gives (returnStmt p here) s rest ↔
      ∃ x c, OptionalRule .semi p here.rest x (c :: rest) ∧ c.kind = .semi ∧ s = .ret x := by
  constructor
  · intro h
    obtain ⟨x, hx, h⟩ := gives_bind.1 h
    obtain ⟨semi, hc, h⟩ := gives_bind.1 h
    obtain ⟨rfl, rfl⟩ := gives_pure.1 h
    have hx := gives_optional.1 hx
    obtain ⟨hr, hc⟩ := gives_andThen_expect.1 hc
    rw [hr] at hx
    exact ⟨_, _, hx, hc, rfl⟩
  · rintro ⟨x, c, hx, hc, rfl⟩
    refine gives_bind_of (gives_optional.2 hx) fun _ => ?_
    exact gives_bind_of (gives_andThen_expect.2 ⟨rfl, hc⟩) fun _ =>
      gives_pure.2 ⟨rfl, rfl⟩

theorem gives_jumpStmt {kind : Jump} {here : Parsed Token src} :
    Gives (jumpStmt kind here) s rest ↔
      ∃ c, here.rest = c :: rest ∧ c.kind = .semi ∧ s = .jump kind := by
  constructor
  · intro h
    obtain ⟨semi, hc, h⟩ := gives_bind.1 h
    obtain ⟨rfl, rfl⟩ := gives_pure.1 h
    obtain ⟨hr, hc⟩ := gives_andThen_expect.1 hc
    exact ⟨_, hr, hc, rfl⟩
  · rintro ⟨c, hr, hc, rfl⟩
    exact gives_bind_of (gives_andThen_expect.2 ⟨hr, hc⟩) fun _ => gives_pure.2 ⟨rfl, rfl⟩

theorem gives_exprStmt {p : Parser Expr} :
    Gives (exprStmt p ts) s rest ↔
      ∃ x c, Gives (expression p ts) x (c :: rest) ∧ c.kind = .semi ∧ s = .expr x := by
  constructor
  · intro h
    obtain ⟨x, hx, h⟩ := gives_bind.1 h
    obtain ⟨semi, hc, h⟩ := gives_bind.1 h
    obtain ⟨rfl, rfl⟩ := gives_pure.1 h
    obtain ⟨hr, hc⟩ := gives_andThen_expect.1 hc
    rw [hr] at hx
    exact ⟨_, _, hx, hc, rfl⟩
  · rintro ⟨x, c, hx, hc, rfl⟩
    refine gives_bind_of hx fun _ => ?_
    exact gives_bind_of (gives_andThen_expect.2 ⟨rfl, hc⟩) fun _ =>
      gives_pure.2 ⟨rfl, rfl⟩

theorem rule_of_ifStmt {t : Token} (ht : t.kind = .kwIf)
    (h : Gives (ifStmt value stmt scopes (Parsed.first t ts)) (s, scopes') rest) :
    StmtRule value stmt scopes (t :: ts) s scopes' rest := by
  obtain ⟨test, htest, h⟩ := gives_bind.1 h
  obtain ⟨yes, hyes, h⟩ := gives_bind.1 h
  have htest := gives_condition.1 (gives_andThen.1 htest)
  have hyes := gives_andThen.1 hyes
  split at h
  next he =>
    obtain ⟨u, mid, hm, hu⟩ := exists_of_peek he (by decide)
    obtain ⟨no, hno, h⟩ := gives_bind.1 h
    obtain ⟨hv, rfl⟩ := gives_pure.1 h
    cases hv
    have hno := gives_andThen.1 hno
    rw [rest_advance, hm, List.tail_cons] at hno
    rw [hm] at hyes
    exact .condElse ht htest hyes hu hno
  next he =>
    obtain ⟨hv, rfl⟩ := gives_pure.1 h
    cases hv
    exact .cond ht htest hyes he

theorem rule_of_whileStmt {t : Token} (ht : t.kind = .kwWhile)
    (h : Gives (whileStmt value stmt scopes (Parsed.first t ts)) (s, scopes') rest) :
    StmtRule value stmt scopes (t :: ts) s scopes' rest := by
  obtain ⟨test, htest, h⟩ := gives_bind.1 h
  obtain ⟨body, hbody, h⟩ := gives_bind.1 h
  obtain ⟨hv, rfl⟩ := gives_pure.1 h
  cases hv
  have htest := gives_condition.1 (gives_andThen.1 htest)
  exact .whileLoop ht htest (gives_andThen.1 hbody)

theorem rule_of_doStmt {t : Token} (ht : t.kind = .kwDo)
    (h : Gives (doStmt value stmt scopes (Parsed.first t ts)) (s, scopes') rest) :
    StmtRule value stmt scopes (t :: ts) s scopes' rest := by
  obtain ⟨body, hbody, h⟩ := gives_bind.1 h
  obtain ⟨word, hw, h⟩ := gives_bind.1 h
  obtain ⟨test, htest, h⟩ := gives_bind.1 h
  obtain ⟨semi, hc, h⟩ := gives_bind.1 h
  obtain ⟨hv, rfl⟩ := gives_pure.1 h
  cases hv
  have hbody := gives_andThen.1 hbody
  have htest := gives_condition.1 (gives_andThen.1 htest)
  obtain ⟨hr, hw⟩ := gives_andThen_expect.1 hw
  obtain ⟨hr', hc⟩ := gives_andThen_expect.1 hc
  rw [hr] at hbody
  rw [hr'] at htest
  exact .doLoop ht hbody hw htest hc

/-- The head of a `for` from behind its first part, and the body. -/
private theorem gives_forTail {init : Parsed (Stmt × Scopes) src} :
    Gives (do
      let test ← optional .semi (value init.val.2) init
      let semi ← test.andThen (expect .semi)
      let post ← optional .rparen (value init.val.2) semi
      let closed ← post.andThen (expect .rparen)
      let body ← closed.andThen (stmt init.val.2)
      return body.set (Stmt.loop init.val.1 test.val post.val body.val.1, scopes))
      (s, scopes') rest ↔
    ∃ test c mid post c' mid' body σ,
      OptionalRule .semi (value init.val.2) init.rest test (c :: mid) ∧ c.kind = .semi ∧
      OptionalRule .rparen (value init.val.2) mid post (c' :: mid') ∧ c'.kind = .rparen ∧
      Gives (stmt init.val.2 mid') (body, σ) rest ∧
      s = .loop init.val.1 test post body ∧ scopes' = scopes := by
  constructor
  · intro h
    obtain ⟨test, htest, h⟩ := gives_bind.1 h
    obtain ⟨semi, hc, h⟩ := gives_bind.1 h
    obtain ⟨post, hpost, h⟩ := gives_bind.1 h
    obtain ⟨closed, hc', h⟩ := gives_bind.1 h
    obtain ⟨body, hbody, h⟩ := gives_bind.1 h
    obtain ⟨hv, rfl⟩ := gives_pure.1 h
    cases hv
    have htest := gives_optional.1 htest
    have hpost := gives_optional.1 hpost
    have hbody := gives_andThen.1 hbody
    obtain ⟨hr, hc⟩ := gives_andThen_expect.1 hc
    obtain ⟨hr', hc'⟩ := gives_andThen_expect.1 hc'
    rw [hr] at htest
    rw [hr'] at hpost
    exact ⟨_, _, _, _, _, _, _, _, htest, hc, hpost, hc', hbody, rfl, rfl⟩
  · rintro ⟨test, c, mid, post, c', mid', body, σ, htest, hc, hpost, hc', hbody, rfl, rfl⟩
    refine gives_bind_of (gives_optional.2 htest) fun _ => ?_
    refine gives_bind_of (gives_andThen_expect.2 ⟨rfl, hc⟩) fun _ => ?_
    refine gives_bind_of (gives_optional.2 hpost) fun _ => ?_
    refine gives_bind_of (gives_andThen_expect.2 ⟨rfl, hc'⟩) fun _ => ?_
    exact gives_bind_of (gives_andThen.2 hbody) fun _ => gives_pure.2 ⟨rfl, rfl⟩

theorem rule_of_forStmt {t : Token} (ht : t.kind = .kwFor)
    (h : Gives (forStmt value stmt scopes (Parsed.first t ts)) (s, scopes') rest) :
    StmtRule value stmt scopes (t :: ts) s scopes' rest := by
  simp only [forStmt, pure_bind] at h
  obtain ⟨opened, ho, h⟩ := gives_bind.1 h
  obtain ⟨hr, ho⟩ := gives_andThen_expect.1 ho
  rw [rest_first] at hr
  rw [hr]
  split at h
  next hi =>
    obtain ⟨test, c, mid, post, c', mid', body, σ, htest, hc, hpost, hc', hbody, rfl, rfl⟩ :=
      gives_forTail.1 h
    obtain ⟨i, mid, hm, hi⟩ := exists_of_peek hi (by decide)
    rw [rest_set, rest_advance, hm] at htest
    rw [hm]
    exact .forLoop ht ho (.absent hi) htest hc hpost hc' hbody
  next hi =>
    obtain ⟨init, hinit, h⟩ := gives_bind.1 h
    obtain ⟨test, c, mid, post, c', mid', body, σ, htest, hc, hpost, hc', hbody, rfl, rfl⟩ :=
      gives_forTail.1 h
    have hinit := gives_andThen.1 hinit
    exact .forLoop ht ho (.present hi hinit) htest hc hpost hc' hbody

private theorem rule_of_statement {t : Token}
    (h : Gives (statement value stmt scopes (t :: ts)) (s, scopes') rest) :
    StmtRule value stmt scopes (t :: ts) s scopes' rest := by
  simp only [statement] at h
  split at h
  case h_1 ht =>
    obtain ⟨h, rfl⟩ := gives_with_scopes.1 h
    exact .block (gives_block.1 h)
  case h_2 ht =>
    obtain ⟨hv, rfl⟩ := gives_ok.1 h
    cases hv
    exact .empty ht
  case h_3 ht =>
    obtain ⟨h, rfl⟩ := gives_with_scopes.1 h
    obtain ⟨x, c, hx, hc, rfl⟩ := gives_returnStmt.1 h
    exact .ret ht hx hc
  case h_4 ht => exact rule_of_ifStmt ht h
  case h_5 ht => exact rule_of_whileStmt ht h
  case h_6 ht => exact rule_of_doStmt ht h
  case h_7 ht => exact rule_of_forStmt ht h
  case h_8 ht | h_9 ht =>
    obtain ⟨hj, rfl⟩ := gives_with_scopes.1 h
    obtain ⟨c, hr, hc, rfl⟩ := gives_jumpStmt.1 hj
    rw [rest_first] at hr
    rw [hr]
    exact .jump (by rw [ht]; rfl) hc
  case h_10 =>
    split at h
    next ht => exact .decl ht h
    next ht =>
      obtain ⟨h, rfl⟩ := gives_with_scopes.1 h
      obtain ⟨x, c, hx, hc, rfl⟩ := gives_exprStmt.1 h
      exact .expr (by simp_all [startsExpr]) hx hc

private theorem statement_of_rule {t : Token}
    (h : StmtRule value stmt scopes (t :: ts) s scopes' rest) :
    Gives (statement value stmt scopes (t :: ts)) (s, scopes') rest := by
  cases h with
  | block hs =>
    have ht : t.kind = .lbrace := hs.peek_eq
    simp only [statement, ht]
    exact gives_with_scopes.2 ⟨gives_block.2 hs, rfl⟩
  | empty ht => simp [statement, ht]
  | ret ht hx hc =>
    simp only [statement, ht]
    exact gives_with_scopes.2 ⟨gives_returnStmt.2 ⟨_, _, hx, hc, rfl⟩, rfl⟩
  | cond ht htest hyes he =>
    simp only [statement, ht]
    refine gives_bind_of (gives_andThen.2 (gives_condition.2 htest)) fun _ => ?_
    refine gives_bind_of (gives_andThen.2 hyes) fun _ => ?_
    simp [he]
  | condElse ht htest hyes hu hno =>
    simp only [statement, ht]
    refine gives_bind_of (gives_andThen.2 (gives_condition.2 htest)) fun _ => ?_
    refine gives_bind_of (gives_andThen.2 hyes) fun _ => ?_
    simp only [peek_cons, hu, if_true]
    exact gives_bind_of (gives_andThen.2 hno) fun _ => gives_pure.2 ⟨rfl, rfl⟩
  | whileLoop ht htest hbody =>
    simp only [statement, ht]
    refine gives_bind_of (gives_andThen.2 (gives_condition.2 htest)) fun _ => ?_
    exact gives_bind_of (gives_andThen.2 hbody) fun _ => gives_pure.2 ⟨rfl, rfl⟩
  | doLoop ht hbody hu htest hc =>
    simp only [statement, ht]
    refine gives_bind_of (gives_andThen.2 hbody) fun _ => ?_
    refine gives_bind_of (gives_andThen_expect.2 ⟨rfl, hu⟩) fun _ => ?_
    refine gives_bind_of (gives_andThen.2 (gives_condition.2 htest)) fun _ => ?_
    exact gives_bind_of (gives_andThen_expect.2 ⟨rfl, hc⟩) fun _ =>
      gives_pure.2 ⟨rfl, rfl⟩
  | forLoop ht ho hinit htest hc hpost hc' hbody =>
    simp only [statement, ht, forStmt, pure_bind]
    refine gives_bind_of (gives_andThen_expect.2 ⟨rfl, ho⟩) fun _ => ?_
    cases hinit with
    | absent hi =>
      simp only [peek_cons, hi, if_true]
      exact gives_forTail.2 ⟨_, _, _, _, _, _, _, _, htest, hc, hpost, hc', hbody, rfl, rfl⟩
    | present hi hs =>
      simp only [hi, if_false]
      refine gives_bind_of (gives_andThen.2 hs) fun _ => ?_
      exact gives_forTail.2 ⟨_, _, _, _, _, _, _, _, htest, hc, hpost, hc', hbody, rfl, rfl⟩
  | @jump _ c _ kind ht hc =>
    obtain ⟨hk, rfl⟩ | ⟨hk, rfl⟩ : t.kind = .kwBreak ∧ kind = .leave ∨
        t.kind = .kwContinue ∧ kind = .again := by
      revert ht
      cases t.kind <;> simp [jumpKind?, eq_comm]
    all_goals
      simp only [statement, hk]
      exact gives_with_scopes.2 ⟨gives_jumpStmt.2 ⟨c, rfl, hc, rfl⟩, rfl⟩
  | decl ht hs =>
    rw [peek_cons] at ht
    simp only [statement]
    split
    case h_10 => simpa only [ht, if_true] using hs
    -- no keyword of a statement starts a type
    all_goals next hk => rw [hk] at ht; cases ht
  | expr ht hx hc =>
    rw [peek_cons] at ht
    simp only [statement]
    split
    case h_10 =>
      have hk : t.kind.startsType = false := by
        revert ht
        cases t.kind <;> simp [startsExpr]
      simp only [hk, Bool.false_eq_true, if_false]
      exact gives_with_scopes.2 ⟨gives_exprStmt.2 ⟨_, _, hx, hc, rfl⟩, rfl⟩
    all_goals next hk => rw [hk] at ht; cases ht

theorem gives_statement :
    Gives (statement value stmt scopes ts) (s, scopes') rest ↔
      StmtRule value stmt scopes ts s scopes' rest := by
  cases ts with
  | nil =>
    refine ⟨fun h => (not_gives_nil h).elim, fun h => ?_⟩
    cases h with
    | block hs => cases hs
    | decl ht _ => cases ht
    | expr _ hx _ => exact (not_gives_nil hx).elim
  | cons t ts => exact ⟨rule_of_statement, statement_of_rule⟩

theorem gives_stmt_succ {depth : Nat} :
    Gives (Grammar.stmt (depth + 1) scopes ts) (s, scopes') rest ↔
      StmtRule (assign · depth) (Grammar.stmt depth) scopes ts s scopes' rest := by
  rw [Grammar.stmt]
  exact gives_statement

theorem not_gives_stmt_zero {r : Stmt × Scopes} : ¬ Gives (Grammar.stmt 0 scopes ts) r rest := by
  rw [Grammar.stmt]
  exact not_gives_error

end MemLint.Grammar
