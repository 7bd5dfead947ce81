import MemLint.Grammar.File
import MemLint.Proofs.Grammar.StmtRules

/-! The grammar of files as rules: parameters, functions and what else stands at file scope, up to
the declarations of a whole text. -/

namespace MemLint.Grammar

variable {ts rest : List Token} {src : List Token} {scopes scopes' : Scopes}

/-! ### Parameters -/

/-- The tokens without the first one, if that is of the given kind. -/
def skip (k : Token.Kind) (ts : List Token) : List Token := if peek ts = k then ts.tail else ts

/-- The name that stands here, or none. -/
def nameHere (ts : List Token) : String := if peek ts = .ident then peekLex ts else ""

theorem rest_skip {α : Type} (k : Token.Kind) (p : Parsed α src) :
    (if peek p.rest = k then p.advance else p).rest = skip k p.rest := by
  unfold skip
  split <;> rfl

theorem val_skip {α : Type} (k : Token.Kind) (p : Parsed α src) :
    (if peek p.rest = k then p.advance else p).val = p.val := by
  split <;> rfl

/-- A parameter after its type. -/
inductive ParamRule (type : DeclType) (ts : List Token) : Param → List Token → Prop where
  | plain (h : peek (skip .ident (skip .amp ts)) ≠ .lbrack) :
      ParamRule type ts ⟨nameHere (skip .amp ts), type⟩ (skip .ident (skip .amp ts))
  | array {o c : Token} {mid rest : List Token} (ho : skip .ident (skip .amp ts) = o :: mid)
      (hk : o.kind = .lbrack) (hc : skip .int mid = c :: rest) (hr : c.kind = .rbrack) :
      ParamRule type ts ⟨nameHere (skip .amp ts), .pointer type⟩ rest

/-- The brackets of a parameter, which may be missing. -/
private theorem gives_paramTail (name : String) (here : Parsed DeclType src) {p : Param} :
    Gives (if peek here.rest = .lbrack then do
        let opened := here.advance
        let opened := if peek opened.rest = .int then opened.advance else opened
        let closed ← opened.andThen (expect .rbrack)
        return closed.set ⟨name, .pointer here.val⟩
      else return here.set ⟨name, here.val⟩) p rest ↔
    peek here.rest ≠ .lbrack ∧ p = ⟨name, here.val⟩ ∧ rest = here.rest ∨
    ∃ o c mid, here.rest = o :: mid ∧ o.kind = .lbrack ∧ skip .int mid = c :: rest ∧
      c.kind = .rbrack ∧ p = ⟨name, .pointer here.val⟩ := by
  constructor
  · intro h
    split at h
    next hl =>
      obtain ⟨o, mid, hm, ho⟩ := exists_of_peek hl (by decide)
      obtain ⟨closed, hc, h⟩ := gives_bind.1 h
      obtain ⟨rfl, rfl⟩ := gives_pure.1 h
      obtain ⟨hr, hc⟩ := gives_andThen_expect.1 hc
      rw [rest_skip, rest_advance, hm, List.tail_cons] at hr
      exact .inr ⟨o, closed.val, mid, hm, ho, hr, hc, rfl⟩
    next hl =>
      obtain ⟨rfl, rfl⟩ := gives_pure.1 h
      exact .inl ⟨hl, rfl, rfl⟩
  · rintro (⟨hl, rfl, rfl⟩ | ⟨o, c, mid, hm, ho, hr, hc, rfl⟩)
    · rw [if_neg hl]
      exact gives_pure.2 ⟨rfl, rfl⟩
    · rw [if_pos (by rw [hm, peek_cons, ho])]
      refine gives_bind_of (gives_andThen_expect.2 ⟨?_, hc⟩) fun _ =>
        gives_pure.2 ⟨rfl, rfl⟩
      rw [rest_skip, rest_advance, hm, List.tail_cons, hr]

/-- The name of a parameter, which may be missing, and where it ends. -/
private def named (here : Parsed DeclType src) : Parsed DeclType src × String :=
  if peek here.rest = .ident then (here.advance, peekLex here.rest) else (here, "")

private theorem named_eq (here : Parsed DeclType src) :
    (named here).1.rest = skip .ident here.rest ∧ (named here).1.val = here.val ∧
      (named here).2 = nameHere here.rest := by
  unfold named skip nameHere
  split <;> exact ⟨rfl, rfl, rfl⟩

theorem gives_param {type : Parsed DeclType src} {p : Param} :
    Gives (param type) p rest ↔ ParamRule type.val type.rest p rest := by
  obtain ⟨hr, hv, hn⟩ := named_eq (if peek type.rest = .amp then type.advance else type)
  refine (gives_paramTail (named _).2 (named _).1).trans ?_
  rw [hr, hv, hn, rest_skip, val_skip]
  constructor
  · rintro (⟨hl, rfl, rfl⟩ | ⟨o, c, mid, hm, ho, hr, hc, rfl⟩)
    · exact .plain hl
    · exact .array hm ho hr hc
  · rintro (hl | ⟨hm, ho, hr, hc⟩)
    · exact .inl ⟨hl, rfl, rfl⟩
    · exact .inr ⟨_, _, _, hm, ho, hr, hc, rfl⟩

theorem step_paramRound {done ps : List Param} :
    Step paramRound done ts ps rest ↔
      ∃ t mid type mid' p, ts = t :: mid ∧ t.kind = .comma ∧ Gives (declType mid) type mid' ∧
        ParamRule type mid' p rest ∧ ps = p :: done := by
  constructor
  · rintro ⟨x, hx, hg⟩
    cases ts with
    | nil => cases hx
    | cons t mid =>
      simp only [paramRound] at hx
      split at hx
      next hk =>
        cases hx
        obtain ⟨type, ht, h⟩ := gives_bind.1 hg
        obtain ⟨p, hp, h⟩ := gives_bind.1 h
        obtain ⟨rfl, rfl⟩ := gives_pure.1 h
        exact ⟨t, mid, _, _, _, rfl, hk, gives_andThen.1 ht,
          gives_param.1 hp, rfl⟩
      next => cases hx
  · rintro ⟨t, mid, type, mid', p, rfl, hk, ht, hp, rfl⟩
    refine ⟨_, by simp only [paramRound, hk, if_true]; rfl, ?_⟩
    refine gives_bind_of (gives_andThen.2 ht) fun _ => ?_
    exact gives_bind_of (gives_param.2 hp) fun _ => gives_pure.2 ⟨rfl, rfl⟩

theorem paramRound_eq_none {done : List Param} :
    paramRound done ts = none ↔ peek ts ≠ .comma := by
  cases ts with
  | nil => simp [paramRound, peek]
  | cons t mid => simp [paramRound]

/-- Parameters after the type of the first one. -/
def ParamsFromRule (type : DeclType) (ts : List Token) (ps : List Param) (rest : List Token) :
    Prop :=
  ∃ p mid done, ParamRule type ts p mid ∧ Rounds paramRound [p] mid done rest ∧ ps = done.reverse

theorem gives_paramsFrom {type : Parsed DeclType src} {ps : List Param} :
    Gives (paramsFrom type) ps rest ↔ ParamsFromRule type.val type.rest ps rest := by
  constructor
  · intro h
    obtain ⟨p, hp, h⟩ := gives_bind.1 h
    obtain ⟨done, hd, h⟩ := gives_bind.1 h
    obtain ⟨rfl, rfl⟩ := gives_pure.1 h
    exact ⟨_, _, _, gives_param.1 hp, gives_parsed_chain.1 hd, rfl⟩
  · rintro ⟨p, mid, done, hp, hd, rfl⟩
    refine gives_bind_of (gives_param.2 hp) fun _ => ?_
    exact gives_bind_of (gives_parsed_chain.2 hd) fun _ => gives_pure.2 ⟨rfl, rfl⟩

/-- The parameters of a function. -/
inductive ParamsRule : List Token → List Param → List Token → Prop where
  | none {ts : List Token} (h : peek ts = .rparen) : ParamsRule ts [] ts
  | void {t : Token} {ts : List Token} (ht : t.kind = .kwVoid) (h : peek ts = .rparen) :
      ParamsRule (t :: ts) [] ts
  | voidFrom {t : Token} {ts rest : List Token} {ps : List Param} (ht : t.kind = .kwVoid)
      (h : peek ts ≠ .rparen) (hp : ParamsFromRule (absorb star (.base .void) ts).1
        (absorb star (.base .void) ts).2 ps rest) : ParamsRule (t :: ts) ps rest
  | typed {ts mid rest : List Token} {type : DeclType} {ps : List Param} (h : peek ts ≠ .rparen)
      (hv : peek ts ≠ .kwVoid) (ht : Gives (declType ts) type mid)
      (hp : ParamsFromRule type mid ps rest) : ParamsRule ts ps rest

theorem gives_params {α : Type} {opened : Parsed α src} {ps : List Param} :
    Gives (params opened) ps rest ↔ ParamsRule opened.rest ps rest := by
  unfold params
  constructor
  · intro h
    split at h
    next hp =>
      obtain ⟨rfl, rfl⟩ := gives_pure.1 h
      exact .none hp
    next hv =>
      obtain ⟨t, mid, hm, ht⟩ := exists_of_peek hv (by decide)
      rw [hm]
      simp only [rest_advance, hm, List.tail_cons] at h
      split at h
      next hp =>
        obtain ⟨rfl, rfl⟩ := gives_pure.1 h
        rw [rest_set, rest_advance, hm]
        exact .void ht hp
      next hp =>
        have h := gives_paramsFrom.1 h
        simp only [Parsed.absorb, rest_set, rest_advance, hm, val_set, List.tail_cons] at h
        exact .voidFrom ht hp h
    next hp hv =>
      obtain ⟨type, ht, h⟩ := gives_bind.1 h
      exact .typed hp hv (gives_andThen.1 ht) (gives_paramsFrom.1 h)
  · intro h
    generalize hr : opened.rest = ts at h
    cases h with
    | none h =>
      simp only [h]
      exact gives_pure.2 ⟨rfl, hr⟩
    | void ht h =>
      simp only [peek_cons, ht, rest_advance, hr, List.tail_cons, h, if_true]
      exact gives_pure.2 ⟨rfl, by rw [rest_set, rest_advance, hr, List.tail_cons]⟩
    | voidFrom ht h hp =>
      simp only [peek_cons, ht, rest_advance, hr, List.tail_cons, h, if_false]
      refine gives_paramsFrom.2 ?_
      simpa only [Parsed.absorb, rest_set, rest_advance, hr, val_set, List.tail_cons] using hp
    | typed h hv ht hp =>
      split
      next hk => exact (h hk).elim
      next hk => exact (hv hk).elim
      next =>
        refine gives_bind_of (gives_andThen.2 (by rw [hr]; exact ht)) fun _ => ?_
        exact gives_paramsFrom.2 hp

/-! ### File scope -/

/-- A function, from behind its name. -/
inductive FuncRule (stmt : Declaring Stmt) (ret : DeclType) (name : String) (scopes : Scopes) :
    List Token → Decl → List Token → Prop where
  | prototype {o c d : Token} {ts rest : List Token} {ps : List Param} (ho : o.kind = .lparen)
      (hp : ParamsRule ts ps (c :: d :: rest)) (hc : c.kind = .rparen) (hd : d.kind = .semi) :
      FuncRule stmt ret name scopes (o :: ts) (.func name ps ret .absent) rest
  | body {o c : Token} {ts mid rest : List Token} {ps : List Param} {body : Stmt}
      (ho : o.kind = .lparen) (hp : ParamsRule ts ps (c :: mid)) (hc : c.kind = .rparen)
      (hb : BlockRule stmt (scopes.enter ps) mid body rest) :
      FuncRule stmt ret name scopes (o :: ts) (.func name ps ret body) rest

theorem gives_func {stmt : Declaring Stmt} {ret : DeclType} {name : Parsed Token src} {d : Decl} :
    Gives (func stmt ret scopes name) d rest ↔
      FuncRule stmt ret name.val.lex scopes name.rest d rest := by
  constructor
  · intro h
    obtain ⟨opened, ho, h⟩ := gives_bind.1 h
    obtain ⟨ps, hp, h⟩ := gives_bind.1 h
    obtain ⟨closed, hc, h⟩ := gives_bind.1 h
    obtain ⟨hr, ho⟩ := gives_andThen_expect.1 ho
    obtain ⟨hr', hc⟩ := gives_andThen_expect.1 hc
    have hp := gives_params.1 hp
    rw [hr'] at hp
    rw [hr]
    split at h
    next hs =>
      obtain ⟨t, mid, hm, ht⟩ := exists_of_peek hs (by decide)
      obtain ⟨rfl, rfl⟩ := gives_pure.1 h
      rw [hm] at hp
      rw [rest_set, rest_advance, hm]
      exact .prototype ho hp hc ht
    next =>
      obtain ⟨body, hb, h⟩ := gives_bind.1 h
      obtain ⟨rfl, rfl⟩ := gives_pure.1 h
      exact .body ho hp hc (gives_block.1 (gives_andThen.1 hb))
  · intro h
    generalize hr : name.rest = ts at h
    cases h with
    | prototype ho hp hc hd =>
      refine gives_bind_of (gives_andThen_expect.2 ⟨hr, ho⟩) fun _ => ?_
      refine gives_bind_of (gives_params.2 hp) fun _ => ?_
      refine gives_bind_of (gives_andThen_expect.2 ⟨rfl, hc⟩) fun _ => ?_
      simp only [peek_cons, hd, if_true]
      exact gives_pure.2 ⟨rfl, rfl⟩
    | body ho hp hc hb =>
      refine gives_bind_of (gives_andThen_expect.2 ⟨hr, ho⟩) fun _ => ?_
      refine gives_bind_of (gives_params.2 hp) fun _ => ?_
      refine gives_bind_of (gives_andThen_expect.2 ⟨rfl, hc⟩) fun _ => ?_
      rw [if_neg (by rw [hb.peek_eq]; decide)]
      refine gives_bind_of (gives_andThen.2 (gives_block.2 hb)) fun _ => ?_
      exact gives_pure.2 ⟨rfl, rfl⟩

/-- What stands at file scope. -/
inductive DeclRule (limit : Nat) (scopes : Scopes) (ts : List Token) :
    List Decl → Scopes → List Token → Prop where
  | func {type : DeclType} {n : Token} {mid rest : List Token} {f : Decl}
      (hs : (peek ts).startsType) (ht : Gives (declType ts) type (n :: mid)) (hn : n.kind = .ident)
      (hp : peek mid = .lparen)
      (hf : FuncRule (stmt limit) type n.lex scopes mid f rest) :
      DeclRule limit scopes ts [f] scopes rest
  | vars {type : DeclType} {n : Token} {mid rest : List Token} {ss : List Stmt} {σ : Scopes}
      (hs : (peek ts).startsType) (ht : Gives (declType ts) type (n :: mid)) (hn : n.kind = .ident)
      (hp : peek mid ≠ .lparen)
      (hss : DeclaratorsRule (assign · limit) type n.lex scopes mid ss σ rest) :
      DeclRule limit scopes ts (ss.map Decl.ofStmt) σ rest
  | stmt {rest : List Token} {s : Stmt} {σ : Scopes} (hs : (peek ts).startsType = false)
      (h : Gives (stmt limit scopes ts) (s, σ) rest) : DeclRule limit scopes ts [.stmt s] σ rest

theorem gives_decl {limit : Nat} {ds : List Decl} :
    Gives (decl limit scopes ts) (ds, scopes') rest ↔ DeclRule limit scopes ts ds scopes' rest := by
  unfold decl
  constructor
  · intro h
    split at h
    next hs =>
      obtain ⟨type, ht, h⟩ := gives_bind.1 h
      obtain ⟨name, hn, h⟩ := gives_bind.1 h
      obtain ⟨hr, hn⟩ := gives_andThen_expect.1 hn
      rw [hr] at ht
      split at h
      next hp =>
        obtain ⟨f, hf, h⟩ := gives_bind.1 h
        obtain ⟨hv, rfl⟩ := gives_pure.1 h
        cases hv
        exact .func hs ht hn hp (gives_func.1 hf)
      next hp =>
        obtain ⟨ss, hss, h⟩ := gives_bind.1 h
        obtain ⟨hv, rfl⟩ := gives_pure.1 h
        cases hv
        exact .vars hs ht hn hp (gives_declarators.1 hss)
    next hs =>
      obtain ⟨s, hst, h⟩ := gives_bind.1 h
      obtain ⟨hv, rfl⟩ := gives_pure.1 h
      cases hv
      exact .stmt (Bool.not_eq_true _ ▸ hs) hst
  · intro h
    cases h with
    | func hs ht hn hp hf =>
      rw [if_pos hs]
      refine gives_bind_of ht fun _ => ?_
      refine gives_bind_of (gives_andThen_expect.2 ⟨rfl, hn⟩) fun _ => ?_
      rw [if_pos hp]
      exact gives_bind_of (gives_func.2 hf) fun _ => gives_pure.2 ⟨rfl, rfl⟩
    | vars hs ht hn hp hss =>
      rw [if_pos hs]
      refine gives_bind_of ht fun _ => ?_
      refine gives_bind_of (gives_andThen_expect.2 ⟨rfl, hn⟩) fun _ => ?_
      rw [if_neg hp]
      exact gives_bind_of (gives_declarators.2 hss) fun _ => gives_pure.2 ⟨rfl, rfl⟩
    | stmt hs h =>
      rw [if_neg (by simp [hs])]
      exact gives_bind_of h fun _ => gives_pure.2 ⟨rfl, rfl⟩

theorem step_fileRound {limit : Nat} {done : List Decl} {r : List Decl × Scopes} :
    Step (fileRound limit) (done, scopes) ts r rest ↔
      ∃ ds σ, DeclRule limit scopes ts ds σ rest ∧ r = (ds.reverse ++ done, σ) := by
  constructor
  · rintro ⟨x, hx, hg⟩
    simp only [fileRound] at hx
    split at hx
    next => cases hx
    next =>
      cases hx
      obtain ⟨p, hp, h⟩ := gives_bind.1 hg
      obtain ⟨rfl, rfl⟩ := gives_pure.1 h
      exact ⟨p.val.1, p.val.2, gives_decl.1 hp, rfl⟩
  · rintro ⟨ds, σ, hd, rfl⟩
    cases ts with
    | nil => exact (not_gives_nil (gives_decl.2 hd)).elim
    | cons t ts =>
      refine ⟨_, by simp only [fileRound, List.isEmpty_cons, Bool.false_eq_true, if_false]; rfl, ?_⟩
      exact gives_bind_of (gives_decl.2 hd) fun _ => gives_pure.2 ⟨rfl, rfl⟩

theorem fileRound_eq_none {limit : Nat} {done : List Decl × Scopes} :
    fileRound limit done ts = none ↔ ts = [] := by
  simp [fileRound]

/-- The rounds of a file end when no token is left. -/
theorem rest_of_fileRounds {limit : Nat} {a b : List Decl × Scopes}
    (h : Rounds (fileRound limit) a ts b rest) : rest = [] := by
  induction h with
  | stop h => exact fileRound_eq_none.1 h
  | next _ _ ih => exact ih

theorem file_eq_ok {limit : Nat} {text : Token.Scanned} {ds : List Decl} :
    file limit text = .ok ds ↔
      ∃ done σ, Rounds (fileRound limit) ([], .file) text.tokens (done, σ) [] ∧
        ds = done.reverse := by
  unfold file
  constructor
  · intro h
    generalize hc : chain _ _ _ _ _ = r at h
    cases r with
    | error e => cases h
    | ok r =>
      cases h
      have hr := gives_chain.1 (gives_of_eq hc)
      rw [rest_of_fileRounds hr] at hr
      exact ⟨_, _, hr, rfl⟩
  · rintro ⟨done, σ, hr, rfl⟩
    obtain ⟨h, hc⟩ := gives_chain.2 hr
    rw [hc]
    rfl

theorem parse_eq_ok {limit : Nat} {source : List Char} {ds : List Decl} :
    parse limit source = .ok ds ↔ file limit (Token.scan source) = .ok ds := by
  simp only [parse]
  cases file limit (Token.scan source) with
  | error f => exact ⟨nofun, nofun⟩
  | ok ds' => exact ⟨fun h => congrArg _ (Except.ok.inj h), fun h => congrArg _ (Except.ok.inj h)⟩

end MemLint.Grammar
