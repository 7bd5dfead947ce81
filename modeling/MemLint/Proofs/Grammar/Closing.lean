import MemLint.Proofs.Grammar.ExprRules

/-! Expressions in front of what closes them. An expression that is read to the end of the tokens is
read just so in front of a closing bracket, a semicolon or a brace: no production of the expressions
goes on with one of these tokens. -/

namespace MemLint.Grammar

variable {α : Type} {more ts mid rest : List Token}

/-! ### Closing tokens -/

/-- The tokens that no expression goes on with; the end of the text is one of them. -/
def closers : List Token.Kind := [.rparen, .rbrack, .rbrace, .semi, .eof]

/-- What holds of the token behind a production and of all closing tokens holds in front of
`more`. -/
theorem peek_append {P : Token.Kind → Prop} (hm : peek more ∈ closers) (hP : ∀ k ∈ closers, P k)
    (h : P (peek rest)) : P (peek (rest ++ more)) := by
  cases rest with
  | nil => exact hP _ hm
  | cons t rest => exact h

theorem absorb_closed {step : α → Token → Option α} {a : α}
    (hstep : ∀ a t, t.kind ∈ closers → step a t = none) (hm : peek more ∈ closers) :
    absorb step a (ts ++ more) = ((absorb step a ts).1, (absorb step a ts).2 ++ more) := by
  induction ts generalizing a with
  | nil =>
    rw [List.nil_append]
    refine absorb_of_none fun t rest hmore => hstep a t ?_
    rwa [hmore] at hm
  | cons t ts ih =>
    simp only [absorb, List.cons_append]
    cases step a t with
    | none => rfl
    | some b => exact ih

theorem specifier_closed (b : DeclType.Base) (t : Token) (ht : t.kind ∈ closers) :
    specifier b t = none := by
  have hno : ∀ k ∈ closers, k.startsType = false := by decide
  rw [specifier, hno _ ht]
  rfl

theorem qualifier_closed (u : Unit) (t : Token) (ht : t.kind ∈ closers) : qualifier u t = none := by
  have hno : ∀ k ∈ closers, k.isQualifier = false := by decide
  rw [qualifier, hno _ ht]
  rfl

theorem star_closed (type : DeclType) (t : Token) (ht : t.kind ∈ closers) :
    star type t = none := by
  have hno : ∀ k ∈ closers, k ≠ .star ∧ k ≠ .kwConst := by decide
  obtain ⟨hstar, hconst⟩ := hno _ ht
  unfold star
  split <;> simp_all

theorem stringPart_closed (s : String) (t : Token) (ht : t.kind ∈ closers) :
    stringPart s t = none := by
  have hno : ∀ k ∈ closers, k ≠ .string := by decide
  rw [stringPart, if_neg (hno _ ht)]

theorem declType_closed {type : DeclType} (hm : peek more ∈ closers)
    (h : Gives (declType ts) type rest) : Gives (declType (ts ++ more)) type (rest ++ more) := by
  obtain ⟨t, mid, b, words, hq, hb, rfl, hs⟩ := gives_declType.1 h
  refine gives_declType.2 ⟨t, mid ++ more, b, _, ?_, hb, absorb_closed specifier_closed hm, ?_⟩
  · rw [absorb_closed qualifier_closed hm, hq]
    rfl
  · rw [absorb_closed star_closed hm, hs]

/-! ### Productions in front of closing tokens -/

/-- What the production gives, it gives in front of `more`. -/
def Stays (more : List Token) (p : Parser α) : Prop :=
  ∀ ⦃ts a rest⦄, Gives (p ts) a rest → Gives (p (ts ++ more)) a (rest ++ more)

/-- Each round of the loop is one in front of `more`, and where the loop is over it is there. -/
structure StaysRound (more : List Token) (round : Round α) : Prop where
  step : ∀ ⦃a ts b rest⦄, Step round a ts b rest → Step round a (ts ++ more) b (rest ++ more)
  stop : ∀ ⦃a ts⦄, round a ts = none → round a (ts ++ more) = none

theorem StaysRound.rounds {round : Round α} (h : StaysRound more round) {a b : α}
    (hrounds : Rounds round a ts b rest) : Rounds round a (ts ++ more) b (rest ++ more) := by
  induction hrounds with
  | stop hstop => exact .stop (h.stop hstop)
  | next hstep _ ih => exact .next (h.step hstep) ih

section Expressions

variable {assign unary : Parser Expr} {e x : Expr} {scopes : Scopes}

/-- The first token of what a production takes is there without `more`. -/
theorem peek_start {x : Except Fault (Parsed α ts)} {a : α} (h : Gives x a rest)
    (more : List Token) : peek (ts ++ more) = peek ts := by
  cases ts with
  | nil => exact (not_gives_nil h).elim
  | cons t ts => rfl

variable (hm : peek more ∈ closers)

include hm

theorem Stays.binaryRound (hu : Stays more unary) {level : Level}
    (hl : ∀ k ∈ closers, level k = none) : StaysRound more (binaryRound level unary) where
  step a ts b rest hs := by
    obtain ⟨t, mid, op, right, rfl, hop, hright, rfl⟩ := step_binaryRound.1 hs
    exact step_binaryRound.2 ⟨t, mid ++ more, op, right, rfl, hop, hu hright, rfl⟩
  stop a ts hs := by
    have heof : level .eof = none := hl _ (by decide)
    rw [binaryRound_eq_none heof] at hs ⊢
    exact peek_append hm hl hs

theorem Stays.binary (hu : Stays more unary) {ls : List Level}
    (hls : ∀ level ∈ ls, ∀ k ∈ closers, level k = none) : Stays more (binary unary ls) := by
  induction ls with
  | nil => exact hu
  | cons level ls ih =>
    intro ts e rest h
    obtain ⟨hlevel, hls⟩ := List.forall_mem_cons.1 hls
    obtain ⟨left, mid, hleft, hrounds⟩ := gives_binary_cons.1 h
    have hround := (ih hls).binaryRound hm hlevel
    exact gives_binary_cons.2 ⟨left, mid ++ more, ih hls hleft, hround.rounds hrounds⟩

theorem Stays.assignment (hu : Stays more unary) (ha : Stays more assign) :
    Stays more (assignment unary assign) := by
  have hb : Stays more (Grammar.binary unary levels) := hu.binary hm (by decide)
  have hno : ∀ k ∈ closers, assignOp? k = none := by decide
  intro ts e rest h
  cases gives_assignment.1 h with
  | plain he ho => exact gives_assignment.2 (.plain (hb he) (peek_append hm hno ho))
  | assign hl ho hassign hv => exact gives_assignment.2 (.assign (hb hl) ho hassign (ha hv))

theorem Stays.commaRound (ha : Stays more assign) : StaysRound more (commaRound assign) where
  step a ts b rest hs := by
    obtain ⟨t, mid, rfl, ht, hx⟩ := step_commaRound.1 hs
    exact step_commaRound.2 ⟨t, mid ++ more, rfl, ht, ha hx⟩
  stop a ts hs := by
    rw [commaRound_eq_none] at hs ⊢
    exact peek_append (P := (· ≠ .comma)) hm (by decide) hs

theorem Stays.expression (ha : Stays more assign) : Stays more (expression assign) := by
  intro ts e rest h
  obtain ⟨first, mid, hfirst, hrounds⟩ := gives_expression.1 h
  exact gives_expression.2 ⟨first, mid ++ more, ha hfirst, (ha.commaRound hm).rounds hrounds⟩

omit hm in
theorem Stays.itemRound (ha : Stays more assign) {close : Token.Kind} (hclose : close ≠ .eof) :
    StaysRound more (itemRound close assign) where
  step done ts next rest hs := by
    obtain ⟨hne, hitem⟩ := step_itemRound.1 hs
    cases hitem with
    | comma hx ht =>
      have hne' : peek (ts ++ more) ≠ close := by rwa [peek_start hx]
      exact step_itemRound.2 ⟨hne', .comma (ha hx) ht⟩
    | last hx ht hc =>
      have hne' : peek (ts ++ more) ≠ close := by rwa [peek_start hx]
      obtain ⟨c, rest, rfl, hck⟩ := exists_of_peek ht hclose
      exact step_itemRound.2 ⟨hne', .last (ha hx) hck hc⟩
  stop done ts hs := by
    rw [itemRound_eq_none] at hs ⊢
    obtain ⟨c, ts, rfl, hck⟩ := exists_of_peek hs hclose
    exact hck

omit hm in
/-- A list brings its own closing token. -/
theorem Stays.listed (ha : Stays more assign) {close : Token.Kind} (hclose : close ≠ .eof)
    {xs : List Expr} (h : Listed close assign ts xs rest) :
    Listed close assign (ts ++ more) xs (rest ++ more) := by
  obtain ⟨done, t, hrounds, ht, rfl⟩ := h
  exact ⟨done, t, (ha.itemRound hclose).rounds hrounds, ht, rfl⟩

omit hm in
theorem Stays.initList (ha : Stays more assign) : Stays more (initList assign) := by
  intro ts n rest h
  cases gives_initList.1 h with
  | string ht => exact gives_initList.2 (.string ht)
  | braces ht hxs => exact gives_initList.2 (.braces ht (ha.listed (by decide) hxs))

theorem primary_closed (h : PrimaryRule scopes ts e rest) :
    PrimaryRule scopes (ts ++ more) e (rest ++ more) := by
  cases h with
  | name ht => exact .name ht
  | number hv => exact .number hv
  | @string t ts ht =>
    have hstring : PrimaryRule scopes (t :: (ts ++ more)) _ _ := .string ht
    rwa [absorb_closed stringPart_closed hm] at hstring
  | null ht => exact .null ht

theorem Stays.postfixRound (ha : Stays more assign) : StaysRound more (postfixRound assign) where
  step a ts b rest hs := by
    cases step_postfixRound.1 hs with
    | call ht hn hargs => exact step_postfixRound.2 (.call ht hn (ha.listed (by decide) hargs))
    | index ht hn hi hc => exact step_postfixRound.2 (.index ht hn (ha.expression hm hi) hc)
    | step ht hassign => exact step_postfixRound.2 (.step ht hassign)
  stop a ts hs := by
    rw [postfixRound_eq_none] at hs ⊢
    exact peek_append (P := (· ∉ _)) hm (by decide) hs

theorem Stays.newRule (ha : Stays more assign) (h : NewRule assign ts e rest) :
    NewRule assign (ts ++ more) e (rest ++ more) := by
  have hno {k : Token.Kind} (hk : k ∉ closers) (hr : peek rest ≠ k) : peek (rest ++ more) ≠ k :=
    peek_append (P := (· ≠ k)) hm (fun c hc hck => hk (hck ▸ hc)) hr
  cases h with
  | bare ht hb hp =>
    exact .bare (declType_closed hm ht) (hno (by decide) hb) (hno (by decide) hp)
  | sized ht hb hs hc hl =>
    exact .sized (declType_closed hm ht) hb (ha.expression hm hs) hc (hno (by decide) hl)
  | @filled _ b c mid rest' _ size n ht hb hs hc hl hn =>
    have hl' : peek (rest' ++ more) = .lbrace := by rw [peek_start hn, hl]
    exact .filled (declType_closed hm ht) hb (ha.expression hm hs) hc hl' (ha.initList hn)
  | args ht hb hargs => exact .args (declType_closed hm ht) hb (ha.listed (by decide) hargs)

omit hm in
theorem Stays.deleteRule (hu : Stays more unary) (h : DeleteRule unary ts e rest) :
    DeleteRule unary (ts ++ more) e (rest ++ more) := by
  cases h with
  | plain hb hx =>
    have hb' : peek (ts ++ more) ≠ .lbrack := by rwa [peek_start hx]
    exact .plain hb' (hu hx)
  | array hb hc hx => exact .array hb hc (hu hx)

theorem Stays.sizeofRule (ha : Stays more assign) (hu : Stays more unary)
    (h : SizeofRule assign unary ts e rest) :
    SizeofRule assign unary (ts ++ more) e (rest ++ more) := by
  cases h with
  | @type t c ts _ type ht hs hd hc =>
    have hs' : (peek (ts ++ more)).startsType := by rwa [peek_start hd]
    exact .type ht hs' (declType_closed hm hd) hc
  | @paren t c ts _ x ht hs hx hc =>
    have hs' : (peek (ts ++ more)).startsType = false := by rwa [peek_start hx]
    exact .paren ht hs' (ha.expression hm hx) hc
  | operand hp hx =>
    have hp' : peek (ts ++ more) ≠ .lparen := by rwa [peek_start hx]
    exact .operand hp' (hu hx)

theorem Stays.parenRule (ha : Stays more assign) (hu : Stays more unary)
    (h : ParenRule assign unary ts e rest) :
    ParenRule assign unary (ts ++ more) e (rest ++ more) := by
  cases h with
  | cast hs hd hc he =>
    have hs' : (peek (ts ++ more)).startsType := by rwa [peek_start hd]
    exact .cast hs' (declType_closed hm hd) hc (hu he)
  | group hs hx hc hrounds =>
    have hs' : (peek (ts ++ more)).startsType = false := by rwa [peek_start hx]
    exact .group hs' (ha.expression hm hx) hc ((ha.postfixRound hm).rounds hrounds)

theorem Stays.unaryForm (ha : Stays more assign) (hu : Stays more unary) :
    Stays more (unaryForm scopes assign unary) := by
  intro ts e rest h
  refine gives_unaryForm.2 ?_
  cases gives_unaryForm.1 h with
  | signed ht hx => exact .signed ht (hu hx)
  | stepped ht hx hassign => exact .stepped ht (hu hx) hassign
  | new ht hn => exact .new ht (ha.newRule hm hn)
  | delete ht hd => exact .delete ht (hu.deleteRule hd)
  | sizeof ht hz => exact .sizeof ht (ha.sizeofRule hm hu hz)
  | paren ht hp => exact .paren ht (ha.parenRule hm hu hp)
  | operand hx hrounds =>
    exact .operand (primary_closed hm hx) ((ha.postfixRound hm).rounds hrounds)

/-- Every expression that is read to the end is read in front of closing tokens. -/
theorem stays_expr (scopes : Scopes) (d : Nat) :
    Stays more (Grammar.assign scopes d) ∧ Stays more (Grammar.unary scopes d) := by
  induction d with
  | zero =>
    exact ⟨fun _ _ _ h => (not_gives_assign_zero h).elim,
      fun _ _ _ h => (not_gives_unary_zero h).elim⟩
  | succ d ih =>
    obtain ⟨ha, hu⟩ := ih
    constructor
    · intro ts e rest h
      have hform := hu.assignment hm ha (gives_assignment.2 (gives_assign_succ.1 h))
      exact gives_assign_succ.2 (gives_assignment.1 hform)
    · intro ts e rest h
      have hform := Stays.unaryForm hm ha hu (gives_unaryForm.2 (gives_unary_succ.1 h))
      exact gives_unary_succ.2 (gives_unaryForm.1 hform)

end Expressions

end MemLint.Grammar
