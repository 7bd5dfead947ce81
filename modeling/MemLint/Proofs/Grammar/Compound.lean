import MemLint.Proofs.Grammar.Closing
import MemLint.Proofs.Grammar.Concatenation
import MemLint.Proofs.Grammar.DepthLimit
import MemLint.Proofs.Grammar.Printing

/-! Compound assignments and steps. They are read to the very tree of the assignment that they
abbreviate, where the target stands twice; and where the target cannot be assigned to, they are
refused as the assignment is. -/

namespace MemLint.Grammar

variable {α : Type} {scopes : Scopes} {d D : Nat} {operand : Parser Expr} {op : BinOp}
  {ts mid rest : List Token} {e x v : Expr} {t p : Token}

/-! ### Operators between operands -/

theorem binaryRound_of_none {level : Level} (h : level (peek rest) = none) :
    binaryRound level operand e rest = none := by
  cases rest with
  | nil => rfl
  | cons t rest =>
    rw [peek_cons] at h
    simp only [binaryRound, h]

/-- An operand that no operator follows. -/
theorem gives_binary_of_stop {ls : List Level} (h : Gives (operand ts) e rest)
    (hstop : ∀ level ∈ ls, level (peek rest) = none) : Gives (binary operand ls ts) e rest := by
  induction ls with
  | nil => exact h
  | cons level ls ih =>
    obtain ⟨hlevel, hls⟩ := List.forall_mem_cons.1 hstop
    exact gives_binary_cons.2 ⟨e, rest, ih hls, .stop (binaryRound_of_none hlevel)⟩

/-- Two operands with an operator between them, and none behind. -/
theorem gives_binary_of_op {ls ls' : List Level} {level : Level} (hop : level p.kind = some op)
    (htighter : ∀ level ∈ ls', level p.kind = none) (hx : Gives (operand ts) x (p :: mid))
    (hv : Gives (operand mid) v rest)
    (hstop : ∀ l ∈ ls ++ level :: ls', l (peek rest) = none) :
    Gives (binary operand (ls ++ level :: ls') ts) (.binary op x v) rest := by
  induction ls with
  | nil =>
    obtain ⟨hlevel, hls⟩ := List.forall_mem_cons.1 hstop
    refine gives_binary_cons.2 ⟨x, p :: mid, gives_binary_of_stop hx htighter, ?_⟩
    refine .next (step_binaryRound.2 ⟨p, mid, op, v, rfl, hop, ?_, rfl⟩) (.stop ?_)
    · exact gives_binary_of_stop hv hls
    · exact binaryRound_of_none hlevel
  | cons looser ls ih =>
    obtain ⟨hlooser, hls⟩ := List.forall_mem_cons.1 hstop
    exact gives_binary_cons.2 ⟨_, rest, ih hls, .stop (binaryRound_of_none hlooser)⟩

/-- Each operator stands on a level of its own, and on no tighter one. -/
theorem exists_level (op : BinOp) : ∃ ls level ls', levels = ls ++ level :: ls' ∧
    level (opKind op) = some op ∧ ∀ level ∈ ls', level (opKind op) = none := by
  cases op with
  | or => exact ⟨levels.take 0, _, levels.drop 1, rfl, rfl, by decide⟩
  | and => exact ⟨levels.take 1, _, levels.drop 2, rfl, rfl, by decide⟩
  | eq | ne => exact ⟨levels.take 2, _, levels.drop 3, rfl, rfl, by decide⟩
  | lt | le | gt | ge => exact ⟨levels.take 3, _, levels.drop 4, rfl, rfl, by decide⟩
  | add | sub => exact ⟨levels.take 4, _, levels.drop 5, rfl, rfl, by decide⟩
  | mul | div | rem => exact ⟨levels.take 5, _, levels.drop 6, rfl, rfl, by decide⟩

theorem gives_binary_levels (hp : p.kind = opKind op) (hx : Gives (operand ts) x (p :: mid))
    (hv : Gives (operand mid) v rest) (hstop : ∀ level ∈ levels, level (peek rest) = none) :
    Gives (binary operand levels ts) (.binary op x v) rest := by
  obtain ⟨ls, level, ls', hlevels, hop, htighter⟩ := exists_level op
  rw [← hp] at hop htighter
  rw [hlevels] at hstop ⊢
  exact gives_binary_of_op hop htighter hx hv hstop

/-- No operator is a closing token or one of an assignment. -/
theorem levels_of_closers {k : Token.Kind} (hk : k ∈ closers) :
    ∀ level ∈ levels, level k = none := by
  have hno : ∀ k ∈ closers, ∀ level ∈ levels, level k = none := by decide
  exact hno k hk

theorem levels_of_assignOp {k : Token.Kind} {op? : Option BinOp} (hk : assignOp? k = some op?) :
    ∀ level ∈ levels, level k = none := by
  have hno : ∀ k ∈ [Token.Kind.assign, .addAssign, .subAssign, .mulAssign, .divAssign],
      ∀ level ∈ levels, level k = none := by decide
  refine hno k ?_
  revert hk
  cases k <;> simp [assignOp?]

theorem postfixRound_of_closers (h : peek rest ∈ closers) : postfixRound operand e rest = none := by
  have hno : ∀ k ∈ closers, k ∉ [.lparen, .lbrack, .inc, .dec, .dot, .arrow, .scope] := by decide
  exact postfixRound_eq_none.2 (hno _ h)

theorem assignOp?_of_closers (h : peek rest ∈ closers) : assignOp? (peek rest) = none := by
  have hno : ∀ k ∈ closers, assignOp? k = none := by decide
  exact hno _ h

/-! ### Expressions in parentheses -/

/-- The tokens in parentheses. -/
def inParens (o c : Token) (ts : List Token) : List Token := o :: (ts ++ [c])

theorem inParens_append (o c : Token) (ts rest : List Token) :
    inParens o c ts ++ rest = o :: (ts ++ c :: rest) := by
  simp [inParens]

/-- The tokens that a unary expression starts with. -/
def heads : List Token.Kind :=
  [.star, .amp, .minus, .plus, .bang, .tilde, .inc, .dec, .kwNew, .kwDelete, .kwSizeof, .lparen,
    .ident, .int, .float, .char, .string, .kwTrue, .kwFalse, .kwNullptr]

theorem mem_heads_of_unary (h : Gives (unary scopes d ts) e rest) : peek ts ∈ heads := by
  cases d with
  | zero => exact (not_gives_unary_zero h).elim
  | succ d =>
    cases gives_unary_succ.1 h with
    | signed ht =>
      unfold prefixOp? at ht
      split at ht <;> simp_all [heads]
    | stepped ht =>
      unfold stepOp? at ht
      split at ht <;> simp_all [heads]
    | new ht | delete ht | sizeof ht | paren ht => simp [heads, ht]
    | operand hx _ =>
      cases hx with
      | name ht | string ht | null ht => simp [heads, ht]
      | number hv =>
        unfold literal? at hv
        split at hv <;> simp_all [heads]

/-- No expression starts as a type does. -/
theorem startsType_of_expression (h : Gives (expression (assign scopes d) ts) e rest) :
    (peek ts).startsType = false := by
  have hno : ∀ k ∈ heads, k.startsType = false := by decide
  refine hno _ ?_
  obtain ⟨first, mid, hfirst, -⟩ := gives_expression.1 h
  cases d with
  | zero => exact (not_gives_assign_zero hfirst).elim
  | succ d =>
    cases gives_assign_succ.1 hfirst with
    | plain hx _ | assign hx _ _ _ =>
      obtain ⟨x, mid, hx⟩ := gives_operand_of_binary hx
      exact mem_heads_of_unary hx

/-! ### More levels -/

theorem Raised.gives {short : Prop} {a : α} {src : List Token} {x y : Except Fault (Parsed α src)}
    (h : Raised short ts x y) (hx : Gives x a rest) : Gives y a rest := by
  cases h with
  | deep | error => exact (not_gives_error hx).elim
  | ok => exact hx

theorem gives_assign_of_le (hd : d ≤ D) (h : Gives (assign scopes d ts) e rest) :
    Gives (assign scopes D ts) e rest := (raised_expr scopes hd ts).1.gives h

theorem gives_expression_of_le (hd : d ≤ D) (h : Gives (expression (assign scopes d) ts) e rest) :
    Gives (expression (assign scopes D) ts) e rest := by
  have hraises : Raises True (ts.length + 1) (assign scopes d) (assign scopes D) :=
    fun ts _ => (raised_expr scopes hd ts).1.mono fun _ => trivial
  exact (hraises.expression ts (Nat.lt_succ_self _)).gives h

/-! ### Readings -/

/-- The production reads the expression from the tokens in front of everything that closes it, if
there are at least `n` levels to go. -/
def ReadsAs (p : Nat → Parser Expr) (n : Nat) (ts : List Token) (e : Expr) : Prop :=
  ∀ ⦃D rest⦄, n ≤ D → peek rest ∈ closers → Gives (p D (ts ++ rest)) e rest

theorem ReadsAs.mono {p : Nat → Parser Expr} {n m : Nat} (h : ReadsAs p n ts e) (hnm : n ≤ m) :
    ReadsAs p m ts e := fun _ _ hD => h (Nat.le_trans hnm hD)

theorem readsAs_of_gives (h : Gives (assign scopes d ts) e []) : ReadsAs (assign scopes) d ts e :=
  fun D _ hD hrest => (stays_expr hrest scopes D).1 (gives_assign_of_le hD h)

theorem ReadsAs.assign {n : Nat} (h : ReadsAs (unary scopes) n ts e) :
    ReadsAs (assign scopes) (n + 1) ts e := by
  intro D rest hD hrest
  obtain ⟨D, rfl⟩ := Nat.exists_eq_add_one.2 (Nat.lt_of_lt_of_le n.succ_pos hD)
  have hx := gives_binary_of_stop (h (Nat.le_of_succ_le_succ hD) hrest) (levels_of_closers hrest)
  exact gives_assign_succ.2 (.plain hx (assignOp?_of_closers hrest))

theorem readsAs_one {n : Nat} (hk : t.kind = .int) (hl : t.lex = "1") :
    ReadsAs (unary scopes) (n + 1) [t] (.intLit 1) := by
  intro D rest hD hrest
  obtain ⟨D, rfl⟩ := Nat.exists_eq_add_one.2 (Nat.lt_of_lt_of_le n.succ_pos hD)
  have hone : Numeral.integer? "1" = some 1 := by with_unfolding_all rfl
  have hv : literal? t = some 1 := by rw [literal?, hk, hl, hone]
  exact gives_unary_succ.2 (.operand (.number hv) (.stop (postfixRound_of_closers hrest)))

section Groups

variable {o c s : Token} {op? : Option BinOp} {L : List Token}
  (ho : o.kind = .lparen) (hc : c.kind = .rparen)
  (hx : Gives (expression (assign scopes d) L) x [])

include ho hc hx

omit ho in
/-- What is read to the end is read in front of a parenthesis. -/
theorem gives_before_paren (hD : d ≤ D) (mid : List Token) :
    Gives (expression (assign scopes D) (L ++ c :: mid)) x (c :: mid) := by
  have hclose : peek (c :: mid) ∈ closers := by
    rw [peek_cons, hc]
    decide
  exact (stays_expr hclose scopes D).1.expression hclose (gives_expression_of_le hD hx)

/-- An expression in parentheses, and what may follow it as an operand. -/
theorem gives_group (hD : d ≤ D) (hr : Rounds (postfixRound (assign scopes D)) x mid e rest) :
    Gives (unary scopes (D + 1) (inParens o c L ++ mid)) e rest := by
  have hgroup := gives_before_paren hc hx hD mid
  rw [inParens_append]
  exact gives_unary_succ.2 (.paren ho (.group (startsType_of_expression hgroup) hgroup hc hr))

theorem readsAs_group : ReadsAs (unary scopes) (d + 1) (inParens o c L) x := by
  intro D rest hD hrest
  obtain ⟨D, rfl⟩ := Nat.exists_eq_add_one.2 (Nat.lt_of_lt_of_le d.succ_pos hD)
  exact gives_group ho hc hx (Nat.le_of_succ_le_succ hD) (.stop (postfixRound_of_closers hrest))

/-- In front of an operator stands the expression in the parentheses. -/
theorem readsAs_binary (hp : p.kind = opKind op) (hv : ReadsAs (unary scopes) (d + 1) ts v) :
    ReadsAs (assign scopes) (d + 2) (inParens o c L ++ p :: ts) (.binary op x v) := by
  intro D rest hD hrest
  obtain ⟨D, rfl⟩ : ∃ D', D = D' + 2 := ⟨D - 2, by omega⟩
  rw [List.append_assoc, List.cons_append]
  have hstop : postfixRound (Grammar.assign scopes D) x (p :: (ts ++ rest)) = none := by
    rw [postfixRound_eq_none, peek_cons, hp]
    cases op <;> decide
  have hleft := gives_group ho hc hx (show d ≤ D by omega) (.stop hstop)
  have hright := hv (show d + 1 ≤ D + 1 by omega) hrest
  have hbinary := gives_binary_levels hp hleft hright (levels_of_closers hrest)
  exact gives_assign_succ.2 (.plain hbinary (assignOp?_of_closers hrest))

/-- The target of an assignment is the expression in the parentheses. -/
theorem gives_target (ht : assignOp? t.kind = some op?) (hD : d ≤ D) :
    Gives (binary (unary scopes (D + 1)) levels (inParens o c L ++ t :: mid)) x (t :: mid) := by
  refine gives_binary_of_stop (gives_group ho hc hx hD (.stop ?_)) (levels_of_assignOp ht)
  rw [postfixRound_eq_none, peek_cons]
  revert ht
  cases t.kind <;> simp [assignOp?]

theorem readsAs_assign (ht : assignOp? t.kind = some op?) (ha : x.assignable)
    (hv : ReadsAs (assign scopes) (d + 2) ts v) :
    ReadsAs (assign scopes) (d + 3) (inParens o c L ++ t :: ts) (assignWith op? x v) := by
  intro D rest hD hrest
  obtain ⟨D, rfl⟩ : ∃ D', D = D' + 2 := ⟨D - 2, by omega⟩
  rw [List.append_assoc, List.cons_append]
  have hleft : Gives (binary (unary scopes (D + 1)) levels
      (inParens o c L ++ t :: (ts ++ rest))) x (t :: (ts ++ rest)) :=
    gives_target ho hc hx ht (by omega)
  exact gives_assign_succ.2 (.assign hleft ht ha (hv (by omega) hrest))

theorem readsAs_step_after (hs : stepOp? s.kind = some op) (ha : x.assignable) :
    ReadsAs (unary scopes) (d + 1) (inParens o c L ++ [s]) (stepped op x) := by
  intro D rest hD hrest
  obtain ⟨D, rfl⟩ := Nat.exists_eq_add_one.2 (Nat.lt_of_lt_of_le d.succ_pos hD)
  rw [List.append_assoc, List.singleton_append]
  refine gives_group ho hc hx (Nat.le_of_succ_le_succ hD) (.next ?_ (.stop ?_))
  · exact step_postfixRound.2 (.step hs ha)
  · exact postfixRound_of_closers hrest

theorem readsAs_step_before (hs : stepOp? s.kind = some op) (ha : x.assignable) :
    ReadsAs (unary scopes) (d + 2) (s :: inParens o c L) (stepped op x) := by
  intro D rest hD hrest
  obtain ⟨D, rfl⟩ : ∃ D', D = D' + 1 := ⟨D - 1, by omega⟩
  have hgroup := readsAs_group ho hc hx (show d + 1 ≤ D by omega) hrest
  exact gives_unary_succ.2 (.stepped hs hgroup ha)

end Groups

/-! ### Refusals -/

/-- The tokens are refused for the cause in front of everything that closes them, if there are at
least `n` levels to go, and with fewer levels for the cause or as too deep. -/
def Refused (scopes : Scopes) (n : Nat) (ts : List Token) (cause : Cause) : Prop :=
  ∀ ⦃D rest⦄, peek rest ∈ closers → ∃ f, assign scopes D (ts ++ rest) = .error f ∧
    (f.cause = cause ∨ D < n ∧ f.cause = .tooDeep)

/-- What is refused with many levels is refused with fewer. -/
theorem refused_of_le {n : Nat} {cause : Cause}
    (h : ∀ ⦃D rest⦄, n ≤ D → peek rest ∈ closers →
      ∃ f, assign scopes D (ts ++ rest) = .error f ∧ f.cause = cause) :
    Refused scopes n ts cause := by
  intro D rest hrest
  by_cases hD : n ≤ D
  · obtain ⟨f, hf, hcause⟩ := h hD hrest
    exact ⟨f, hf, .inl hcause⟩
  -- with fewer levels the same is read, unless they are too few
  · obtain ⟨f, hf, hcause⟩ := h (Nat.le_refl n) hrest
    have hraised := (raised_expr scopes (Nat.le_of_not_le hD) (ts ++ rest)).1
    rw [hf] at hraised
    generalize assign scopes D (ts ++ rest) = y at hraised ⊢
    cases hraised with
    | @deep g _ hg => exact ⟨g, rfl, .inr ⟨by omega, hg⟩⟩
    | error => exact ⟨f, rfl, .inl hcause⟩

theorem binary_error {f : Fault} (h : operand ts = .error f) (ls : List Level) :
    binary operand ls ts = .error f := by
  induction ls with
  | nil => exact h
  | cons level ls ih =>
    rw [binary, ih]
    rfl

theorem assign_error {f : Fault} (h : unary scopes D ts = .error f) :
    assign scopes (D + 1) ts = .error f := by
  rw [assign, assignment, binary_error h]
  rfl

theorem stepOp?_cases {k : Token.Kind} (h : stepOp? k = some op) :
    k = .inc ∧ op = .add ∨ k = .dec ∧ op = .sub := by
  unfold stepOp? at h
  split at h <;> simp_all

section Groups

variable {o c s : Token} {op? : Option BinOp} {L : List Token}
  (ho : o.kind = .lparen) (hc : c.kind = .rparen)
  (hx : Gives (expression (assign scopes d) L) x []) (ha : x.assignable = false)

include ho hc hx ha

theorem refused_assign (ht : assignOp? t.kind = some op?) (ts : List Token) :
    Refused scopes (d + 3) (inParens o c L ++ t :: ts) (.notAssignable x.kindName) := by
  refine refused_of_le fun D rest hD hrest => ?_
  obtain ⟨D, rfl⟩ : ∃ D', D = D' + 2 := ⟨D - 2, by omega⟩
  obtain ⟨h, hleft⟩ : Gives (binary (unary scopes (D + 1)) levels
      (inParens o c L ++ t :: ts ++ rest)) x (t :: (ts ++ rest)) := by
    rw [List.append_assoc]
    exact gives_target ho hc hx ht (by omega)
  refine ⟨faultAt (t :: (ts ++ rest)) (.notAssignable x.kindName), ?_, rfl⟩
  rw [assign, assignment, hleft]
  simp [ht, ha]

omit ho hc hx in
theorem increment_error {src : List Token} (op : BinOp) {y : Parsed Expr src} (hy : y.val = x) :
    increment op y = .error (faultAt y.rest (.notIncrementable x.kindName)) := by
  rw [increment, hy, ha]
  rfl

theorem refused_step_after (hs : stepOp? s.kind = some op) :
    Refused scopes (d + 3) (inParens o c L ++ [s]) (.notIncrementable x.kindName) := by
  refine refused_of_le fun D rest hD hrest => ?_
  obtain ⟨D, rfl⟩ : ∃ D', D = D' + 2 := ⟨D - 2, by omega⟩
  have hround : postfixRound (assign scopes D) x (s :: rest) =
      some (.error (faultAt rest (.notIncrementable x.kindName))) := by
    rcases stepOp?_cases hs with ⟨hk, rfl⟩ | ⟨hk, rfl⟩
    all_goals
      simp only [postfixRound, hk]
      rw [increment_error ha _ rfl]
      rfl
  have hgroup := gives_before_paren hc hx (show d ≤ D by omega) (s :: rest)
  have hstart := startsType_of_expression hgroup
  obtain ⟨h, hok⟩ : Gives ((Parsed.first o (L ++ c :: s :: rest)).andThen
    (expression (assign scopes D))) x (c :: s :: rest) := gives_andThen.2 hgroup
  refine ⟨faultAt rest (.notIncrementable x.kindName), assign_error ?_, rfl⟩
  rw [List.append_assoc, List.singleton_append, inParens_append, unary]
  simp only [unaryForm, ho, parenthesized, rest_first, hstart]
  rw [if_neg Bool.false_ne_true, hok, ok_bind]
  obtain ⟨h', hclosed⟩ : Gives (Parsed.andThen ⟨x, c :: s :: rest, h⟩ (expect .rparen)) c
      (s :: rest) := gives_andThen_expect.2 ⟨rfl, hc⟩
  rw [hclosed, ok_bind]
  -- the loop over what follows the parentheses ends in its first round
  change chain (postfixRound (assign scopes D)) _ x (s :: rest) h' = _
  rw [chain, hround]

theorem refused_step_before (hs : stepOp? s.kind = some op) :
    Refused scopes (d + 3) (s :: inParens o c L) (.notIncrementable x.kindName) := by
  refine refused_of_le fun D rest hD hrest => ?_
  obtain ⟨D, rfl⟩ : ∃ D', D = D' + 2 := ⟨D - 2, by omega⟩
  obtain ⟨h, hok⟩ : Gives ((Parsed.first s (inParens o c L ++ rest)).andThen (unary scopes D)) x
    rest := gives_andThen.2 (readsAs_group ho hc hx (show d + 1 ≤ D by omega) hrest)
  refine ⟨faultAt rest (.notIncrementable x.kindName), assign_error ?_, rfl⟩
  rw [List.cons_append, unary]
  rcases stepOp?_cases hs with ⟨hk, rfl⟩ | ⟨hk, rfl⟩
  all_goals
    simp only [unaryForm, hk, hok, ok_bind]
    exact increment_error ha _ rfl

end Groups

/-! ### Abbreviations -/

/-- Let a target and a value be read from tokens to their end. With enough levels, a compound
assignment with the target in parentheses is read as the assignment of the target with the operator
and the value, each in parentheses again; and a step up or down, before the target or behind it, as
the assignment of the target plus or minus the number one. Where the target cannot be assigned to,
all of them are refused for that reason. -/
theorem compound_assignment_abbreviates {L R : List Token} {o c a : Token}
    (hL : Gives (expression (assign scopes d) L) x []) (hR : Gives (assign scopes d R) v [])
    (ho : o.kind = .lparen) (hc : c.kind = .rparen) (ha : a.kind = .assign) :
    let reads := ReadsAs (assign scopes) (d + 3)
    let refused := Refused scopes (d + 3)
    let target := inParens o c L
    (x.assignable = true →
      (∀ ⦃op t p⦄, assignOp? t.kind = some (some op) → p.kind = opKind op →
        reads (target ++ t :: R) (.assign x (.binary op x v)) ∧
        reads (target ++ a :: (target ++ p :: inParens o c R)) (.assign x (.binary op x v))) ∧
      ∀ ⦃op s p one⦄, stepOp? s.kind = some op → p.kind = opKind op →
        one.kind = .int → one.lex = "1" →
        reads (target ++ [s]) (.assign x (.binary op x (.intLit 1))) ∧
        reads (s :: target) (.assign x (.binary op x (.intLit 1))) ∧
        reads (target ++ a :: (target ++ [p, one])) (.assign x (.binary op x (.intLit 1)))) ∧
    (x.assignable = false →
      (∀ ⦃op? t⦄ ts, assignOp? t.kind = some op? →
        refused (target ++ t :: ts) (.notAssignable x.kindName)) ∧
      ∀ ⦃op s⦄, stepOp? s.kind = some op →
        refused (target ++ [s]) (.notIncrementable x.kindName) ∧
        refused (s :: target) (.notIncrementable x.kindName)) := by
  intro reads refused target
  have hparens : ReadsAs (unary scopes) (d + 1) (inParens o c R) v := by
    refine readsAs_group ho hc (gives_expression.2 ⟨v, [], hR, .stop ?_⟩)
    exact commaRound_eq_none.2 (by decide)
  have hplain : assignOp? a.kind = some none := by
    rw [ha]
    rfl
  refine ⟨fun hx => ⟨fun op t p ht hp => ⟨?_, ?_⟩, fun op s p one hs hp hk hl => ⟨?_, ?_, ?_⟩⟩,
    fun hx => ⟨fun op? t ts ht => refused_assign ho hc hL hx ht ts,
      fun op s hs => ⟨refused_step_after ho hc hL hx hs, refused_step_before ho hc hL hx hs⟩⟩⟩
  · exact readsAs_assign ho hc hL ht hx ((readsAs_of_gives hR).mono (by omega))
  · exact readsAs_assign ho hc hL hplain hx (readsAs_binary ho hc hL hp hparens)
  · exact (readsAs_step_after ho hc hL hs hx).assign.mono (by omega)
  · exact (readsAs_step_before ho hc hL hs hx).assign
  · exact readsAs_assign ho hc hL hplain hx (readsAs_binary ho hc hL hp (readsAs_one hk hl))

/-- A target with a step in its subscript and an assignment as the value; and a number, which is no
target. -/
theorem compound_assignment_abbreviates_at_subscript :
    let tok (k : Token.Kind) (lex : String) : Token := ⟨k, lex, ⟨1, 1⟩⟩
    let parens := inParens (tok .lparen "(") (tok .rparen ")")
    let L := [tok .ident "a", tok .lbrack "[", tok .ident "i", tok .inc "++", tok .rbrack "]"]
    let R := [tok .ident "b", tok .assign "=", tok .int "2"]
    let x : Expr := .index "a" (stepped .add (.ident "i"))
    let v : Expr := .assign (.ident "b") (.intLit 2)
    Gives (expression (assign .file 4) L) x [] ∧ Gives (assign .file 4 R) v [] ∧
    ReadsAs (assign .file) 7 (parens L ++ tok .subAssign "-=" :: R)
      (.assign x (.binary .sub x v)) ∧
    ReadsAs (assign .file) 7
      (parens L ++ tok .assign "=" :: (parens L ++ tok .minus "-" :: parens R))
      (.assign x (.binary .sub x v)) ∧
    Refused .file 7 (parens [tok .int "2"] ++ [tok .dec "--"])
      (.notIncrementable "*ast.IntLit") := by
  intro tok parens L R x v
  have hL : Gives (expression (assign .file 4) L) x [] := by
    dsimp only [L, x, tok]
    exact ⟨by decide, by with_unfolding_all rfl⟩
  have hR : Gives (assign .file 4 R) v [] := by
    dsimp only [R, v, tok]
    exact ⟨by decide, by with_unfolding_all rfl⟩
  have hnumber : Gives (expression (assign .file 4) [tok .int "2"]) (.intLit 2) [] := by
    dsimp only [tok]
    exact ⟨by decide, by with_unfolding_all rfl⟩
  obtain ⟨hcompound, -⟩ := (compound_assignment_abbreviates hL hR
    (o := tok .lparen "(") (c := tok .rparen ")") (a := tok .assign "=") rfl rfl rfl).1 rfl
  obtain ⟨hshort, hlong⟩ := hcompound (t := tok .subAssign "-=") (p := tok .minus "-") rfl rfl
  obtain ⟨-, hstep⟩ := (compound_assignment_abbreviates hnumber hR
    (o := tok .lparen "(") (c := tok .rparen ")") (a := tok .assign "=") rfl rfl rfl).2 rfl
  exact ⟨hL, hR, hshort, hlong, (hstep (s := tok .dec "--") rfl).1⟩

end MemLint.Grammar
