import MemLint.Grammar.Type
import MemLint.Proofs.Except

/-! Productions as relations. `Gives x v rest` says that a production ends with the value `v` in
front of `rest`, and leaves out the proof that tokens were taken. A loop becomes the relation
`Rounds` over its single steps. -/

namespace MemLint.Grammar

variable {α β γ : Type} {src : List Token}

/-- The production ends with the value `v` and leaves `rest`. -/
def Gives (x : Except Fault (Parsed α src)) (v : α) (rest : List Token) : Prop :=
  ∃ h, x = .ok ⟨v, rest, h⟩

theorem gives_of_eq {x : Except Fault (Parsed α src)} {p : Parsed α src} (h : x = .ok p) :
    Gives x p.val p.rest := ⟨p.shorter, h⟩

@[simp] theorem gives_ok {p : Parsed α src} {v : α} {rest : List Token} :
    Gives (.ok p) v rest ↔ p.val = v ∧ p.rest = rest := by
  constructor
  · rintro ⟨h, hp⟩
    cases hp
    exact ⟨rfl, rfl⟩
  · rintro ⟨rfl, rfl⟩
    exact gives_of_eq rfl

@[simp] theorem gives_pure {p : Parsed α src} {v : α} {rest : List Token} :
    Gives (pure p) v rest ↔ p.val = v ∧ p.rest = rest := gives_ok

@[simp] theorem not_gives_error {f : Fault} {v : α} {rest : List Token} :
    ¬ Gives (.error f : Except Fault (Parsed α src)) v rest := by
  rintro ⟨h, he⟩
  cases he

@[simp] theorem not_gives_throw {f : Fault} {v : α} {rest : List Token} :
    ¬ Gives (throw f : Except Fault (Parsed α src)) v rest := not_gives_error

/-- Nothing is given in front of no tokens. -/
theorem not_gives_nil {x : Except Fault (Parsed α [])} {v : α} {rest : List Token} :
    ¬ Gives x v rest := by
  rintro ⟨h, -⟩
  exact Nat.not_lt_zero _ h

@[simp] theorem ok_bind (c : γ) (f : γ → Except Fault β) : (Except.ok c >>= f) = f c := rfl

theorem gives_bind {before : List Token} {x : Except Fault (Parsed α before)}
    {f : Parsed α before → Except Fault (Parsed β src)} {w : β} {rest : List Token} :
    Gives (x >>= f) w rest ↔ ∃ p, Gives x p.val p.rest ∧ Gives (f p) w rest := by
  constructor
  · rintro ⟨h, hok⟩
    obtain ⟨p, hp, hf⟩ := bind_eq_ok.1 hok
    exact ⟨p, gives_of_eq hp, h, hf⟩
  · rintro ⟨p, ⟨-, rfl⟩, hf⟩
    exact hf

/-- Two productions in a row, from what the first gives. -/
theorem gives_bind_of {x : Except Fault (Parsed α src)}
    {f : Parsed α src → Except Fault (Parsed β src)} {v : α} {mid rest : List Token} {w : β}
    (hx : Gives x v mid) (hf : ∀ h, Gives (f ⟨v, mid, h⟩) w rest) : Gives (x >>= f) w rest := by
  obtain ⟨h, rfl⟩ := hx
  exact hf h

@[simp] theorem gives_andThen {p : Parsed α src} {q : Parser β} {w : β} {rest : List Token} :
    Gives (p.andThen q) w rest ↔ Gives (q p.rest) w rest := by
  unfold Parsed.andThen
  constructor
  · intro h
    obtain ⟨r, hr, h⟩ := gives_bind.1 h
    obtain ⟨rfl, rfl⟩ := gives_pure.1 h
    exact hr
  · rintro ⟨h, hq⟩
    exact gives_bind.2 ⟨_, gives_of_eq hq, gives_pure.2 ⟨rfl, rfl⟩⟩

@[simp] theorem val_map (f : α → β) (p : Parsed α src) : (p.map f).val = f p.val := rfl

@[simp] theorem rest_map (f : α → β) (p : Parsed α src) : (p.map f).rest = p.rest := rfl

@[simp] theorem val_set (p : Parsed α src) (b : β) : (p.set b).val = b := rfl

@[simp] theorem rest_set (p : Parsed α src) (b : β) : (p.set b).rest = p.rest := rfl

@[simp] theorem val_advance (p : Parsed α src) : p.advance.val = p.val := rfl

@[simp] theorem rest_advance (p : Parsed α src) : p.advance.rest = p.rest.tail := rfl

@[simp] theorem val_first (t : Token) (rest : List Token) : (Parsed.first t rest).val = t := rfl

@[simp] theorem rest_first (t : Token) (rest : List Token) :
    (Parsed.first t rest).rest = rest := rfl

@[simp] theorem peek_cons (t : Token) (ts : List Token) : peek (t :: ts) = t.kind := rfl

/-- A current token of a kind other than the end is there. -/
theorem exists_of_peek {ts : List Token} {k : Token.Kind} (h : peek ts = k) (hk : k ≠ .eof) :
    ∃ t rest, ts = t :: rest ∧ t.kind = k := by
  cases ts with
  | nil => exact (hk h.symm).elim
  | cons t rest => exact ⟨t, rest, rfl, h⟩

@[simp] theorem gives_expect {k : Token.Kind} {ts rest : List Token} {t : Token} :
    Gives (expect k ts) t rest ↔ ts = t :: rest ∧ t.kind = k := by
  cases ts with
  | nil => simp [expect]
  | cons s ts =>
    by_cases hk : s.kind = k
    · simp only [expect, hk, if_true, gives_ok, val_first, rest_first, List.cons.injEq]
      constructor
      · rintro ⟨rfl, rfl⟩
        exact ⟨⟨rfl, rfl⟩, hk⟩
      · rintro ⟨h, -⟩
        exact h
    · simp only [expect, hk, if_false, not_gives_error, List.cons.injEq, false_iff]
      rintro ⟨⟨rfl, -⟩, ht⟩
      exact hk ht

/-- A token of the kind that has to come next. -/
theorem gives_andThen_expect {p : Parsed α src} {k : Token.Kind} {rest : List Token} {t : Token} :
    Gives (p.andThen (expect k)) t rest ↔ p.rest = t :: rest ∧ t.kind = k :=
  gives_andThen.trans gives_expect

/-! ### Loops -/

/-- One round of a loop, from a value in front of `ts` to a value in front of `rest`. -/
def Step (round : Round α) (a : α) (ts : List Token) (b : α) (rest : List Token) : Prop :=
  ∃ x, round a ts = some x ∧ Gives x b rest

/-- The rounds of a loop, up to the one that says that it is over. -/
inductive Rounds (round : Round α) : α → List Token → α → List Token → Prop where
  | stop {a : α} {ts : List Token} (h : round a ts = none) : Rounds round a ts a ts
  | next {a b c : α} {ts mid rest : List Token} (h : Step round a ts b mid)
      (tail : Rounds round b mid c rest) : Rounds round a ts c rest

theorem gives_chain {round : Round α} {a b : α} {ts rest : List Token}
    {h : ts.length < src.length} :
    Gives (chain round src a ts h) b rest ↔ Rounds round a ts b rest := by
  -- the cases of the loop: no further round, a round that fails, a round and the loop after it
  fun_induction chain round src a ts h with
  | case1 a ts h hr =>
    rw [gives_ok]
    constructor
    · rintro ⟨rfl, rfl⟩
      exact .stop hr
    · intro hs
      cases hs with
      | stop _ => exact ⟨rfl, rfl⟩
      | next hs _ =>
        obtain ⟨x, hx, -⟩ := hs
        rw [hr] at hx
        cases hx
  | case2 a ts h e hr =>
    refine ⟨fun h => (not_gives_error h).elim, fun hs => ?_⟩
    cases hs with
    | stop ho => rw [hr] at ho; cases ho
    | next hs _ =>
      obtain ⟨x, hx, hg⟩ := hs
      rw [hr] at hx
      cases hx
      exact (not_gives_error hg).elim
  | case3 a ts h r hr ih =>
    rw [ih]
    constructor
    · exact .next ⟨_, hr, gives_of_eq rfl⟩
    · intro hs
      cases hs with
      | stop ho => rw [hr] at ho; cases ho
      | next hs tail =>
        obtain ⟨x, hx, hg⟩ := hs
        rw [hr] at hx
        cases hx
        obtain ⟨rfl, rfl⟩ := gives_ok.1 hg
        exact tail

@[simp] theorem gives_parsed_chain {round : Round α} {p : Parsed α src} {b : α}
    {rest : List Token} :
    Gives (p.chain round) b rest ↔ Rounds round p.val p.rest b rest := gives_chain

/-- What every round preserves holds when the loop is over. -/
theorem Rounds.preserve {round : Round α} {P : α → List Token → Prop}
    (hstep : ∀ a ts b mid, Step round a ts b mid → P a ts → P b mid) {a b : α}
    {ts rest : List Token} (h : Rounds round a ts b rest) (ha : P a ts) : P b rest := by
  induction h with
  | stop _ => exact ha
  | next hs _ ih => exact ih (hstep _ _ _ _ hs ha)

/-! ### Types -/

theorem absorb_of_none {step : α → Token → Option α} {a : α} {ts : List Token}
    (h : ∀ t rest, ts = t :: rest → step a t = none) : absorb step a ts = (a, ts) := by
  cases ts with
  | nil => rfl
  | cons t rest => simp only [absorb, h t rest rfl]

/-- A type: qualifiers, a first word, further words, and stars. -/
theorem gives_declType {ts rest : List Token} {type : DeclType} :
    Gives (declType ts) type rest ↔
      ∃ t mid b words, (absorb qualifier () ts).2 = t :: mid ∧
        DeclType.Base.ofKind? t.kind = some b ∧ absorb specifier b mid = words ∧
        absorb star (.base words.1) words.2 = (type, rest) := by
  simp only [declType]
  constructor
  · intro h
    split at h
    next => exact (not_gives_error h).elim
    next t mid hq =>
      split at h
      next => exact (not_gives_error h).elim
      next b hb =>
        obtain ⟨rfl, rfl⟩ := gives_ok.1 h
        exact ⟨t, mid, b, _, hq, hb, rfl, rfl⟩
  · rintro ⟨t, mid, b, words, hq, hb, rfl, hs⟩
    split
    next hq' =>
      rw [hq] at hq'
      cases hq'
    next t' mid' hq' =>
      rw [hq] at hq'
      cases hq'
      split
      next hb' =>
        rw [hb] at hb'
        cases hb'
      next b' hb' =>
        rw [hb] at hb'
        cases hb'
        exact gives_ok.2 ⟨congrArg Prod.fst hs, congrArg Prod.snd hs⟩

end MemLint.Grammar
