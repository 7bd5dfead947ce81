/-! When a computation that may fail succeeds. -/

namespace MemLint

variable {ε ε' α β : Type}

theorem bind_eq_ok {x : Except ε α} {f : α → Except ε β} {b : β} :
    x >>= f = .ok b ↔ ∃ v, x = .ok v ∧ f v = .ok b := by
  cases x with
  | error e =>
    constructor
    · intro h
      cases h
    · rintro ⟨_, h, -⟩
      cases h
  | ok v =>
    constructor
    · exact fun h => ⟨v, rfl, h⟩
    · rintro ⟨_, h, hb⟩
      cases h
      exact hb

theorem mapError_eq_ok {x : Except ε α} {f : ε → ε'} {v : α} :
    x.mapError f = .ok v ↔ x = .ok v := by
  constructor
  · intro h
    cases x with
    | error e => cases h
    | ok u =>
      cases h
      rfl
  · rintro rfl
    rfl

theorem toOption_eq_some {x : Except ε α} {v : α} : x.toOption = some v ↔ x = .ok v := by
  constructor
  · intro h
    cases x with
    | error e => cases h
    | ok u =>
      cases h
      rfl
  · rintro rfl
    rfl

end MemLint
