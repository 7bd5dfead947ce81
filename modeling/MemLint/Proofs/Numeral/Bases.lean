import Mathlib.Data.List.Forall2
import Mathlib.Data.Nat.Digits.Lemmas
import MemLint.Proofs.Numeral.Decimal

/-! Integer literals in every base and with every suffix. A literal is read as the number that its
digits spell, as long as a signed word can hold it, and refused otherwise. -/

namespace MemLint.Numeral

/-! ### Spellings -/

/-- The character is a digit of the base, in either case, with the value `v`. -/
def IsDigit (base : Nat) (c : Char) (v : Nat) : Prop :=
  v < base ∧ (c = v.digitChar ∨ c = v.digitChar.toUpper)

/-- The characters spell the number in the base, its highest digit first. -/
def Spells (base : Nat) (cs : List Char) (n : Nat) : Prop :=
  ∃ vs, List.Forall₂ (IsDigit base) cs vs ∧ n = Nat.ofDigits base vs.reverse

/-- The base that a letter behind a zero names. -/
inductive NamesBase : Char → Nat → Prop where
  | hex {c : Char} (hc : c = 'x' ∨ c = 'X') : NamesBase c 16
  | octal {c : Char} (hc : c = 'o' ∨ c = 'O') : NamesBase c 8
  | binary {c : Char} (hc : c = 'b' ∨ c = 'B') : NamesBase c 2

/-- A literal without its suffix, and its value. -/
inductive SpellsPlain : List Char → Nat → Prop where
  | decimal {d : Char} {ds : List Char} {n : Nat} (hd : d ≠ '0') (h : Spells 10 (d :: ds) n) :
    SpellsPlain (d :: ds) n
  /-- A zero in front means base eight, also if nothing follows. -/
  | octal {ds : List Char} {n : Nat} (h : Spells 8 ds n) : SpellsPlain ('0' :: ds) n
  | named {c d : Char} {ds : List Char} {base n : Nat} (hc : NamesBase c base)
    (h : Spells base (d :: ds) n) : SpellsPlain ('0' :: c :: d :: ds) n

/-- The text is an integer literal of that value, perhaps with letters `u` and `l` behind it. -/
def SpellsInteger (text : List Char) (n : Nat) : Prop :=
  ∃ cs suffix, text = cs ++ suffix ∧ SpellsPlain cs n ∧ ∀ c ∈ suffix, c ∈ ['u', 'U', 'l', 'L']

/-! ### Digits -/

theorem lowerDigit_spec : ∀ v < 16, digitValue? v.digitChar = some v ∧
    v.digitChar ∉ ['u', 'U', 'l', 'L'] ∧ (v < 8 → v.digitChar.toLower ∉ ['x', 'o', 'b']) := by
  decide

theorem upperDigit_spec : ∀ v < 16, digitValue? v.digitChar.toUpper = some v ∧
    v.digitChar.toUpper ∉ ['u', 'U', 'l', 'L'] ∧
      (v < 8 → v.digitChar.toUpper.toLower ∉ ['x', 'o', 'b']) := by
  decide

/-- A digit has its value, is no letter of a suffix and, in base eight, names no base. -/
theorem IsDigit.spec {base v : Nat} {c : Char} (h : IsDigit base c v) (hb : base ≤ 16) :
    digitValue? c = some v ∧ c ∉ ['u', 'U', 'l', 'L'] ∧
      (v < 8 → c.toLower ∉ ['x', 'o', 'b']) := by
  obtain ⟨hv, rfl | rfl⟩ := h
  · exact lowerDigit_spec v (Nat.lt_of_lt_of_le hv hb)
  · exact upperDigit_spec v (Nat.lt_of_lt_of_le hv hb)

theorem IsDigit.digit? {base v : Nat} {c : Char} (h : IsDigit base c v) (hb : base ≤ 16) :
    digit? base c = some v := by
  rw [Numeral.digit?, (h.spec hb).1, Option.filter_some, if_pos (decide_eq_true h.1)]

/-- The number read so far stands as one digit above those that follow. -/
theorem foldlM_spelled {base : Nat} (hb : base ≤ 16) {cs : List Char} {vs : List Nat}
    (h : List.Forall₂ (IsDigit base) cs vs) (n : Nat) :
    cs.foldlM (fun n c => (digit? base c).map (n * base + ·)) n =
      some (Nat.ofDigits base (vs.reverse ++ [n])) := by
  induction h generalizing n with
  | nil => simp
  | @cons c v cs vs hc _ ih =>
    have hstep : Nat.ofDigits base ((v :: vs).reverse ++ [n]) =
        Nat.ofDigits base (vs.reverse ++ [n * base + v]) := by
      simp only [List.reverse_cons, List.append_assoc, Nat.ofDigits_append, Nat.ofDigits_cons,
        List.singleton_append, Nat.ofDigits_nil, Nat.mul_zero, Nat.add_zero]
      ring
    rw [List.foldlM_cons, hc.digit? hb, hstep]
    exact ih (n * base + v)

theorem Spells.digits? {base n : Nat} {cs : List Char} (h : Spells base cs n) (hb : base ≤ 16) :
    digits? base cs = some n := by
  obtain ⟨vs, hvs, rfl⟩ := h
  rw [Numeral.digits?, foldlM_spelled hb hvs, Nat.ofDigits_append]
  simp

theorem Spells.not_suffix {base n : Nat} {cs : List Char} (h : Spells base cs n) (hb : base ≤ 16) :
    ∀ c ∈ cs, c ∉ ['u', 'U', 'l', 'L'] := by
  obtain ⟨vs, hvs, -⟩ := h
  induction hvs with
  | nil => simp
  | cons hc _ ih => exact List.forall_mem_cons.2 ⟨(hc.spec hb).2.1, ih⟩

/-! ### Bases -/

theorem NamesBase.le {c : Char} {base : Nat} (h : NamesBase c base) : base ≤ 16 := by
  cases h <;> decide

theorem NamesBase.splitBase {c d : Char} {ds : List Char} {base : Nat} (h : NamesBase c base) :
    splitBase ('0' :: c :: d :: ds) = (base, d :: ds) := by
  cases h with
  | hex hc | octal hc | binary hc => rcases hc with rfl | rfl <;> rfl

theorem splitBase_decimal {d : Char} (hd : d ≠ '0') (ds : List Char) :
    splitBase (d :: ds) = (10, d :: ds) := by
  unfold splitBase
  split
  next heq => cases heq; exact (hd rfl).elim
  next heq => cases heq; exact (hd rfl).elim
  next => rfl

/-- No digit of base eight names a base. -/
theorem splitBase_octal {ds : List Char} {n : Nat} (h : Spells 8 ds n) :
    splitBase ('0' :: ds) = (8, ds) := by
  obtain ⟨vs, hvs, -⟩ := h
  match hvs with
  | .nil | .cons _ .nil => rfl
  | .cons hc (.cons _ _) =>
    have hno := (hc.spec (by decide)).2.2 hc.1
    simp only [List.mem_cons, List.not_mem_nil, or_false, not_or] at hno
    obtain ⟨hx, ho, hb⟩ := hno
    -- the last case of the match is the one that is left
    simp only [splitBase]

theorem SpellsPlain.natural? {cs : List Char} {n : Nat} (h : SpellsPlain cs n) :
    natural? cs = some n := by
  cases h with
  | decimal hd h => rw [Numeral.natural?, splitBase_decimal hd]; exact h.digits? (by decide)
  | octal h => rw [Numeral.natural?, splitBase_octal h]; exact h.digits? (by decide)
  | named hc h => rw [Numeral.natural?, hc.splitBase]; exact h.digits? hc.le

theorem SpellsPlain.not_suffix {cs : List Char} {n : Nat} (h : SpellsPlain cs n) :
    ∀ c ∈ cs, c ∉ ['u', 'U', 'l', 'L'] := by
  cases h with
  | decimal _ h => exact h.not_suffix (by decide)
  | octal h => exact List.forall_mem_cons.2 ⟨by decide, h.not_suffix (by decide)⟩
  | named hc h =>
    refine List.forall_mem_cons.2 ⟨by decide, List.forall_mem_cons.2 ⟨?_, h.not_suffix hc.le⟩⟩
    cases hc with
    | hex hc | octal hc | binary hc => rcases hc with rfl | rfl <;> decide

/-! ### Values -/

/-- A literal is read as its value if a signed word can hold it, and refused otherwise. -/
theorem integer?_spelled {text : List Char} {n : Nat} (h : SpellsInteger text n) :
    integer? (String.ofList text) = if n ≤ maxInt64 then some (n : Int) else none := by
  obtain ⟨cs, suffix, rfl, hcs, hsuffix⟩ := h
  have hend : dropEnd (fun c => c ∈ ['u', 'U', 'l', 'L']) (cs ++ suffix) = cs := by
    have hcut : ∀ c ∈ suffix.reverse, decide (c ∈ ['u', 'U', 'l', 'L']) = true :=
      fun c hc => decide_eq_true (hsuffix c (List.mem_reverse.1 hc))
    rw [dropEnd, List.reverse_append, List.dropWhile_append_of_pos hcut]
    exact dropEnd_eq_self fun c hc => decide_eq_false (hcs.not_suffix c hc)
  rw [integer?, String.toList_ofList, hend, hcs.natural?]
  rfl

/-- What is read is not negative, and a signed word can hold it. -/
theorem integer?_range {text : String} {v : Int} (h : integer? text = some v) :
    v.natAbs ≤ maxInt64 := by
  obtain ⟨n, -, h⟩ := Option.bind_eq_some_iff.1 h
  split at h
  next hn => cases h; exact hn
  next => cases h

end MemLint.Numeral
