import Mathlib.Data.List.TakeWhile
import MemLint.Numeral.Integer

/-! A number in decimal is read back as itself. -/

namespace MemLint.Numeral

theorem digit?_ten {c : Char} (h : c.isDigit = true) :
    digit? 10 c = some (c.toNat - '0'.toNat) := by
  have hr : c.val.toNat ≤ 57 := by
    simp only [Char.isDigit, ge_iff_le, Bool.and_eq_true, decide_eq_true_eq,
      UInt32.le_iff_toNat_le] at h
    exact h.2
  have hlt : c.toNat - '0'.toNat < 10 := by
    have hv : c.toNat = c.val.toNat := rfl
    have h0 : '0'.toNat = 48 := rfl
    omega
  simp only [digit?, digitValue?, h, if_true, Option.filter, hlt, decide_true]

theorem foldlM_digits {cs : List Char} (h : ∀ c ∈ cs, c.isDigit = true) (n : Nat) :
    cs.foldlM (fun n c => (digit? 10 c).map (n * 10 + ·)) n = some (Nat.ofDigitChars 10 cs n) := by
  induction cs generalizing n with
  | nil => simp
  | cons c cs ih =>
    have hc := digit?_ten (h c (by simp))
    have ih := ih (fun d hd => h d (by simp [hd])) (n * 10 + (c.toNat - '0'.toNat))
    rw [List.foldlM_cons, hc, Nat.ofDigitChars_cons, Nat.mul_comm 10 n]
    exact ih

theorem dropEnd_eq_self {p : Char → Bool} {cs : List Char} (h : ∀ c ∈ cs, p c = false) :
    dropEnd p cs = cs := by
  have hr : cs.reverse.dropWhile p = cs.reverse := by
    rw [List.dropWhile_eq_self_iff]
    intro hl
    rw [h _ (List.mem_reverse.1 (List.getElem_mem hl))]
    decide
  rw [dropEnd, hr, List.reverse_reverse]

/-- Only zero is written with a leading zero. -/
theorem toDigits_head {n : Nat} (hn : 0 < n) : ∃ c cs, Nat.toDigits 10 n = c :: cs ∧ c ≠ '0' := by
  induction n using Nat.strong_induction_on with
  | _ n ih =>
    by_cases h : n < 10
    · have hd : ∀ m < 10, 0 < m → Nat.digitChar m ≠ '0' := by decide
      exact ⟨n.digitChar, [], Nat.toDigits_of_lt_base h, hd n h hn⟩
    · obtain ⟨c, cs, hd, hc⟩ := ih (n / 10) (by omega) (by omega)
      rw [Nat.toDigits_of_base_le (by decide) (by omega), hd]
      exact ⟨c, _, rfl, hc⟩

theorem integer?_repr {n : Nat} (h : n ≤ maxInt64) : integer? n.repr = some (n : Int) := by
  have hall : ∀ c ∈ Nat.toDigits 10 n, c.isDigit = true := fun c hc =>
    Nat.isDigit_of_mem_toDigits (by decide) (by decide) hc
  have hend : dropEnd (fun c => c ∈ ['u', 'U', 'l', 'L']) (Nat.toDigits 10 n) =
      Nat.toDigits 10 n := by
    refine dropEnd_eq_self fun c hc => ?_
    rw [decide_eq_false_iff_not]
    intro hmem
    have hd := hall c hc
    simp only [List.mem_cons, List.not_mem_nil, or_false] at hmem
    rcases hmem with rfl | rfl | rfl | rfl <;> exact absurd hd (by decide)
  have hnat : natural? (Nat.toDigits 10 n) = some n := by
    rcases Nat.eq_zero_or_pos n with rfl | hn
    · decide
    · obtain ⟨c, cs, hd, hc⟩ := toDigits_head hn
      have hs : splitBase (c :: cs) = (10, c :: cs) := by
        unfold splitBase
        split
        next heq => cases heq; exact (hc rfl).elim
        next heq => cases heq; exact (hc rfl).elim
        next => rfl
      have hval := foldlM_digits hall 0
      rw [Nat.ofDigitChars_ten_toDigits, hd] at hval
      rw [natural?, hd, hs]
      exact hval
  rw [integer?, Nat.toList_repr, hend, hnat]
  simp [h]

end MemLint.Numeral
