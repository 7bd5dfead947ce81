import Mathlib.Data.List.Basic
import MemLint.Text.Raw

/-! Texts in UTF-8 are read back as they are: the bytes of a character are read as that character,
whatever stands behind them. -/

namespace MemLint.Text

/-! ### One character -/

theorem toNat_byte {n : Nat} (h : n < 0x100) : (UInt8.ofNat n).toNat = n := by
  rw [UInt8.toNat_ofNat']
  omega

theorem continuation?_mod (v : Nat) :
    continuation? (UInt8.ofNat (v % 0x40 + 0x80)) = some (v % 0x40) := by
  have hb := toNat_byte (show v % 0x40 + 0x80 < 0x100 by omega)
  have hrange : 0x80 ≤ UInt8.ofNat (v % 0x40 + 0x80) ∧ UInt8.ofNat (v % 0x40 + 0x80) ≤ 0xBF := by
    simp only [UInt8.le_iff_toNat_le, hb, UInt8.toNat_ofNat]
    omega
  rw [continuation?, if_pos hrange, hb, Nat.add_sub_cancel]

section Sizes

variable {v : Nat} (rest : List UInt8)

theorem character?_one (h : v < 0x80) :
    character? (UInt8.ofNat v) rest = some (Char.ofNat v, 0) := by
  have hb := toNat_byte (show v < 0x100 by omega)
  have hsize : UInt8.ofNat v < 0x80 := by
    simpa only [UInt8.lt_iff_toNat_lt, hb, UInt8.toNat_ofNat] using h
  unfold character?
  rw [if_pos hsize, hb]

theorem character?_two (hlow : 0x80 ≤ v) (hhigh : v < 0x800) :
    character? (UInt8.ofNat (v / 0x40 % 0x20 + 0xC0)) (UInt8.ofNat (v % 0x40 + 0x80) :: rest) =
      some (Char.ofNat v, 1) := by
  have hb := toNat_byte (show v / 0x40 % 0x20 + 0xC0 < 0x100 by omega)
  have hv : (v / 0x40 % 0x20 + 0xC0 - 0xC0) * 0x40 + v % 0x40 = v := by omega
  have hsize : ¬ UInt8.ofNat (v / 0x40 % 0x20 + 0xC0) < 0x80 ∧
      UInt8.ofNat (v / 0x40 % 0x20 + 0xC0) < 0xE0 ∧
      0xC2 ≤ UInt8.ofNat (v / 0x40 % 0x20 + 0xC0) := by
    simp only [UInt8.lt_iff_toNat_lt, UInt8.le_iff_toNat_le, hb, UInt8.toNat_ofNat]
    omega
  rw [character?, if_neg hsize.1, if_pos hsize.2.1]
  simp only [continuation?_mod, Option.bind_eq_bind, Option.bind_some, hb, hv, if_pos hsize.2.2]

theorem character?_three (hlow : 0x800 ≤ v) (hhigh : v < 0x10000)
    (hscalar : v < 0xD800 ∨ 0xE000 ≤ v) :
    character? (UInt8.ofNat (v / 0x1000 % 0x10 + 0xE0))
      (UInt8.ofNat (v / 0x40 % 0x40 + 0x80) :: UInt8.ofNat (v % 0x40 + 0x80) :: rest) =
      some (Char.ofNat v, 2) := by
  have hb := toNat_byte (show v / 0x1000 % 0x10 + 0xE0 < 0x100 by omega)
  have hv : ((v / 0x1000 % 0x10 + 0xE0 - 0xE0) * 0x40 + v / 0x40 % 0x40) * 0x40 + v % 0x40 = v := by
    omega
  have hsize : ¬ UInt8.ofNat (v / 0x1000 % 0x10 + 0xE0) < 0x80 ∧
      ¬ UInt8.ofNat (v / 0x1000 % 0x10 + 0xE0) < 0xE0 ∧
      UInt8.ofNat (v / 0x1000 % 0x10 + 0xE0) < 0xF0 := by
    simp only [UInt8.lt_iff_toNat_lt, hb, UInt8.toNat_ofNat]
    omega
  rw [character?, if_neg hsize.1, if_neg hsize.2.1, if_pos hsize.2.2]
  simp only [continuation?_mod, Option.bind_eq_bind, Option.bind_some, hb, hv,
    if_pos (And.intro hlow hscalar)]

theorem character?_four (hlow : 0x10000 ≤ v) (hhigh : v < 0x110000) :
    character? (UInt8.ofNat (v / 0x40000 % 8 + 0xF0))
      (UInt8.ofNat (v / 0x1000 % 0x40 + 0x80) :: UInt8.ofNat (v / 0x40 % 0x40 + 0x80) ::
        UInt8.ofNat (v % 0x40 + 0x80) :: rest) = some (Char.ofNat v, 3) := by
  have hb := toNat_byte (show v / 0x40000 % 8 + 0xF0 < 0x100 by omega)
  have hv : (((v / 0x40000 % 8 + 0xF0 - 0xF0) * 0x40 + v / 0x1000 % 0x40) * 0x40 +
      v / 0x40 % 0x40) * 0x40 + v % 0x40 = v := by omega
  have hsize : ¬ UInt8.ofNat (v / 0x40000 % 8 + 0xF0) < 0x80 ∧
      ¬ UInt8.ofNat (v / 0x40000 % 8 + 0xF0) < 0xE0 ∧
      ¬ UInt8.ofNat (v / 0x40000 % 8 + 0xF0) < 0xF0 := by
    simp only [UInt8.lt_iff_toNat_lt, hb, UInt8.toNat_ofNat]
    omega
  rw [character?, if_neg hsize.1, if_neg hsize.2.1, if_neg hsize.2.2]
  simp only [continuation?_mod, Option.bind_eq_bind, Option.bind_some, hb, hv,
    if_pos (And.intro hlow hhigh)]

/-- The bytes of a character, with any bytes behind them, start with that character. -/
theorem character?_utf8EncodeChar (c : Char) :
    ∃ b bs, String.utf8EncodeChar c = b :: bs ∧
      character? b (bs ++ rest) = some (c, bs.length) := by
  have hvalid : c.val.toNat < 0xD800 ∨ 0xDFFF < c.val.toNat ∧ c.val.toNat < 0x110000 := c.valid
  have hc : c = Char.ofNat c.val.toNat := c.ofNat_toNat.symm
  unfold String.utf8EncodeChar
  generalize c.val.toNat = v at hvalid hc
  subst hc
  -- one case for each number of bytes
  dsimp only
  split
  next => exact ⟨_, _, rfl, character?_one rest (by omega)⟩
  split
  next => exact ⟨_, _, rfl, character?_two rest (by omega) (by omega)⟩
  split
  next => exact ⟨_, _, rfl, character?_three rest (by omega) (by omega) (by omega)⟩
  next => exact ⟨_, _, rfl, character?_four rest (by omega) (by omega)⟩

end Sizes

/-! ### Texts -/

theorem unitsFrom_utf8 (cs : List Char) (done : List (Option Char)) :
    unitsFrom done (cs.flatMap String.utf8EncodeChar) = done.reverse ++ cs.map some := by
  induction cs generalizing done with
  | nil => simp [unitsFrom]
  | cons c cs ih =>
    obtain ⟨b, bs, hbytes, hc⟩ := character?_utf8EncodeChar (cs.flatMap String.utf8EncodeChar) c
    rw [List.flatMap_cons, hbytes, List.cons_append, unitsFrom, hc]
    simp only [List.drop_left, ih]
    simp

/-- A text in UTF-8 is read as it is. -/
@[simp] theorem Raw.text_ofString (s : String) : (Raw.ofString s).text = s := by
  rw [text, ofString, decode, Text.units, unitsFrom_utf8]
  simp [Function.comp_def]

end MemLint.Text
