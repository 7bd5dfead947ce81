import MemLint.Proofs.Report.Layout

/-! The encoder that is used where no other is given does what is known of encoders: each character
of a text is escaped in one of the ways in which it may be spelled, and a number is its digits. -/

namespace MemLint

/-! ### Digits -/

namespace Numeral

variable {base n v : Nat} {c : Char} {ds : List Char}

theorem Spells.snoc (h : Spells base ds n) (hc : IsDigit base c v) :
    Spells base (ds ++ [c]) (n * base + v) := by
  obtain ⟨vs, hvs, rfl⟩ := h
  refine ⟨vs ++ [v], List.rel_append hvs (.cons hc .nil), ?_⟩
  rw [List.reverse_append, List.reverse_singleton, List.singleton_append, Nat.ofDigits_cons]
  ring

theorem spells_toDigits (hb : 1 < base) (n : Nat) : Spells base (Nat.toDigits base n) n := by
  induction n using Nat.strong_induction_on with
  | _ n ih =>
    by_cases h : n < base
    · rw [Nat.toDigits_of_lt_base h]
      exact ⟨[n], .cons ⟨h, .inl rfl⟩ .nil, by simp⟩
    · have hlt : n / base < n := Nat.div_lt_self (by omega) hb
      have hdigit : IsDigit base (n % base).digitChar (n % base) :=
        ⟨Nat.mod_lt n (by omega), .inl rfl⟩
      have hspells := (ih (n / base) hlt).snoc hdigit
      rw [Nat.mul_comm, Nat.div_add_mod] at hspells
      rw [Nat.toDigits_of_base_le hb (by omega)]
      exact hspells

theorem Spells.zeros (h : Spells base ds n) (hb : 0 < base) (k : Nat) :
    Spells base (List.replicate k '0' ++ ds) n := by
  obtain ⟨vs, hvs, rfl⟩ := h
  refine ⟨List.replicate k 0 ++ vs, List.rel_append ?_ hvs, ?_⟩
  · induction k with
    | zero => exact .nil
    | succ k ih => exact .cons ⟨hb, .inl rfl⟩ ih
  · rw [List.reverse_append, List.reverse_replicate, Nat.ofDigits_append_replicate_zero]

end Numeral

namespace Report.Json

/-! ### Strings -/

theorem spellsCode_hexadecimal {n : Nat} (h : n < 0x10000) :
    SpellsCode (Text.hexadecimal 4 n) n := by
  have hlen : (Nat.toDigits 16 n).length ≤ 4 :=
    (Nat.length_toDigits_le_iff (by decide) (by decide)).2 h
  refine ⟨?_, (Numeral.spells_toDigits (by decide) n).zeros (by decide) _⟩
  simp only [Text.hexadecimal, List.length_append, List.length_replicate]
  omega

theorem isUnsafe_code {c : Char} (h : isUnsafe c = true) : c.toNat < 0x10000 := by
  simp only [isUnsafe, Bool.or_eq_true, decide_eq_true_eq, List.mem_cons, List.not_mem_nil,
    or_false] at h
  rcases h with ((h | rfl | rfl | rfl) | h) | h
  · omega
  · decide
  · decide
  · decide
  · omega
  · omega

/-- A character is written as a letter behind a backslash, by its code, or as it is. -/
theorem escapeChar_cases (c : Char) :
    (∃ e, (e, c) ∈ escapes ∧ escapeChar c = ['\\', e]) ∨
    (isUnsafe c = true ∧ escapeChar c = '\\' :: 'u' :: Text.hexadecimal 4 c.toNat) ∨
    (isUnsafe c = false ∧ c ≠ '"' ∧ c ≠ '\\') ∧ escapeChar c = [c] := by
  unfold escapeChar
  split
  next h => exact .inl ⟨c, by rcases h with rfl | rfl <;> simp [escapes], rfl⟩
  next hquote =>
    split
    next h => exact .inl ⟨'n', by simp [h, escapes], rfl⟩
    split
    next h => exact .inl ⟨'r', by simp [h, escapes], rfl⟩
    split
    next h => exact .inl ⟨'t', by simp [h, escapes], rfl⟩
    split
    next h => exact .inr (.inl ⟨h, rfl⟩)
    next h => exact .inr (.inr ⟨⟨Bool.eq_false_iff.2 h, not_or.1 hquote⟩, rfl⟩)

theorem spellsChar_escapeChar (c : Char) : SpellsChar c (escapeChar c) := by
  rcases escapeChar_cases c with ⟨e, he, htext⟩ | ⟨h, htext⟩ | ⟨⟨h, hquote, hslash⟩, htext⟩
  · rw [htext]
    exact .escape he
  · rw [htext]
    exact .code (spellsCode_hexadecimal (isUnsafe_code h))
  · rw [htext]
    simp only [isUnsafe, Bool.or_eq_false_iff, decide_eq_false_iff_not, Nat.not_lt] at h
    exact .plain h.1.1.1 hquote hslash

theorem code_safe {n : Nat} (h : n < 0x10000) :
    ∀ c ∈ '\\' :: 'u' :: Text.hexadecimal 4 n, isUnsafe c = false := by
  have hdigits : ∀ d ∈ Text.hexadecimal 4 n, inWord d = true :=
    forall_of_spells (by decide) (spellsCode_hexadecimal h).2
  refine List.forall_mem_cons.2 ⟨by decide, List.forall_mem_cons.2 ⟨by decide, fun d hd => ?_⟩⟩
  exact safe_of_inWord (hdigits d hd)

theorem escapeChar_safe (c : Char) : ∀ d ∈ escapeChar c, isUnsafe d = false := by
  rcases escapeChar_cases c with ⟨e, he, htext⟩ | ⟨h, htext⟩ | ⟨⟨h, -⟩, htext⟩
  · have hescapes : escapes.all (fun p => !isUnsafe p.1) = true := by decide
    have hletter : isUnsafe e = false := by simpa using List.all_eq_true.1 hescapes _ he
    rw [htext]
    exact List.forall_mem_cons.2 ⟨by decide, List.forall_mem_singleton.2 hletter⟩
  · rw [htext]
    exact code_safe (isUnsafe_code h)
  · rw [htext]
    exact List.forall_mem_singleton.2 h

/-- A byte that is no part of a character is spelled as its replacement. -/
theorem escape_spec (u : Option Char) :
    SpellsChar (u.getD Text.replacement) (escape u) ∧ ∀ c ∈ escape u, isUnsafe c = false := by
  cases u with
  | some c => exact ⟨spellsChar_escapeChar c, escapeChar_safe c⟩
  | none => exact ⟨.code (spellsCode_hexadecimal (by decide)), code_safe (by decide)⟩

theorem quoted_quote (s : Text.Raw) : Quoted s.text (quote s) := by
  refine ⟨s.units.flatMap escape, rfl, ?_, fun c hc => ?_⟩
  · rw [Text.Raw.text, String.toList_ofList]
    refine ⟨s.units.map escape, ?_, rfl⟩
    refine List.forall₂_map_left_iff.2 (List.forall₂_map_right_iff.2 ?_)
    exact List.forall₂_same.2 fun u _ => (escape_spec u).1
  · obtain ⟨u, -, hc⟩ := List.mem_flatMap.1 hc
    exact (escape_spec u).2 c hc

/-! ### Numbers -/

theorem scale_zero (m : Int) : scale m 0 = .ofInt m := by
  rw [scale]
  exact (congrArg₂ mkRat (Int.mul_one m) rfl).trans (Rat.mkRat_one m)

theorem spellsUnsigned_toDigits (n : Nat) : SpellsUnsigned (Nat.toDigits 10 n) n 0 := by
  have hdigits : SpellsDigits (Nat.toDigits 10 n) n :=
    ⟨Nat.toDigits_ne_nil, Numeral.spells_toDigits (by decide) n⟩
  have hzero : (Nat.toDigits 10 n).head? = some '0' → Nat.toDigits 10 n = ['0'] := by
    intro h
    rcases Nat.eq_zero_or_pos n with rfl | hn
    · rfl
    · obtain ⟨c, cs, hd, hc⟩ := Numeral.toDigits_head hn
      rw [hd] at h
      exact (hc (Option.some.inj h)).elim
  exact ⟨_, [], [], n, 0, 0, 0, by simp, ⟨hdigits, hzero⟩, .none, .none, by simp, rfl⟩

theorem spellsNumber_toString (n : Int) : SpellsNumber (toString n).toList (.ofInt n) := by
  cases n with
  | ofNat n =>
    have h := SpellsNumber.unsigned (spellsUnsigned_toDigits n)
    rw [scale_zero] at h
    have htext : (toString (Int.ofNat n)).toList = Nat.toDigits 10 n := Nat.toList_repr
    rw [htext]
    exact h
  | negSucc n =>
    have h := SpellsNumber.negative (spellsUnsigned_toDigits (n + 1))
    rw [scale_zero] at h
    have htext : (toString (Int.negSucc n)).toList = '-' :: Nat.toDigits 10 (n + 1) := by
      rw [show toString (Int.negSucc n) = "-" ++ Nat.repr (n + 1) from rfl, String.toList_append,
        Nat.toList_repr]
      rfl
    rw [htext]
    exact h

/-! ### Values -/

theorem items_eq_map (level : Nat) (vs : List Json) : items level vs = vs.map (chars level) := by
  induction vs with
  | nil => rfl
  | cons v vs ih => rw [items, ih, List.map_cons]

theorem fields_eq_map (level : Nat) (fs : List (String × Json)) :
    fields level fs =
      fs.map fun f => chars level (.str f.1) ++ ':' :: ' ' :: chars level f.2 := by
  induction fs with
  | nil => rfl
  | cons f fs ih => rw [fields, ih, List.map_cons, chars]

end Report.Json

theorem Report.Encoder.own_documented : Encoder.own.Documented where
  str _ s := Json.quoted_quote s
  int _ n := Json.spellsNumber_toString n
  bool _ b := by
    cases b with
    | true => exact .yes
    | false => exact .no
  list level vs := congrArg (Json.block level '[' ']') (Json.items_eq_map (level + 1) vs)
  object level fs := congrArg (Json.block level '\x7b' '\x7d') (Json.fields_eq_map (level + 1) fs)
  document _ := rfl

end MemLint
