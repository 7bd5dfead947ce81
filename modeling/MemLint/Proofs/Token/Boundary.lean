import MemLint.Proofs.Token.Layout

/-! Where a token ends. The scanner looks one character behind a token that is no literal, so the
token stays the same before every text that begins with that character or with a blank. What the
scanner reads is therefore a layout of the text in its own right, and the tokens can be laid out
anew. -/

namespace MemLint.Token

/-! ### Breaks -/

/-- A token ends before `tail` if it ends before `rest`: no token goes on with a blank or a line
break, and any other character would have ended it before. -/
def Breaks (rest tail : List Char) : Prop :=
  ∀ c, tail.head? = some c → c = ' ' ∨ c = '\n' ∨ rest.head? = some c

theorem breaks_of_apart {tail : List Char} (h : Apart tail) (rest : List Char) :
    Breaks rest tail := by
  cases h with
  | done =>
    intro c hc
    cases hc
  | blank cs =>
    rintro c ⟨⟩
    exact .inl rfl

theorem breaks_append_newline (rest more : List Char) : Breaks rest (rest ++ '\n' :: more) := by
  intro c hc
  cases rest with
  | nil =>
    cases hc
    exact .inr (.inl rfl)
  | cons d ds => exact .inr (.inr hc)

/-- Behind a break no character stands that has not stood there before, blanks apart. -/
theorem Breaks.head_ne {cs tail : List Char} {n : Nat} (h : Breaks (cs.drop n) tail) {x : Char}
    (hs : x ≠ ' ') (hn : x ≠ '\n') (hx : cs.head? ≠ some x) :
    (cs.take n ++ tail).head? ≠ some x := by
  intro hhead
  cases cs with
  | nil =>
    rw [List.take_nil, List.nil_append] at hhead
    rcases h x hhead with rfl | rfl | hx'
    · exact hs rfl
    · exact hn rfl
    · exact absurd hx' (by simp)
  | cons d ds =>
    cases n with
    | zero =>
      rcases h x hhead with rfl | rfl | hx'
      · exact hs rfl
      · exact hn rfl
      · exact hx hx'
    | succ n => exact hx hhead

/-! ### Pieces that end at breaks -/

/-- What is read depends on its own characters and on the break behind them. -/
def Settled (read : List Char → Piece) : Prop :=
  ∀ cs, (read cs).more ≤ cs.length ∧ '\n' ∉ cs.take (read cs).more ∧
    ∀ tail, Breaks (cs.drop (read cs).more) tail →
      read (cs.take (read cs).more ++ tail) = read cs

/-- Signs: the next character belongs to some of them, if it is the right one. -/
theorem settled_of_second {read : List Char → Piece} (single : Piece)
    (double : Char → Option Piece)
    (hread : ∀ cs, read cs = (cs.head?.bind double).getD single) (hsingle : single.more = 0)
    (hdouble : ∀ c t, double c = some t → t.more = 1) (hs : double ' ' = none)
    (hn : double '\n' = none) : Settled read := by
  intro cs
  cases hd : cs.head?.bind double with
  | none =>
    have hcs : read cs = single := by rw [hread, hd, Option.getD_none]
    rw [hcs, hsingle]
    refine ⟨Nat.zero_le _, by simp, fun tail ht => ?_⟩
    -- what breaks the sign is a blank, which is no second character, or what broke it before
    have htail : tail.head?.bind double = none := by
      rw [Option.bind_eq_none_iff]
      intro c hc
      rcases ht c hc with rfl | rfl | hc'
      · exact hs
      · exact hn
      · exact Option.bind_eq_none_iff.1 hd c hc'
    rw [List.take_zero, List.nil_append, hread, htail, Option.getD_none]
  | some t =>
    obtain ⟨c, hc, ht⟩ := Option.bind_eq_some_iff.1 hd
    have hcs : read cs = t := by rw [hread, hd, Option.getD_some]
    obtain ⟨ds, rfl⟩ := List.head?_eq_some_iff.1 hc
    rw [hcs, hdouble c t ht]
    refine ⟨by simp, ?_, fun tail _ => ?_⟩
    · rw [List.take_succ_cons, List.take_zero, List.mem_singleton]
      rintro rfl
      cases hn.symm.trans ht
    · rw [List.take_succ_cons, List.take_zero, List.singleton_append, hread, List.head?_cons,
        Option.bind_some, ht, Option.getD_some]

theorem settled_single (k : Kind) (lex : List Char) : Settled fun _ => ⟨k, lex, 0⟩ :=
  settled_of_second ⟨k, lex, 0⟩ (fun _ => none) (fun cs => by simp) rfl (by simp) rfl rfl

theorem settled_sign (first : Char) {second : Char} (hs : second ≠ ' ') (hn : second ≠ '\n')
    (single double : Kind) : Settled (sign first second single double) := by
  refine settled_of_second ⟨single, [first], 0⟩
    (fun c => if c = second then some ⟨double, [first, second], 1⟩ else none)
    ?_ rfl ?_ (if_neg hs.symm) (if_neg hn.symm)
  · intro cs
    cases cs with
    | nil => rfl
    | cons c cs => by_cases hc : c = second <;> simp [sign, hc]
  · intro c t ht
    split at ht <;> cases ht
    rfl

theorem settled_plus : Settled (piece '+') := by
  refine settled_of_second ⟨.plus, ['+'], 0⟩
    (fun c => if c = '+' then some ⟨.inc, ['+', '+'], 1⟩
      else if c = '=' then some ⟨.addAssign, ['+', '='], 1⟩ else none) ?_ rfl ?_ rfl rfl
  · intro cs
    cases cs with
    | nil => rfl
    | cons c cs =>
      by_cases hp : c = '+'
      · subst hp
        rfl
      by_cases he : c = '=' <;> simp [piece, sign, hp, he]
  · intro c t ht
    split at ht
    · cases ht
      rfl
    · split at ht <;> cases ht
      rfl

theorem settled_minus : Settled (piece '-') := by
  refine settled_of_second ⟨.minus, ['-'], 0⟩
    (fun c => if c = '-' then some ⟨.dec, ['-', '-'], 1⟩
      else if c = '>' then some ⟨.arrow, ['-', '>'], 1⟩
      else if c = '=' then some ⟨.subAssign, ['-', '='], 1⟩ else none) ?_ rfl ?_ rfl rfl
  · intro cs
    cases cs with
    | nil => rfl
    | cons c cs =>
      by_cases hm : c = '-'
      · subst hm
        rfl
      by_cases hg : c = '>'
      · subst hg
        rfl
      by_cases he : c = '=' <;> simp [piece, sign, hm, hg, he]
  · intro c t ht
    split at ht
    · cases ht
      rfl
    split at ht
    · cases ht
      rfl
    split at ht <;> cases ht
    rfl

/-- The character behind those of one class is not of that class. -/
theorem class_ends {p : Char → Bool} {cs : List Char} {c : Char}
    (h : (cs.drop (cs.takeWhile p).length).head? = some c) : p c = false := by
  induction cs with
  | nil => cases h
  | cons d ds ih =>
    by_cases hd : p d = true
    · rw [List.takeWhile_cons_of_pos hd] at h
      exact ih h
    · rw [List.takeWhile_cons_of_neg hd] at h
      cases h
      exact Bool.not_eq_true _ ▸ hd

/-- Words and numbers go on as long as the characters are of one class. -/
theorem settled_takeWhile {p : Char → Bool} (hs : p ' ' = false) (hn : p '\n' = false)
    (read : List Char → Piece) (hread : ∀ w, (read w).more = w.length) :
    Settled fun cs => read (cs.takeWhile p) := by
  intro cs
  simp only [hread, take_length_takeWhile]
  refine ⟨(List.takeWhile_prefix p).length_le, fun hmem => ?_, fun tail ht => ?_⟩
  · exact absurd (List.mem_takeWhile_imp hmem) (by simp [hn])
  · have hend : ∀ c, tail.head? = some c → p c = false := by
      intro c hc
      rcases ht c hc with rfl | rfl | hc'
      · exact hs
      · exact hn
      · exact class_ends hc'
    have htail : tail.takeWhile p = [] := by
      cases tail with
      | nil => rfl
      | cons c cs => exact List.takeWhile_cons_of_neg (by simp [hend c rfl])
    rw [List.takeWhile_append_of_pos fun x hx => List.mem_takeWhile_imp hx, htail, List.append_nil]

theorem settled_piece {c : Char} (h₁ : c ≠ '"') (h₂ : c ≠ '\'') : Settled (piece c) := by
  intro cs
  unfold piece
  split
  case h_12 | h_13 | h_14 | h_15 | h_16 | h_17 | h_18 | h_19 | h_20 =>
    exact settled_sign _ (by decide) (by decide) _ _ cs
  case h_21 => exact settled_plus cs
  case h_22 => exact settled_minus cs
  case h_23 => exact (h₁ rfl).elim
  case h_24 => exact (h₂ rfl).elim
  case h_25 =>
    by_cases hw : (Text.isLetter c || c == '_') = true
    · simp only [hw, if_true]
      exact settled_takeWhile (p := isWordChar) (by decide) (by decide)
        (fun w => ⟨.ofWord (String.ofList (c :: w)), c :: w, w.length⟩) (fun _ => rfl) cs
    by_cases hd : Text.isDigit c = true
    · simp only [hw, hd, if_true]
      exact settled_takeWhile (p := isNumberChar) (by decide) (by decide)
        (fun w => ⟨if '.' ∈ w then .float else .int, c :: w, w.length⟩) (fun _ => rfl) cs
    · simp only [hw, hd]
      exact settled_single .illegal [c] cs
  all_goals exact settled_single _ _ cs

theorem skipped_eq_none_iff {fresh : Bool} {c : Char} {cs : List Char} :
    skipped? fresh c cs = none ↔ Text.isBlank c = false ∧ (c = '#' → fresh = false) ∧
      (c = '/' → cs.head? ≠ some '/' ∧ cs.head? ≠ some '*') := by
  by_cases hb : Text.isBlank c = true
  · simp [skipped?, hb]
  by_cases hc : c = '#'
  · subst hc
    have hb : Text.isBlank '#' = false := rfl
    cases fresh <;> simp [skipped?, hb]
  by_cases hs : c = '/'
  · subst hs
    cases cs with
    | nil => simp [skipped?, hb]
    | cons d ds =>
      by_cases h₁ : d = '/'
      · simp [skipped?, hb, h₁]
      by_cases h₂ : d = '*'
      · simp [skipped?, hb, h₂]
      simp [skipped?, hb, h₁, h₂]
  · simp [skipped?, hb, hc, hs]

/-- No comment begins with a token that ends before the tail. -/
theorem Breaks.not_skipped {fresh fresh' : Bool} {c : Char} {cs tail : List Char} {n : Nat}
    (ht : Breaks (cs.drop n) tail) (h : skipped? fresh c cs = none)
    (hf : c = '#' → fresh' = false) : skipped? fresh' c (cs.take n ++ tail) = none := by
  obtain ⟨hb, -, hs⟩ := skipped_eq_none_iff.1 h
  refine skipped_eq_none_iff.2 ⟨hb, hf, fun hc => ?_⟩
  obtain ⟨hslash, hstar⟩ := hs hc
  exact ⟨ht.head_ne (by decide) (by decide) hslash, ht.head_ne (by decide) (by decide) hstar⟩

/-! ### Literals -/

theorem literalBody_le (quote : Char) (done : List Char) (n : Nat) (cs : List Char) :
    (literalBody quote done n cs).2 ≤ n + cs.length := by
  fun_induction literalBody quote done n cs with
  | case1 | case3 | case4 | case5 => simp
  | case2 done n c cs meant ih =>
    simp only [List.length_cons]
    omega
  | case6 done n c cs _ _ _ _ ih =>
    simp only [List.length_cons]
    omega

theorem literalBody_cons {c : Char} (hb : c ≠ '\\') (quote : Char) (done : List Char) (n : Nat)
    (cs : List Char) :
    literalBody quote done n (c :: cs) =
      if c = '\n' then (done.reverse, n)
      else if c = quote then (done.reverse, n + 1)
      else literalBody quote (c :: done) (n + 1) cs := by
  rw [literalBody]
  · exact fun _ _ hc => absurd hc hb
  · exact fun hc => absurd hc hb

/-- A literal that ends before the text does ends there in any longer text. -/
theorem literalBody_append {quote : Char} {done : List Char} {n : Nat} {cs : List Char}
    (h : (literalBody quote done n cs).2 < n + cs.length) (more : List Char) :
    literalBody quote done n (cs ++ more) = literalBody quote done n cs := by
  fun_induction literalBody quote done n cs with
  | case1 | case3 => simp at h
  | case2 done n c cs meant ih =>
    simp only [List.length_cons] at h
    exact ih (by omega)
  | case4 done n cs => rw [List.cons_append, literalBody_cons (by decide), if_pos rfl]
  | case5 done n cs hesc hlast hn =>
    have hb : quote ≠ '\\' := ne_backslash hesc hlast
    rw [List.cons_append, literalBody_cons hb, if_neg hn, if_pos rfl]
  | case6 done n c cs hesc hlast hn hq ih =>
    simp only [List.length_cons] at h
    have hb : c ≠ '\\' := ne_backslash hesc hlast
    rw [List.cons_append, literalBody_cons hb, if_neg hn, if_neg hq]
    exact ih (by omega)

theorem piece_more_le (c : Char) (cs : List Char) : (piece c cs).more ≤ cs.length := by
  by_cases h₁ : c = '"'
  · subst h₁
    simpa [piece] using literalBody_le '"' [] 0 cs
  by_cases h₂ : c = '\''
  · subst h₂
    simpa [piece] using literalBody_le '\'' [] 0 cs
  exact (settled_piece h₁ h₂ cs).1

/-! ### What is read is a layout -/

/-- What the scanner adds to the tokens it has is laid out in the text that it has not read yet. -/
theorem laidOut_scanFrom (done : List Token) (p : Pos) {fresh : Bool} {before : List Char}
    (hf : fresh = freshAfter true before) (text : List Char) :
    ∃ ts, (scanFrom done p fresh text).tokens = done.reverse ++ ts ∧
      LaidOut before text (ts.map lexeme) := by
  fun_induction scanFrom done p fresh text generalizing before with
  | case1 done p fresh => exact ⟨[], by simp, .done before⟩
  | case2 done p fresh c cs n hskip text =>
    rename_i ih
    subst hf
    obtain ⟨ts, hts, hlaid⟩ := ih (freshAfter_append _ before text).symm
    have hlaid := LaidOut.gap (skippable_of_skipped hskip) hlaid
    rw [List.cons_append, List.take_append_drop] at hlaid
    exact ⟨ts, hts, hlaid⟩
  | case3 done p fresh c cs hskip t text token =>
    rename_i ih
    subst hf
    obtain ⟨ts, hts, hlaid⟩ := ih (freshAfter_append _ before text).symm
    have hcs : cs.take t.more ++ cs.drop t.more = cs := List.take_append_drop t.more cs
    have hpiece : piece c (cs.take t.more ++ cs.drop t.more) =
        ⟨t.kind, t.lex, (cs.take t.more).length⟩ := by
      rw [hcs, List.length_take_of_le (piece_more_le c cs)]
    have hlaid := LaidOut.lexeme c (cs.take t.more) (hcs.symm ▸ hskip) hpiece hlaid
    rw [hcs] at hlaid
    exact ⟨token :: ts, by simp [hts], hlaid⟩

/-- The lexemes that are read from a text are laid out in it. -/
theorem laidOut_scan (text : List Char) :
    LaidOut [] (seen text) ((scan text).tokens.map lexeme) := by
  have hf : true = freshAfter true [] := rfl
  obtain ⟨ts, hts, hlaid⟩ := laidOut_scanFrom [] .start hf (seen text)
  rw [scan_seen, hts]
  exact hlaid

end MemLint.Token
