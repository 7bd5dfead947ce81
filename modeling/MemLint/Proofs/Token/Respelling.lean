import MemLint.Proofs.Token.Boundary

/-! Scanned tokens written out again. The tokens of any text are read back from their spelling,
with one exception: a `#` that came first would begin a line there and take the whole spelling
with it. -/

namespace MemLint.Token

/-- The scanner reads the lexeme from its text where it stands apart, unless it is a `#` that begins
its line. -/
def Lexeme.Readable (l : Lexeme) : Prop :=
  ∃ c cs, l.text = c :: cs ∧ Char.ofNat 0 ∉ l.text ∧ '\n' ∉ l.text ∧
    ∀ fresh tail, (c = '#' → fresh = false) → Apart tail →
      skipped? fresh c (cs ++ tail) = none ∧
        piece c (cs ++ tail) = ⟨l.kind, l.lex.toList, cs.length⟩

/-! ### What is read can be read again -/

theorem readable_literal {k : Kind} {quote : Char} (h : k.quote? = some quote) (s : String) :
    (Lexeme.mk k s).Readable := by
  obtain ⟨c, cs, htext, hnul, hread⟩ := legible_literal h s
  refine ⟨c, cs, htext, hnul, ?_, fun fresh tail _ => hread fresh tail⟩
  have hq : quote ≠ '\n' := by
    rcases quote_cases h with rfl | rfl <;> decide
  simp [text_literal h, quoted, hq.symm, not_mem_escape hq (.inl rfl)]

theorem text_of_plain {k : Kind} (h₁ : k ≠ .string) (h₂ : k ≠ .char) (s : String) :
    (Lexeme.mk k s).text = s.toList := by
  cases k with
  | string => exact (h₁ rfl).elim
  | char => exact (h₂ rfl).elim
  | _ => rfl

/-- The lexeme of a piece, wherever it was found. -/
theorem readable_piece {fresh : Bool} {c : Char} {cs : List Char}
    (hs : skipped? fresh c cs = none) (hnul : Char.ofNat 0 ∉ c :: cs) :
    (Lexeme.mk (piece c cs).kind (String.ofList (piece c cs).lex)).Readable := by
  -- a literal is escaped anew; any other piece is written as it stood
  by_cases h₁ : c = '"'
  · subst h₁
    exact readable_literal (rfl : Kind.string.quote? = some '"') _
  by_cases h₂ : c = '\''
  · subst h₂
    exact readable_literal (rfl : Kind.char.quote? = some '\'') _
  obtain ⟨hstring, hchar, -, hlex⟩ := piece_plain h₁ h₂ cs
  obtain ⟨hle, hline, hagain⟩ := settled_piece h₁ h₂ cs
  have htext : (Lexeme.mk (piece c cs).kind (String.ofList (piece c cs).lex)).text =
      c :: cs.take (piece c cs).more := by
    rw [text_of_plain hstring hchar, String.toList_ofList, hlex]
  refine ⟨c, cs.take (piece c cs).more, htext, ?_, ?_, fun fresh' tail hf ht => ?_⟩
  · rw [htext]
    exact fun h => hnul (List.cons_subset_cons c (List.take_subset _ cs) h)
  · rw [htext, List.mem_cons]
    rintro (h | h)
    · exact ne_newline_of_not_skipped hs h.symm
    · exact hline h
  · have hb := breaks_of_apart ht (cs.drop (piece c cs).more)
    refine ⟨hb.not_skipped hs hf, ?_⟩
    simp [hagain tail hb, hle]

theorem LaidOut.readable {before text : List Char} {ls : List Lexeme} (h : LaidOut before text ls)
    (hnul : Char.ofNat 0 ∉ text) : ∀ l ∈ ls, l.Readable := by
  induction h with
  | done before => exact fun l hl => (List.not_mem_nil hl).elim
  | @gap before text rest ls hgap hr ih =>
    exact ih fun hmem => hnul (List.mem_append_right text hmem)
  | @lexeme c cs before rest lex k ls hs hp hr ih =>
    have hrest : Char.ofNat 0 ∉ rest := fun hmem => hnul (by simp [hmem])
    have hread := readable_piece hs hnul
    rw [hp] at hread
    exact List.forall_mem_cons.2 ⟨hread, ih hrest⟩

/-! ### Spellings -/

/-- Once something stands on a line, the line stays used. -/
theorem freshAfter_used {cs : List Char} (h : '\n' ∉ cs) : freshAfter false cs = false := by
  induction cs with
  | nil => rfl
  | cons c cs ih =>
    have hc : c ≠ '\n' := fun hc => h (hc ▸ List.mem_cons_self)
    have hstep : freshStep false c = false := by simp [freshStep, hc]
    have hcs : freshAfter false cs = false := ih fun hmem => h (List.mem_cons_of_mem c hmem)
    rw [freshAfter, List.foldl_cons, hstep]
    exact hcs

theorem freshAfter_token {c : Char} {cs : List Char} (hb : Text.isBlank c = false)
    (hn : '\n' ∉ c :: cs) (before : List Char) : freshAfter true (before ++ c :: cs) = false := by
  have hc : c ≠ '\n' := fun hc => hn (hc ▸ List.mem_cons_self)
  have hstep : freshStep (freshAfter true before) c = false := by simp [freshStep, hc, hb]
  rw [freshAfter_append, freshAfter, List.foldl_cons, hstep]
  exact freshAfter_used fun hmem => hn (List.mem_cons_of_mem c hmem)

/-- A lexeme that begins with a `#` has nothing else in it. -/
theorem eq_hash {l : Lexeme} {cs : List Char}
    (h : piece '#' cs = ⟨l.kind, l.lex.toList, cs.length⟩) : l = ⟨.illegal, "#"⟩ := by
  have hpiece : piece '#' cs = ⟨.illegal, ['#'], 0⟩ := rfl
  obtain ⟨hk, hlex, -⟩ := Piece.mk.inj (hpiece.symm.trans h)
  calc l = ⟨l.kind, String.ofList l.lex.toList⟩ := by rw [String.ofList_toList]
    _ = ⟨.illegal, "#"⟩ := by rw [← hk, ← hlex]

theorem laidOut_spell {ls : List Lexeme} (h : ∀ l ∈ ls, l.Readable) {before : List Char}
    (hf : ls.head? = some ⟨.illegal, "#"⟩ → freshAfter true before = false) :
    LaidOut before (spell ls) ls := by
  induction ls generalizing before with
  | nil => exact .done before
  | cons l ls ih =>
    obtain ⟨hl, hls⟩ := List.forall_mem_cons.1 h
    obtain ⟨c, cs, htext, -, hline, hread⟩ := hl
    obtain ⟨hb, -⟩ := skipped_eq_none_iff.1 (hread false [] (fun _ => rfl) .done).1
    -- only the first lexeme can begin a line: behind a lexeme and a blank the line is used
    have hhash : c = '#' → freshAfter true before = false := by
      rintro rfl
      obtain ⟨-, hpiece⟩ := hread false [] (fun _ => rfl) .done
      rw [List.append_nil] at hpiece
      exact hf (congrArg some (eq_hash hpiece))
    have hspelled {tail : List Char} {ls : List Lexeme} (ht : Apart tail)
        (hr : LaidOut (before ++ c :: cs) tail ls) : LaidOut before (l.text ++ tail) (l :: ls) := by
      obtain ⟨hskip, hpiece⟩ := hread _ tail hhash ht
      have hlaid := LaidOut.lexeme c cs hskip hpiece hr
      rw [String.ofList_toList] at hlaid
      rw [htext]
      exact hlaid
    cases ls with
    | nil =>
      have hlaid := hspelled .done (.done _)
      rw [List.append_nil] at hlaid
      exact hlaid
    | cons l' ls =>
      have hfresh : freshAfter true (before ++ c :: cs ++ [' ']) = false := by
        rw [freshAfter_append, freshAfter_token hb (htext ▸ hline)]
        rfl
      have hrest : LaidOut (before ++ c :: cs ++ [' ']) (spell (l' :: ls)) (l' :: ls) :=
        ih hls fun _ => hfresh
      have hblank : Skippable (before ++ c :: cs) [' '] (spell (l' :: ls)) := .blank rfl
      exact hspelled (.blank _) (.gap hblank hrest)

/-! ### The round trip -/

/-- A `#` that comes first takes the whole line. -/
theorem laidOut_hash {ls : List Lexeme} (h : '\n' ∉ spell (⟨.illegal, "#"⟩ :: ls)) :
    LaidOut [] (spell (⟨.illegal, "#"⟩ :: ls)) [] := by
  obtain ⟨cs, hcs⟩ : ∃ cs, spell (⟨.illegal, "#"⟩ :: ls) = '#' :: cs := by
    cases ls with
    | nil => exact ⟨[], rfl⟩
    | cons l ls => exact ⟨' ' :: spell (l :: ls), rfl⟩
  rw [hcs] at h ⊢
  have hline : Skippable [] ('#' :: cs) [] :=
    .directive (by simp [lastLine]) (fun hmem => h (List.mem_cons_of_mem _ hmem)) .text
  have hlaid := LaidOut.gap hline (.done _)
  rw [List.append_nil] at hlaid
  exact hlaid

/-- The tokens of a text are read back from their spelling, unless the first of them is a `#`. -/
theorem respelled_tokens_read_back (text : List Char) :
    (scan (spell ((scan text).tokens.map lexeme))).tokens.map lexeme =
        (scan text).tokens.map lexeme ↔
      ∀ t, (scan text).tokens.head? = some t → ¬ (t.kind = .illegal ∧ t.lex = "#") := by
  have hread := (laidOut_scan text).readable (nul_not_mem_seen text)
  generalize (scan text).tokens = ts at hread ⊢
  have hnul : Char.ofNat 0 ∉ spell (ts.map lexeme) := not_mem_spell (by decide) fun l hl => by
    obtain ⟨c, cs, -, h, -⟩ := hread l hl
    exact h
  constructor
  · rintro hback t ht ⟨hk, hlex⟩
    obtain ⟨ts, rfl⟩ := List.head?_eq_some_iff.1 ht
    have hhash : lexeme t = ⟨.illegal, "#"⟩ := by rw [lexeme, hk, hlex]
    have hline : '\n' ∉ spell ((t :: ts).map lexeme) := not_mem_spell (by decide) fun l hl => by
      obtain ⟨c, cs, -, -, h, -⟩ := hread l hl
      exact h
    rw [List.map_cons, hhash] at hback hnul hline
    have hnone := (laidOut_hash hline).lexemes hnul
    exact absurd (hnone.symm.trans hback) (by simp)
  · intro hfirst
    refine (laidOut_spell hread fun hhead => ?_).lexemes hnul
    rw [List.head?_map, Option.map_eq_some_iff] at hhead
    obtain ⟨t, ht, hhash⟩ := hhead
    obtain ⟨hk, hlex⟩ := Lexeme.mk.inj hhash
    exact absurd ⟨hk, hlex⟩ (hfirst t ht)

/-- A `#` behind a token, the signs of a comment set apart by one, a number with two points and a
literal that ends with its line. -/
example :
    (scan (spell ((scan "x # / /**/ / 1.2.3\n\"a\\\"\n'\\n'".toList).tokens.map lexeme))).tokens.map
      lexeme = [⟨.ident, "x"⟩, ⟨.illegal, "#"⟩, ⟨.slash, "/"⟩, ⟨.slash, "/"⟩, ⟨.float, "1.2.3"⟩,
        ⟨.string, "a\""⟩, ⟨.char, "\n"⟩] := by
  with_unfolding_all rfl

end MemLint.Token
