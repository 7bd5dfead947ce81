import MemLint.Proofs.Token.Boundary

/-! Two texts with a line break between them. Behind the line break the scanner stands as at the
beginning of a text, so it reads the tokens of the one and then those of the other, unless the first
text ends inside a comment or with a literal that could go on. -/

namespace MemLint.Token

/-! ### Open comments -/

/-- A comment begins here that has no closing mark. -/
def opensComment : List Char → Bool
  | '/' :: '*' :: cs => decide (¬ ['*', '/'] <:+: cs)
  | _ => false

/-- The text ends inside a comment without a closing mark. `fresh` says that only blanks stand
before the text on its line. -/
def endsInComment (fresh : Bool) : List Char → Bool
  | [] => false
  | c :: cs =>
    match skipped? fresh c cs with
    | some n =>
      opensComment (c :: cs) || endsInComment (freshAfter fresh (c :: cs.take n)) (cs.drop n)
    | none =>
      let n := (piece c cs).more
      endsInComment (freshAfter fresh (c :: cs.take n)) (cs.drop n)
termination_by text => text.length
decreasing_by all_goals simp only [List.length_cons, List.length_drop]; omega

theorem endsInComment_skip {fresh : Bool} {c : Char} {cs rest : List Char}
    (h : skipped? fresh c (cs ++ rest) = some cs.length) :
    endsInComment fresh (c :: (cs ++ rest)) =
      (opensComment (c :: (cs ++ rest)) || endsInComment (freshAfter fresh (c :: cs)) rest) := by
  rw [endsInComment]
  simp [h]

theorem endsInComment_piece {fresh : Bool} {c : Char} {cs rest lex : List Char} {k : Kind}
    (hs : skipped? fresh c (cs ++ rest) = none) (hp : piece c (cs ++ rest) = ⟨k, lex, cs.length⟩) :
    endsInComment fresh (c :: (cs ++ rest)) = endsInComment (freshAfter fresh (c :: cs)) rest := by
  rw [endsInComment]
  simp [hs, hp]

/-! ### Gaps and tokens before a line break -/

theorem LineEnds.append {rest : List Char} (h : LineEnds rest) (more : List Char) :
    LineEnds (rest ++ '\n' :: more) := by
  cases h with
  | text => exact .line more
  | line rest => exact .line _

/-- What is skipped is skipped in the longer text too, but for an open comment. -/
theorem Skippable.append {before text rest : List Char} (h : Skippable before text rest)
    (hopen : opensComment (text ++ rest) = false) (more : List Char) :
    Skippable before text (rest ++ '\n' :: more) := by
  cases h with
  | blank hb => exact .blank hb
  | lineComment hn hr => exact .lineComment hn (hr.append more)
  | comment hin => exact .comment hin
  | @openComment cs hin => simp [opensComment, hin] at hopen
  | directive hb hn hr => exact .directive hb hn (hr.append more)

theorem literalBody_longer {quote : Char} {cs rest lex : List Char} (hr : rest ≠ [])
    (h : literalBody quote [] 0 (cs ++ rest) = (lex, cs.length)) (more : List Char) :
    literalBody quote [] 0 (cs ++ (rest ++ more)) = (lex, cs.length) := by
  have hlt : (literalBody quote [] 0 (cs ++ rest)).2 < 0 + (cs ++ rest).length := by
    have hpos := List.length_pos_iff.2 hr
    simp only [h, List.length_append]
    omega
  rw [← List.append_assoc, literalBody_append hlt, h]

/-- A token stays as it is before a line break, unless it is a literal that reaches up to it. -/
theorem piece_append {c : Char} {cs rest lex : List Char} {k : Kind}
    (h : piece c (cs ++ rest) = ⟨k, lex, cs.length⟩)
    (hend : rest = [] → k ≠ .string ∧ k ≠ .char) (more : List Char) :
    piece c (cs ++ (rest ++ '\n' :: more)) = ⟨k, lex, cs.length⟩ := by
  by_cases h₁ : c = '"'
  · subst h₁
    obtain ⟨rfl, rfl, hn⟩ := Piece.mk.inj h
    have hbody := literalBody_longer (fun hr => (hend hr).1 rfl) (Prod.ext rfl hn) ('\n' :: more)
    simp only [piece, hbody]
  by_cases h₂ : c = '\''
  · subst h₂
    obtain ⟨rfl, rfl, hn⟩ := Piece.mk.inj h
    have hbody := literalBody_longer (fun hr => (hend hr).2 rfl) (Prod.ext rfl hn) ('\n' :: more)
    simp only [piece, hbody]
  obtain ⟨-, -, hagain⟩ := settled_piece h₁ h₂ (cs ++ rest)
  simp only [h, List.take_left, List.drop_left] at hagain
  exact hagain _ (breaks_append_newline rest more)

/-! ### Layouts -/

/-- A gap may stand behind any text that leaves the line as it was. -/
theorem Skippable.behind {before before' text rest : List Char} (h : Skippable before text rest)
    (hf : freshAfter true before' = freshAfter true before) : Skippable before' text rest := by
  cases h with
  | blank hb => exact .blank hb
  | lineComment hn hr => exact .lineComment hn hr
  | comment hin => exact .comment hin
  | openComment hin => exact .openComment hin
  | directive hb hn hr =>
    have hfresh : freshAfter true before' = true := by rw [hf, (freshAfter_iff before).2 hb]
    exact .directive ((freshAfter_iff before').1 hfresh) hn hr

theorem LaidOut.behind {before before' text : List Char} {ls : List Lexeme}
    (h : LaidOut before text ls) (hf : freshAfter true before' = freshAfter true before) :
    LaidOut before' text ls := by
  induction h generalizing before' with
  | done before => exact .done before'
  | @gap before text rest ls hgap hr ih =>
    have hrest : freshAfter true (before' ++ text) = freshAfter true (before ++ text) := by
      rw [freshAfter_append, freshAfter_append, hf]
    exact .gap (hgap.behind hf) (ih hrest)
  | @lexeme c cs before rest lex k ls hs hp hr ih =>
    have hrest : freshAfter true (before' ++ c :: cs) = freshAfter true (before ++ c :: cs) := by
      rw [freshAfter_append, freshAfter_append, hf]
    exact .lexeme c cs (hf ▸ hs) hp (ih hrest)

theorem LaidOut.eq_nil {before text : List Char} {ls : List Lexeme} (h : LaidOut before text ls)
    (ht : text = []) : ls = [] := by
  cases h with
  | done => rfl
  | gap hgap _ =>
    obtain ⟨c, cs, rfl, -⟩ := skipped_of_skippable hgap
    cases ht
  | lexeme => cases ht

/-- Behind a line break a text is laid out as on its own. -/
theorem LaidOut.append_line {before text : List Char} {ls : List Lexeme}
    (h : LaidOut before text ls) (hopen : endsInComment (freshAfter true before) text = false)
    (hlast : ∀ l, ls.getLast? = some l → l.kind ≠ .string ∧ l.kind ≠ .char) {more : List Char}
    {ms : List Lexeme} (hmore : LaidOut [] more ms) :
    LaidOut before (text ++ '\n' :: more) (ls ++ ms) := by
  induction h with
  | done before =>
    -- behind the line break the line is fresh, as it is at the beginning of a text
    have hfresh : freshAfter true (before ++ ['\n']) = freshAfter true [] := by
      rw [freshAfter_append]
      rfl
    have hline : Skippable before ['\n'] more := .blank rfl
    have hlaid := LaidOut.gap hline (hmore.behind hfresh)
    exact hlaid
  | @gap before text rest ls hgap hr ih =>
    obtain ⟨c, cs, rfl, hskip⟩ := skipped_of_skippable hgap
    rw [List.cons_append, endsInComment_skip hskip, Bool.or_eq_false_iff,
      ← freshAfter_append] at hopen
    rw [List.append_assoc]
    exact .gap (hgap.append hopen.1 more) (ih hopen.2 hlast)
  | @lexeme c cs before rest lex k ls hs hp hr ih =>
    rw [endsInComment_piece hs hp, ← freshAfter_append] at hopen
    -- a literal that reaches the end of the text would be the last lexeme
    have hend : rest = [] → k ≠ .string ∧ k ≠ .char := by
      intro hrest
      cases hr.eq_nil hrest
      exact hlast _ rfl
    have hrest : ∀ l, ls.getLast? = some l → l.kind ≠ .string ∧ l.kind ≠ .char := by
      intro l hl
      refine hlast l ?_
      rw [List.getLast?_cons, hl]
      rfl
    have hskip : skipped? (freshAfter true before) c (cs ++ (rest ++ '\n' :: more)) = none := by
      have hb : Breaks ((cs ++ rest).drop cs.length) (rest ++ '\n' :: more) := by
        rw [List.drop_left]
        exact breaks_append_newline rest more
      have hnone := hb.not_skipped hs (skipped_eq_none_iff.1 hs).2.1
      rw [List.take_left] at hnone
      exact hnone
    rw [List.cons_append, List.append_assoc]
    exact .lexeme c cs hskip (piece_append hp hend more) (ih hopen hrest)

/-! ### Texts -/

/-- The lexemes of two texts with a line break between them are those of the one and then those of
the other. -/
theorem scan_append_line {text : List Char} (hnul : Char.ofNat 0 ∉ text)
    (hopen : endsInComment true text = false)
    (hlast : ∀ t, (scan text).tokens.getLast? = some t → t.kind ≠ .string ∧ t.kind ≠ .char)
    (more : List Char) :
    (scan (text ++ '\n' :: more)).tokens.map lexeme =
      ((scan text).tokens ++ (scan more).tokens).map lexeme := by
  have hfirst := laidOut_scan text
  rw [seen_eq_self hnul] at hfirst
  have hends : ∀ l, ((scan text).tokens.map lexeme).getLast? = some l →
      l.kind ≠ .string ∧ l.kind ≠ .char := by
    intro l hl
    rw [List.getLast?_map, Option.map_eq_some_iff] at hl
    obtain ⟨t, ht, rfl⟩ := hl
    exact hlast t ht
  have hlaid := hfirst.append_line hopen hends (laidOut_scan more)
  have hseen : seen (text ++ '\n' :: more) = text ++ '\n' :: seen more := by
    rw [seen_append hnul]
    rfl
  rw [List.map_append]
  exact LaidOut.scan (hseen ▸ hlaid)

end MemLint.Token
