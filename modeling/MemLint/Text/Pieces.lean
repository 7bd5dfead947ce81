/-! The pieces of a text between separators. -/

namespace MemLint.Text

/-- A text with `n` separators has `n + 1` pieces, some of them perhaps empty. -/
def pieces (sep : Char) : List Char → List (List Char)
  | [] => [[]]
  | c :: cs =>
    if c = sep then [] :: pieces sep cs
    else match pieces sep cs with
      | [] => [[c]]
      | p :: ps => (c :: p) :: ps

theorem pieces_ne_nil (sep : Char) (cs : List Char) : pieces sep cs ≠ [] := by
  cases cs with
  | nil => simp [pieces]
  | cons c cs =>
    unfold pieces
    split
    · simp
    · split <;> simp

/-- Texts joined by a separator have the pieces of both. -/
theorem pieces_append_cons (sep : Char) (x y : List Char) :
    pieces sep (x ++ sep :: y) = pieces sep x ++ pieces sep y := by
  induction x with
  | nil => simp [pieces]
  | cons c x ih =>
    by_cases hc : c = sep
    · simp [pieces, hc, ih]
    · obtain ⟨p, ps, hp⟩ := List.exists_cons_of_ne_nil (pieces_ne_nil sep x)
      simp [pieces, hc, ih, hp]

end MemLint.Text
