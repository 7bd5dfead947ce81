import MemLint.Proofs.Grammar.Layout
import MemLint.Proofs.Token.Boundary

/-! The mark at the end of a text. A NUL ends the text wherever it stands: a scanner that looks for
the mark in each of its loops finds the tokens of the text in front of it, so that what follows the
mark cannot be told from nothing. -/

namespace MemLint.Token

/-! ### Looking for the mark -/

namespace Marked

/-- The number of characters before the next line break or mark. -/
def lineLength (cs : List Char) : Nat :=
  (cs.takeWhile fun c => c ≠ '\n' ∧ c ≠ Char.ofNat 0).length

/-- The length of a comment after its opening mark. It ends at the mark at the latest. -/
def commentLength (n : Nat) : List Char → Nat
  | '*' :: '/' :: _ => n + 2
  | c :: cs => if c = Char.ofNat 0 then n else commentLength (n + 1) cs
  | [] => n

/-- How many characters after `c` are skipped with it. -/
def skipped? (fresh : Bool) (c : Char) (cs : List Char) : Option Nat :=
  if Text.isBlank c then some 0
  else if c = '#' ∧ fresh then some (lineLength cs)
  else if c = '/' then
    match cs with
    | '/' :: _ => some (lineLength cs)
    | '*' :: ds => some (commentLength 1 ds)
    | _ => none
  else none

/-- The inside of a literal, which ends at the mark at the latest, also behind a backslash. -/
def literalBody (quote : Char) (done : List Char) (n : Nat) : List Char → List Char × Nat
  | [] => (done.reverse, n)
  | '\\' :: c :: cs =>
    if c = Char.ofNat 0 then (done.reverse, n + 1)
    else literalBody quote (escaped c :: done) (n + 2) cs
  | ['\\'] => (done.reverse, n + 1)
  | c :: cs =>
    if c = Char.ofNat 0 ∨ c = '\n' then (done.reverse, n)
    else if c = quote then (done.reverse, n + 1)
    else literalBody quote (c :: done) (n + 1) cs

/-- The token that starts with `c`. Words, numbers and signs need not look for the mark. -/
def piece (c : Char) (cs : List Char) : Piece :=
  if c = '"' then ⟨.string, (literalBody '"' [] 0 cs).1, (literalBody '"' [] 0 cs).2⟩
  else if c = '\'' then ⟨.char, (literalBody '\'' [] 0 cs).1, (literalBody '\'' [] 0 cs).2⟩
  else Token.piece c cs

def scanFrom (done : List Token) (p : Pos) (fresh : Bool) : List Char → Scanned
  | [] => ⟨done.reverse, p⟩
  | c :: cs =>
    if c = Char.ofNat 0 then ⟨done.reverse, p.step c⟩
    else
      match skipped? fresh c cs with
      | some n =>
        let text := c :: cs.take n
        scanFrom done (p.after text) (freshAfter fresh text) (cs.drop n)
      | none =>
        let t := piece c cs
        let text := c :: cs.take t.more
        let token := ⟨t.kind, String.ofList t.lex, p.step c⟩
        scanFrom (token :: done) (p.after text) (freshAfter fresh text) (cs.drop t.more)
termination_by text => text.length
decreasing_by all_goals simp only [List.length_cons, List.length_drop]; omega

/-- The tokens of a text, found without cutting it at the mark first. -/
def scan (text : List Char) : Scanned := scanFrom [] .start true text

end Marked

/-! ### The text in front of the mark -/

theorem seen_nul (cs : List Char) : seen (Char.ofNat 0 :: cs) = [] := by simp [seen]

theorem seen_cons {c : Char} (hc : c ≠ Char.ofNat 0) (cs : List Char) :
    seen (c :: cs) = c :: seen cs := by simp [seen, hc]

theorem exists_behind_seen (cs : List Char) : ∃ rest, seen cs ++ rest = cs :=
  List.takeWhile_prefix _

/-- What is seen begins as the text does. -/
theorem eq_cons_of_seen {c : Char} {cs ds : List Char} (h : seen cs = c :: ds) :
    ∃ rest, cs = c :: rest := by
  obtain ⟨rest, hrest⟩ := exists_behind_seen cs
  rw [h] at hrest
  exact ⟨ds ++ rest, hrest.symm⟩

theorem take_seen {cs : List Char} {n : Nat} (h : n ≤ (seen cs).length) :
    (seen cs).take n = cs.take n := by
  obtain ⟨rest, hrest⟩ := exists_behind_seen cs
  calc (seen cs).take n = (seen cs ++ rest).take n := (List.take_append_of_le_length h).symm
    _ = cs.take n := by rw [hrest]

theorem seen_drop {cs : List Char} {n : Nat} (h : n ≤ (seen cs).length) :
    seen (cs.drop n) = (seen cs).drop n := by
  induction n generalizing cs with
  | zero => rfl
  | succ n ih =>
    cases cs with
    | nil => rfl
    | cons c cs =>
      have hc : c ≠ Char.ofNat 0 := by
        rintro rfl
        rw [seen_nul] at h
        cases h
      rw [seen_cons hc, List.length_cons] at h
      rw [seen_cons hc]
      exact ih (by omega)

/-! ### Each loop ends at the mark -/

theorem lineLength_seen (cs : List Char) : lineLength (seen cs) = Marked.lineLength cs := by
  induction cs with
  | nil => rfl
  | cons c cs ih =>
    by_cases hc : c = Char.ofNat 0
    · subst hc
      rw [seen_nul]
      simp [Marked.lineLength, lineLength]
    · rw [seen_cons hc, lineLength_cons, ih]
      by_cases hn : c = '\n' <;> simp [Marked.lineLength, hn, hc]

theorem commentLength_seen (n : Nat) (cs : List Char) :
    commentLength n (seen cs) = Marked.commentLength n cs := by
  fun_induction Marked.commentLength n cs with
  | case1 n cs => rw [seen_cons (by decide), seen_cons (by decide), commentLength]
  | case2 n cs _ => rw [seen_nul, commentLength]
  | case3 n c cs hno hc ih =>
    rw [seen_cons hc, commentLength, ih]
    intro ds hstar hds
    obtain ⟨rest, rfl⟩ := eq_cons_of_seen hds
    exact hno rest hstar rfl
  | case4 n => rfl

theorem skipped?_seen (fresh : Bool) (c : Char) (cs : List Char) :
    skipped? fresh c (seen cs) = Marked.skipped? fresh c cs := by
  simp only [skipped?, Marked.skipped?, lineLength_seen]
  split
  · rfl
  split
  · rfl
  split
  · -- the second character of a comment is seen if it is there
    cases cs with
    | nil => rfl
    | cons d ds =>
      by_cases hd : d = Char.ofNat 0
      · subst hd
        rw [seen_nul]
        rfl
      rw [seen_cons hd]
      by_cases hline : d = '/'
      · subst hline
        rfl
      by_cases hopen : d = '*'
      · subst hopen
        exact congrArg some (commentLength_seen 1 ds)
      simp [hline, hopen]
  · rfl

theorem literalBody_backslash (quote : Char) (done : List Char) (n : Nat) (c : Char)
    (cs : List Char) :
    literalBody quote done n ('\\' :: c :: cs) =
      literalBody quote (escaped c :: done) (n + 2) cs := rfl

theorem literalBody_seen (quote : Char) (done : List Char) (n : Nat) (cs : List Char) :
    literalBody quote done n (seen cs) = Marked.literalBody quote done n cs := by
  fun_induction Marked.literalBody quote done n cs with
  | case1 done n => rfl
  | case2 done n cs =>
    rw [seen_cons (by decide), seen_nul]
    rfl
  | case3 done n c cs hc ih => rw [seen_cons (by decide), seen_cons hc, literalBody_backslash, ih]
  | case4 done n => rfl
  | case5 done n c cs _ _ hend =>
    rcases hend with rfl | rfl
    · rw [seen_nul, literalBody]
    · rw [seen_cons (by decide), literalBody_cons (by decide), if_pos rfl]
  | case6 done n cs hesc hlast hend =>
    obtain ⟨hc, hn⟩ := not_or.1 hend
    have hb : quote ≠ '\\' := ne_backslash hesc hlast
    rw [seen_cons hc, literalBody_cons hb, if_neg hn, if_pos rfl]
  | case7 done n c cs hesc hlast hend hq ih =>
    obtain ⟨hc, hn⟩ := not_or.1 hend
    have hb : c ≠ '\\' := ne_backslash hesc hlast
    rw [seen_cons hc, literalBody_cons hb, if_neg hn, if_neg hq, ih]

theorem takeWhile_seen {p : Char → Bool} (hp : p (Char.ofNat 0) = false) (cs : List Char) :
    (seen cs).takeWhile p = cs.takeWhile p := by
  induction cs with
  | nil => rfl
  | cons c cs ih =>
    by_cases hc : c = Char.ofNat 0
    · subst hc
      rw [seen_nul, List.takeWhile_cons, hp]
      rfl
    · rw [seen_cons hc, List.takeWhile_cons, List.takeWhile_cons, ih]

/-- A function of the first character, for which the mark is as good as none. -/
theorem first_seen {f : List Char → Piece} (hcons : ∀ c cs cs', f (c :: cs) = f (c :: cs'))
    (hnul : f [Char.ofNat 0] = f []) (cs : List Char) : f (seen cs) = f cs := by
  cases cs with
  | nil => rfl
  | cons c cs =>
    by_cases hc : c = Char.ofNat 0
    · subst hc
      rw [seen_nul, ← hnul]
      exact hcons _ _ _
    · rw [seen_cons hc]
      exact hcons _ _ _

theorem piece_plus_cons (c : Char) (cs cs' : List Char) :
    piece '+' (c :: cs) = piece '+' (c :: cs') := by
  by_cases hp : c = '+' <;> simp [piece, sign, hp]

theorem piece_minus_cons (c : Char) (cs cs' : List Char) :
    piece '-' (c :: cs) = piece '-' (c :: cs') := by
  by_cases hm : c = '-' <;> by_cases ha : c = '>' <;> simp [piece, sign, hm, ha]

theorem piece_seen (c : Char) (cs : List Char) : piece c (seen cs) = Marked.piece c cs := by
  unfold Marked.piece
  split
  next hc =>
    subst hc
    simp only [piece, literalBody_seen]
  next h₁ =>
    split
    next hc =>
      subst hc
      simp only [piece, literalBody_seen]
    next h₂ =>
      unfold piece
      split
      case h_12 | h_13 | h_14 | h_15 | h_16 | h_17 | h_18 | h_19 | h_20 =>
        exact first_seen (fun _ _ _ => rfl) rfl cs
      case h_21 => exact first_seen piece_plus_cons rfl cs
      case h_22 => exact first_seen piece_minus_cons rfl cs
      case h_23 => exact (h₁ rfl).elim
      case h_24 => exact (h₂ rfl).elim
      case h_25 => rw [takeWhile_seen (by decide), takeWhile_seen (by decide)]
      all_goals rfl

/-! ### The whole text -/

theorem commentLength_le (n : Nat) (cs : List Char) : commentLength n cs ≤ n + cs.length := by
  fun_induction commentLength n cs with
  | case1 n cs => simp
  | case2 n c cs _ ih =>
    rw [List.length_cons]
    omega
  | case3 n => exact Nat.le_refl n

/-- What is skipped is there. -/
theorem skipped?_le {fresh : Bool} {c : Char} {cs : List Char} {n : Nat}
    (h : skipped? fresh c cs = some n) : n ≤ cs.length := by
  have hline : lineLength cs ≤ cs.length := (List.takeWhile_prefix _).length_le
  unfold skipped? at h
  split at h
  · cases h
    exact Nat.zero_le _
  split at h
  · cases h
    exact hline
  split at h
  · split at h
    next =>
      cases h
      exact hline
    next ds =>
      cases h
      have hcomment := commentLength_le 1 ds
      rw [List.length_cons]
      omega
    next => cases h
  · cases h

/-- The end of a text that is cut at its mark: the mark takes a column of its own. -/
def Scanned.endedBy (s : Scanned) (text : List Char) : Scanned :=
  if (seen text).length < text.length then { s with endPos := s.endPos.step (Char.ofNat 0) } else s

theorem endedBy_drop {s : Scanned} {c : Char} {cs : List Char} {n : Nat} (hc : c ≠ Char.ofNat 0)
    (hn : n ≤ (seen cs).length) : s.endedBy (cs.drop n) = s.endedBy (c :: cs) := by
  have hle : (seen cs).length ≤ cs.length := (List.takeWhile_prefix _).length_le
  have hiff : (seen (cs.drop n)).length < (cs.drop n).length ↔
      (seen (c :: cs)).length < (c :: cs).length := by
    rw [seen_drop hn, seen_cons hc]
    simp only [List.length_drop, List.length_cons]
    omega
  unfold Scanned.endedBy
  simp only [hiff]

/-- A scanner that looks for the mark where it stands finds what there is in front of it. -/
theorem marked_scanFrom (done : List Token) (p : Pos) (fresh : Bool) (text : List Char) :
    Marked.scanFrom done p fresh text = (scanFrom done p fresh (seen text)).endedBy text := by
  fun_induction Marked.scanFrom done p fresh text with
  | case1 done p fresh =>
    have hnil : seen [] = [] := rfl
    rw [hnil, scanFrom]
    rfl
  | case2 done p fresh cs =>
    rw [Scanned.endedBy, seen_nul, scanFrom]
    exact (if_pos (Nat.succ_pos _)).symm
  | case3 done p fresh c cs hc n hskip text ih =>
    have hseen : skipped? fresh c (seen cs) = some n := (skipped?_seen fresh c cs).trans hskip
    have hn := skipped?_le hseen
    rw [ih, seen_cons hc, scanFrom, hseen, seen_drop hn, endedBy_drop hc hn]
    simp only [take_seen hn, text]
  | case4 done p fresh c cs hc hskip t text token ih =>
    have hseen : skipped? fresh c (seen cs) = none := (skipped?_seen fresh c cs).trans hskip
    have ht : piece c (seen cs) = t := piece_seen c cs
    have hn : t.more ≤ (seen cs).length := ht ▸ piece_more_le c (seen cs)
    rw [ih, seen_cons hc, scanFrom, hseen, seen_drop hn, endedBy_drop hc hn]
    simp only [ht, take_seen hn, text, token]

theorem scan_eq_endedBy (text : List Char) :
    scan text = (scanFrom [] .start true (seen text)).endedBy text := rfl

/-- Cutting a text at its mark and looking for the mark everywhere come to the same. -/
theorem marked_scan (text : List Char) : Marked.scan text = scan text := by
  rw [scan_eq_endedBy]
  exact marked_scanFrom [] .start true text

end MemLint.Token

namespace MemLint.Grammar

open Token (scan)

/-- Nothing behind a NUL is seen. With or without what follows the mark a text has the same tokens,
up to the column of the end, and so it is read to the same tree or refused for the same reason. No
construct goes past the mark: it makes no difference whether the text is cut there or every loop of
the scanner looks for it. -/
theorem text_ends_at_nul {text : List Char} (h : Char.ofNat 0 ∉ text) (more : List Char) :
    (∃ ts p, (scan text).all = ts ++ [⟨.eof, "", p⟩] ∧
      (scan (text ++ Char.ofNat 0 :: more)).all = ts ++ [⟨.eof, "", ⟨p.line, p.col + 1⟩⟩]) ∧
    (∀ source, Token.Marked.scan source = scan source) ∧
    ∀ limit,
      (∃ ds, parse limit (text ++ Char.ofNat 0 :: more) = .ok ds ∧ parse limit text = .ok ds) ∨
      ∃ e e', parse limit (text ++ Char.ofNat 0 :: more) = .error e ∧
        parse limit text = .error e' ∧ e.limit = e'.limit ∧ e.cause = e'.cause := by
  have hseen : Token.seen (text ++ Char.ofNat 0 :: more) = text := by
    rw [Token.seen_append h, Token.seen_nul, List.append_nil]
  have hplain : scan text = Token.scanFrom [] .start true text := by
    rw [Token.scan_eq_endedBy, Token.Scanned.endedBy, Token.seen_eq_self h]
    exact if_neg (Nat.lt_irrefl _)
  have hmarked : scan (text ++ Char.ofNat 0 :: more) =
      { scan text with endPos := (scan text).endPos.step (Char.ofNat 0) } := by
    rw [Token.scan_eq_endedBy, Token.Scanned.endedBy, hseen, hplain]
    exact if_pos (by simp)
  refine ⟨⟨(scan text).tokens, (scan text).endPos, rfl, by rw [hmarked]; rfl⟩,
    Token.marked_scan, fun limit => parse_of_lexemes limit ?_⟩
  rw [hmarked]

/-- The mark in a comment, with an end of the comment and a parenthesis behind it. -/
theorem text_ends_at_nul_at_comment :
    let text := "x = 1; /* y"
    let more := "*/ ("
    let tree := [Decl.stmt (.expr (.assign (.ident "x") (.intLit 1)))]
    Char.ofNat 0 ∉ text.toList ∧ parse 5 text.toList = .ok tree ∧
      parse 5 (text.toList ++ Char.ofNat 0 :: more.toList) = .ok tree := by
  intro text more tree
  have hnul : Char.ofNat 0 ∉ text.toList := by decide
  have htree : parse 5 text.toList = .ok tree := by
    dsimp only [text, tree]
    with_unfolding_all rfl
  refine ⟨hnul, htree, ?_⟩
  obtain ⟨-, -, hparse⟩ := text_ends_at_nul hnul more.toList
  rcases hparse 5 with ⟨ds, hmarked, hplain⟩ | ⟨e, e', -, hplain, -⟩
  · rw [hmarked, ← hplain, htree]
  · cases htree.symm.trans hplain

end MemLint.Grammar
