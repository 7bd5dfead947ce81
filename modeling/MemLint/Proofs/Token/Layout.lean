import MemLint.Proofs.Token.Cover

/-! The layout of a text: its tokens with blanks, comments and `#` lines between them. Where such a
gap may stand the scanner passes over all of it, so that it reads the same lexemes from every layout
of them. -/

namespace MemLint.Token

/-! ### Gaps are passed over -/

theorem lineLength_append {cs rest : List Char} (h : '\n' ∉ cs) (hr : LineEnds rest) :
    lineLength (cs ++ rest) = cs.length := by
  induction cs with
  | nil =>
    cases hr with
    | text => rfl
    | line rest => exact lineLength_cons '\n' rest
  | cons c cs ih =>
    have hc : c ≠ '\n' := fun hc => h (hc ▸ List.mem_cons_self)
    have hcs : '\n' ∉ cs := fun hmem => h (List.mem_cons_of_mem c hmem)
    rw [List.cons_append, lineLength_cons, if_neg hc, ih hcs, List.length_cons]

/-- A comment goes on behind a character at which no closing mark begins. -/
theorem commentLength_cons {c : Char} {cs : List Char} (h : ¬ ['*', '/'] <+: c :: cs) (n : Nat) :
    commentLength n (c :: cs) = commentLength (n + 1) cs := by
  rw [commentLength]
  rintro rest rfl rfl
  exact h ⟨rest, rfl⟩

theorem commentLength_closed {cs : List Char} (h : ¬ ['*', '/'] <:+: cs ++ ['*'])
    (rest : List Char) (n : Nat) :
    commentLength n (cs ++ '*' :: '/' :: rest) = n + cs.length + 2 := by
  induction cs generalizing n with
  | nil => rfl
  | cons c cs ih =>
    have hcs : ¬ ['*', '/'] <:+: cs ++ ['*'] := fun hin => h (hin.trans (List.suffix_cons c _).isInfix)
    have hc : ¬ ['*', '/'] <+: c :: (cs ++ '*' :: '/' :: rest) := by
      intro hpre
      obtain ⟨rfl, hslash⟩ := List.cons_prefix_cons.1 hpre
      cases cs with
      | nil => exact absurd hslash (by simp)
      | cons d ds =>
        obtain ⟨rfl, -⟩ := List.cons_prefix_cons.1 hslash
        exact h ⟨[], ds ++ ['*'], by simp⟩
    rw [List.cons_append, commentLength_cons hc, ih hcs, List.length_cons]
    omega

theorem commentLength_open {cs : List Char} (h : ¬ ['*', '/'] <:+: cs) (n : Nat) :
    commentLength n cs = n + cs.length := by
  induction cs generalizing n with
  | nil => rfl
  | cons c cs ih =>
    have hcs : ¬ ['*', '/'] <:+: cs := fun hin => h (hin.trans (List.suffix_cons c cs).isInfix)
    have hc : ¬ ['*', '/'] <+: c :: cs := fun hpre => h hpre.isInfix
    rw [commentLength_cons hc, ih hcs, List.length_cons]
    omega

/-- What may be skipped is skipped as a whole. -/
theorem skipped_of_skippable {before text rest : List Char} (h : Skippable before text rest) :
    ∃ c cs, text = c :: cs ∧
      skipped? (freshAfter true before) c (cs ++ rest) = some cs.length := by
  cases h with
  | @blank c _ hb =>
    refine ⟨c, [], rfl, ?_⟩
    unfold skipped?
    exact if_pos hb
  | @lineComment cs _ hn hr =>
    refine ⟨'/', '/' :: cs, rfl, ?_⟩
    show some (lineLength ('/' :: cs ++ rest)) = some ('/' :: cs).length
    rw [lineLength_append (by simp [hn]) hr]
  | @comment cs _ hin =>
    refine ⟨'/', '*' :: (cs ++ ['*', '/']), rfl, ?_⟩
    show some (commentLength 1 (cs ++ ['*', '/'] ++ rest)) = some ('*' :: (cs ++ ['*', '/'])).length
    rw [List.append_assoc, List.cons_append, List.singleton_append, commentLength_closed hin]
    simp
    omega
  | @openComment cs hin =>
    refine ⟨'/', '*' :: cs, rfl, ?_⟩
    show some (commentLength 1 (cs ++ [])) = some ('*' :: cs).length
    rw [List.append_nil, commentLength_open hin, List.length_cons, Nat.add_comm]
  | @directive cs _ hb hn hr =>
    refine ⟨'#', cs, rfl, ?_⟩
    rw [(freshAfter_iff before).2 hb]
    show some (lineLength (cs ++ rest)) = some cs.length
    rw [lineLength_append hn hr]

/-! ### Layouts -/

/-- The text behind `before` is made of the lexemes, as far as the scanner can tell them from what
follows, with nothing but blanks, comments and `#` lines between them. -/
inductive LaidOut : (before text : List Char) → List Lexeme → Prop where
  | done (before : List Char) : LaidOut before [] []
  | gap {before text rest : List Char} {ls : List Lexeme} (h : Skippable before text rest)
    (hr : LaidOut (before ++ text) rest ls) : LaidOut before (text ++ rest) ls
  | lexeme (c : Char) (cs : List Char) {before rest lex : List Char} {k : Kind} {ls : List Lexeme}
    (hs : skipped? (freshAfter true before) c (cs ++ rest) = none)
    (hp : piece c (cs ++ rest) = ⟨k, lex, cs.length⟩)
    (hr : LaidOut (before ++ c :: cs) rest ls) :
    LaidOut before (c :: (cs ++ rest)) (⟨k, String.ofList lex⟩ :: ls)

/-- From where the scanner stands behind `before` it adds the lexemes of the layout. -/
theorem LaidOut.scanFrom {before text : List Char} {ls : List Lexeme} (h : LaidOut before text ls)
    (done : List Token) (p : Pos) :
    ∃ ts, ts.map Token.lexeme = ls ∧
      (scanFrom done p (freshAfter true before) text).tokens = done.reverse ++ ts := by
  induction h generalizing done p with
  | done before => exact ⟨[], rfl, by simp [Token.scanFrom]⟩
  | @gap before text rest ls hgap hr ih =>
    obtain ⟨c, cs, rfl, hskip⟩ := skipped_of_skippable hgap
    obtain ⟨ts, hts, hscan⟩ := ih done (p.after (c :: cs))
    refine ⟨ts, hts, ?_⟩
    rw [List.cons_append, Token.scanFrom]
    simp only [hskip, List.take_left, List.drop_left]
    rw [← freshAfter_append]
    exact hscan
  | @lexeme c cs before rest lex k ls hs hp hr ih =>
    obtain ⟨ts, hts, hscan⟩ := ih (⟨k, String.ofList lex, p.step c⟩ :: done) (p.after (c :: cs))
    refine ⟨⟨k, String.ofList lex, p.step c⟩ :: ts, by simp [hts, Token.lexeme], ?_⟩
    rw [Token.scanFrom]
    simp only [hs, hp, List.take_left, List.drop_left]
    rw [← freshAfter_append, hscan]
    simp

/-- The scanner reads the lexemes from any layout of them in the part of a text that it sees. -/
theorem LaidOut.scan {text : List Char} {ls : List Lexeme} (h : LaidOut [] (seen text) ls) :
    (scan text).tokens.map Token.lexeme = ls := by
  obtain ⟨ts, hts, hscan⟩ := h.scanFrom [] .start
  rw [scan_seen]
  exact (congrArg (List.map Token.lexeme) hscan).trans hts

/-- The scanner reads the lexemes from any layout of them. -/
theorem LaidOut.lexemes {text : List Char} {ls : List Lexeme} (h : LaidOut [] text ls)
    (hnul : Char.ofNat 0 ∉ text) : (Token.scan text).tokens.map Token.lexeme = ls := by
  rw [← seen_eq_self hnul] at h
  exact h.scan

end MemLint.Token
