import Mathlib.Data.List.DropRight
import Mathlib.Data.List.Infix
import MemLint.Proofs.Token.Spelling

/-! The tokens of a source text cover it. Between the texts of the tokens only blanks, comments and
`#` lines stand, and each token has the place at which its text begins. -/

namespace MemLint.Token

/-! ### Places -/

/-- What stands after the last line break. -/
def lastLine (text : List Char) : List Char := text.rtakeWhile (· ≠ '\n')

/-- The place of a character that stands behind `before`: lines and columns count from one. -/
def placeBehind (before : List Char) : Pos :=
  ⟨1 + before.count '\n', 1 + (lastLine before).length⟩

theorem lastLine_newline (text : List Char) : lastLine (text ++ ['\n']) = [] := by
  simp [lastLine]

theorem lastLine_concat {c : Char} (h : c ≠ '\n') (text : List Char) :
    lastLine (text ++ [c]) = lastLine text ++ [c] := by
  simp [lastLine, h]

theorem after_append (p : Pos) (text more : List Char) :
    p.after (text ++ more) = (p.after text).after more := List.foldl_append

theorem start_after (before : List Char) :
    Pos.start.after before = ⟨1 + before.count '\n', (lastLine before).length⟩ := by
  induction before using List.reverseRecOn with
  | nil => rfl
  | append_singleton before c ih =>
    rw [after_append, ih]
    by_cases hc : c = '\n'
    · subst hc
      simp [Pos.after, Pos.step, lastLine_newline, Nat.add_assoc]
    · simp [Pos.after, Pos.step, hc, lastLine_concat hc]

theorem start_after_step {c : Char} (hc : c ≠ '\n') (before : List Char) :
    (Pos.start.after before).step c = placeBehind before := by
  rw [start_after, Pos.step, if_neg hc, placeBehind, Nat.add_comm 1 (lastLine before).length]

theorem freshAfter_append (fresh : Bool) (text more : List Char) :
    freshAfter fresh (text ++ more) = freshAfter (freshAfter fresh text) more := List.foldl_append

theorem freshAfter_iff (before : List Char) :
    freshAfter true before = true ↔ ∀ c ∈ lastLine before, Text.isBlank c = true := by
  induction before using List.reverseRecOn with
  | nil => simp [freshAfter, lastLine]
  | append_singleton before c ih =>
    rw [freshAfter_append]
    by_cases hc : c = '\n'
    · subst hc
      simp [freshAfter, freshStep, lastLine_newline]
    · rw [lastLine_concat hc]
      simp only [freshAfter, List.foldl_cons, List.foldl_nil, freshStep] at ih ⊢
      simp [hc, ih, or_imp, forall_and]

/-! ### What is skipped -/

/-- The line goes no further. -/
inductive LineEnds : List Char → Prop where
  | text : LineEnds []
  | line (rest : List Char) : LineEnds ('\n' :: rest)

/-- Between `before` and `rest` a blank, a comment or a `#` line stands. -/
inductive Skippable (before : List Char) : (text rest : List Char) → Prop where
  | blank {c : Char} {rest : List Char} (h : Text.isBlank c = true) : Skippable before [c] rest
  | lineComment {cs rest : List Char} (h : '\n' ∉ cs) (hr : LineEnds rest) :
    Skippable before ('/' :: '/' :: cs) rest
  /-- A comment, whose closing mark is the first one in it. -/
  | comment {cs rest : List Char} (h : ¬ ['*', '/'] <:+: cs ++ ['*']) :
    Skippable before ('/' :: '*' :: (cs ++ ['*', '/'])) rest
  /-- A comment without a closing mark goes to the end of the text. -/
  | openComment {cs : List Char} (h : ¬ ['*', '/'] <:+: cs) :
    Skippable before ('/' :: '*' :: cs) []
  | directive {cs rest : List Char} (hb : ∀ c ∈ lastLine before, Text.isBlank c = true)
    (h : '\n' ∉ cs) (hr : LineEnds rest) : Skippable before ('#' :: cs) rest

theorem lineLength_cons (c : Char) (cs : List Char) :
    lineLength (c :: cs) = if c = '\n' then 0 else lineLength cs + 1 := by
  by_cases hc : c = '\n' <;> simp [lineLength, hc]

theorem newline_not_mem_line (cs : List Char) : '\n' ∉ cs.take (lineLength cs) := by
  induction cs with
  | nil => simp
  | cons c cs ih =>
    rw [lineLength_cons]
    split
    · simp
    next hc => simp [Ne.symm hc, ih]

theorem lineEnds_drop (cs : List Char) : LineEnds (cs.drop (lineLength cs)) := by
  induction cs with
  | nil => exact .text
  | cons c cs ih =>
    rw [lineLength_cons]
    split
    next hc => exact hc ▸ .line cs
    · exact ih

/-- A comment goes up to its first closing mark, or to the end if there is no such mark. -/
theorem commentLength_spec (n : Nat) (cs : List Char) :
    ∃ k, commentLength n cs = n + k ∧
      ((∃ inside, cs.take k = inside ++ ['*', '/'] ∧ ¬ ['*', '/'] <:+: inside ++ ['*']) ∨
        cs.take k = cs ∧ cs.drop k = [] ∧ ¬ ['*', '/'] <:+: cs) := by
  fun_induction commentLength n cs with
  | case1 n cs => exact ⟨2, rfl, .inl ⟨[], rfl, by decide⟩⟩
  | case2 n c cs hno ih =>
    obtain ⟨k, hk, ih⟩ := ih
    -- no closing mark begins at `c`
    have hstart : ∀ more, more <+: cs → ¬ ['*', '/'] <+: c :: more := by
      intro more hmore h
      obtain ⟨rfl, hslash⟩ := List.cons_prefix_cons.1 h
      obtain ⟨t, rfl⟩ := hslash.trans hmore
      exact hno t rfl rfl
    refine ⟨k + 1, by omega, ih.imp ?_ ?_⟩
    · rintro ⟨inside, htake, hin⟩
      refine ⟨c :: inside, by simp [htake], fun h => ?_⟩
      rcases List.infix_cons_iff.1 h with h | h
      · refine hstart _ ?_ h
        calc inside ++ ['*'] <+: inside ++ ['*', '/'] := ⟨['/'], by simp⟩
          _ = cs.take k := htake.symm
          _ <+: cs := List.take_prefix k cs
      · exact hin h
    · rintro ⟨htake, hdrop, hin⟩
      refine ⟨by simp [htake], by simp [hdrop], fun h => ?_⟩
      rcases List.infix_cons_iff.1 h with h | h
      · exact hstart cs List.prefix_rfl h
      · exact hin h
  | case3 n => exact ⟨0, rfl, .inr ⟨rfl, rfl, by decide⟩⟩

theorem skippable_of_skipped {before cs : List Char} {c : Char} {n : Nat}
    (h : skipped? (freshAfter true before) c cs = some n) :
    Skippable before (c :: cs.take n) (cs.drop n) := by
  unfold skipped? at h
  split at h
  next hb =>
    cases h
    exact .blank hb
  split at h
  next hd =>
    obtain ⟨rfl, hf⟩ := hd
    cases h
    exact .directive ((freshAfter_iff before).1 hf) (newline_not_mem_line cs) (lineEnds_drop cs)
  split at h
  next hc =>
    subst hc
    split at h
    next ds =>
      cases h
      have hl : lineLength ('/' :: ds) = lineLength ds + 1 := lineLength_cons '/' ds
      rw [hl]
      exact .lineComment (newline_not_mem_line ds) (lineEnds_drop ds)
    next ds =>
      cases h
      obtain ⟨k, hk, ⟨inside, htake, hin⟩ | ⟨htake, hdrop, hin⟩⟩ := commentLength_spec 1 ds
      · rw [hk, Nat.add_comm, List.take_succ_cons, htake]
        exact .comment hin
      · rw [hk, Nat.add_comm, List.take_succ_cons, htake, List.drop_succ_cons, hdrop]
        exact .openComment hin
    next => cases h
  next => cases h

/-! ### Literals -/

/-- What a character behind a backslash stands for. -/
def escaped : Char → Char
  | 'n' => '\n'
  | 't' => '\t'
  | '0' => Char.ofNat 0
  | c => c

/-- The inside of a literal, in which no quote stands but behind a backslash, and what it stands
for. -/
inductive Inside (quote : Char) : (text meant : List Char) → Prop where
  | nil : Inside quote [] []
  | escape (c : Char) {text meant : List Char} (h : Inside quote text meant) :
    Inside quote ('\\' :: c :: text) (escaped c :: meant)
  | plain {c : Char} {text meant : List Char} (hb : c ≠ '\\') (hq : c ≠ quote) (hn : c ≠ '\n')
    (h : Inside quote text meant) : Inside quote (c :: text) (c :: meant)

/-- How a literal ends: with its quote, or without one before a line break or at the end of the
text, where a last backslash may stand. -/
inductive LiteralEnds (quote : Char) : (text rest : List Char) → Prop where
  | quote (rest : List Char) : LiteralEnds quote [quote] rest
  | line (rest : List Char) : LiteralEnds quote [] ('\n' :: rest)
  | text : LiteralEnds quote [] []
  | backslash : LiteralEnds quote ['\\'] []

/-- A literal before `rest`, and what it stands for. -/
def Literal (quote : Char) (text meant rest : List Char) : Prop :=
  ∃ inside final, text = quote :: (inside ++ final) ∧ Inside quote inside meant ∧
    LiteralEnds quote final rest

theorem ne_backslash {c : Char} {cs : List Char}
    (hesc : ∀ c' cs', c = '\\' → cs = c' :: cs' → False) (hlast : c = '\\' → cs = [] → False) :
    c ≠ '\\' := by
  intro hc
  cases cs with
  | nil => exact hlast hc rfl
  | cons c' cs => exact hesc c' cs hc rfl

theorem literalBody_spec (quote : Char) (done : List Char) (n : Nat) (cs : List Char) :
    ∃ k meant inside final, literalBody quote done n cs = (done.reverse ++ meant, n + k) ∧
      cs.take k = inside ++ final ∧ Inside quote inside meant ∧
      LiteralEnds quote final (cs.drop k) := by
  fun_induction literalBody quote done n cs with
  | case1 done n => exact ⟨0, [], [], [], by simp, rfl, .nil, .text⟩
  | case2 done n c cs meant ih =>
    obtain ⟨k, rest, inside, final, heq, htake, hin, hend⟩ := ih
    refine ⟨k + 2, escaped c :: rest, '\\' :: c :: inside, final, ?_, ?_, .escape c hin, hend⟩
    · have hmeant : meant = escaped c := rfl
      rw [heq, hmeant]
      simp [Nat.add_assoc, Nat.add_comm 2 k]
    · simp [htake]
  | case3 done n => exact ⟨1, [], [], ['\\'], by simp, rfl, .nil, .backslash⟩
  | case4 done n cs => exact ⟨0, [], [], [], by simp, rfl, .nil, .line cs⟩
  | case5 done n cs => exact ⟨1, [], [], [quote], by simp, rfl, .nil, .quote cs⟩
  | case6 done n c cs hesc hlast hn hq ih =>
    obtain ⟨k, rest, inside, final, heq, htake, hin, hend⟩ := ih
    have hb : c ≠ '\\' := ne_backslash hesc hlast
    refine ⟨k + 1, c :: rest, c :: inside, final, ?_, by simp [htake], .plain hb hq hn hin, hend⟩
    rw [heq]
    simp [Nat.add_assoc, Nat.add_comm 1 k]

theorem literal_of_body (quote : Char) (cs : List Char) :
    Literal quote (quote :: cs.take (literalBody quote [] 0 cs).2) (literalBody quote [] 0 cs).1
      (cs.drop (literalBody quote [] 0 cs).2) := by
  obtain ⟨k, meant, inside, final, heq, htake, hin, hend⟩ := literalBody_spec quote [] 0 cs
  rw [heq]
  simp only [List.reverse_nil, List.nil_append, Nat.zero_add]
  exact ⟨inside, final, by rw [htake], hin, hend⟩

/-! ### The text of a token -/

/-- The token stands as `text` before `rest`. All but literals stand as they are read. -/
def Stands (t : Token) (text rest : List Char) : Prop :=
  match t.kind with
  | .string => Literal '"' text t.lex.toList rest
  | .char => Literal '\'' text t.lex.toList rest
  | _ => text = t.lex.toList

/-- The piece is no literal and not the end, and it is read as it stands. -/
def Piece.Plain (c : Char) (cs : List Char) (t : Piece) : Prop :=
  t.kind ≠ .string ∧ t.kind ≠ .char ∧ t.kind ≠ .eof ∧ c :: cs.take t.more = t.lex

theorem plain_sign {first second : Char} {single double : Kind}
    (h₁ : single ≠ .string ∧ single ≠ .char ∧ single ≠ .eof)
    (h₂ : double ≠ .string ∧ double ≠ .char ∧ double ≠ .eof) (cs : List Char) :
    (sign first second single double cs).Plain first cs := by
  cases cs with
  | nil => exact ⟨h₁.1, h₁.2.1, h₁.2.2, rfl⟩
  | cons c cs =>
    rw [sign]
    split
    next hc => exact ⟨h₂.1, h₂.2.1, h₂.2.2, by simp [hc]⟩
    next => exact ⟨h₁.1, h₁.2.1, h₁.2.2, by simp⟩

theorem ofWord_plain (w : String) :
    Kind.ofWord w ≠ .string ∧ Kind.ofWord w ≠ .char ∧ Kind.ofWord w ≠ .eof := by
  unfold Kind.ofWord
  split <;> decide

theorem take_length_takeWhile (p : Char → Bool) (cs : List Char) :
    cs.take (cs.takeWhile p).length = cs.takeWhile p :=
  (List.prefix_iff_eq_take.1 (List.takeWhile_prefix p)).symm

theorem piece_plain {c : Char} (h₁ : c ≠ '"') (h₂ : c ≠ '\'') (cs : List Char) :
    (piece c cs).Plain c cs := by
  unfold piece
  split
  case h_12 | h_13 | h_14 | h_15 | h_16 | h_17 | h_18 | h_19 | h_20 =>
    exact plain_sign (by decide) (by decide) cs
  case h_21 =>
    split
    · exact ⟨by decide, by decide, by decide, rfl⟩
    · exact plain_sign (by decide) (by decide) cs
  case h_22 =>
    split
    · exact ⟨by decide, by decide, by decide, rfl⟩
    · exact ⟨by decide, by decide, by decide, rfl⟩
    · exact plain_sign (by decide) (by decide) cs
  case h_23 => exact (h₁ rfl).elim
  case h_24 => exact (h₂ rfl).elim
  case h_25 =>
    split
    · obtain ⟨hs, hc, he⟩ := ofWord_plain (String.ofList (c :: cs.takeWhile isWordChar))
      exact ⟨hs, hc, he, by rw [take_length_takeWhile]⟩
    · split
      · refine ⟨?_, ?_, ?_, by rw [take_length_takeWhile]⟩ <;> dsimp only <;> split <;> decide
      · exact ⟨nofun, nofun, nofun, rfl⟩
  all_goals exact ⟨by decide, by decide, by decide, rfl⟩

/-- A piece is a token that stands as the characters it takes. -/
theorem stands_piece (c : Char) (cs : List Char) (p : Pos) :
    (piece c cs).kind ≠ .eof ∧
      Stands ⟨(piece c cs).kind, String.ofList (piece c cs).lex, p⟩
        (c :: cs.take (piece c cs).more) (cs.drop (piece c cs).more) := by
  by_cases h₁ : c = '"'
  · subst h₁
    refine ⟨fun h => Kind.noConfusion h, ?_⟩
    simpa [Stands, piece] using literal_of_body '"' cs
  by_cases h₂ : c = '\''
  · subst h₂
    refine ⟨fun h => Kind.noConfusion h, ?_⟩
    simpa [Stands, piece] using literal_of_body '\'' cs
  obtain ⟨hs, hc, he, hlex⟩ := piece_plain h₁ h₂ cs
  refine ⟨he, ?_⟩
  unfold Stands
  split
  next hk => exact (hs hk).elim
  next hk => exact (hc hk).elim
  next => rw [hlex, String.toList_ofList]

/-! ### The whole text -/

/-- The text behind `before` consists of the tokens, in their places, with nothing but blanks,
comments and `#` lines between them. -/
inductive Covered : (before text : List Char) → List Token → Prop where
  | done (before : List Char) : Covered before [] []
  | skip {before text rest : List Char} {ts : List Token} (h : Skippable before text rest)
    (hr : Covered (before ++ text) rest ts) : Covered before (text ++ rest) ts
  | token {before text rest : List Char} {t : Token} {ts : List Token} (hne : text ≠ [])
    (h : Stands t text rest) (hp : t.pos = placeBehind before)
    (hr : Covered (before ++ text) rest ts) :
    Covered before (text ++ rest) (t :: ts)

theorem ne_newline_of_not_skipped {fresh : Bool} {c : Char} {cs : List Char}
    (h : skipped? fresh c cs = none) : c ≠ '\n' := by
  rintro rfl
  cases h

/-- What the scanner adds to the tokens it has covers the text that it has not read yet, if place
and freshness are those behind what it has read. -/
theorem scanFrom_covers (done : List Token) {p : Pos} {fresh : Bool} {before : List Char}
    (hp : p = Pos.start.after before) (hf : fresh = freshAfter true before) (text : List Char) :
    ∃ ts, (scanFrom done p fresh text).tokens = done.reverse ++ ts ∧
      (∀ t ∈ ts, t.kind ≠ .eof) ∧ Covered before text ts := by
  fun_induction scanFrom done p fresh text generalizing before with
  | case1 done p fresh => exact ⟨[], by simp, nofun, .done before⟩
  | case2 done p fresh c cs n hskip text =>
    rename_i ih
    subst hp hf
    obtain ⟨ts, hts, hkind, hcov⟩ :=
      ih (after_append _ before text).symm (freshAfter_append _ before text).symm
    have hcov := Covered.skip (skippable_of_skipped hskip) hcov
    rw [List.cons_append, List.take_append_drop] at hcov
    exact ⟨ts, hts, hkind, hcov⟩
  | case3 done p fresh c cs hskip t text token =>
    rename_i ih
    subst hp hf
    obtain ⟨ts, hts, hkind, hcov⟩ :=
      ih (after_append _ before text).symm (freshAfter_append _ before text).symm
    obtain ⟨heof, hstands⟩ := stands_piece c cs token.pos
    have hplace : token.pos = placeBehind before :=
      start_after_step (ne_newline_of_not_skipped hskip) before
    have hcov := Covered.token (List.cons_ne_nil _ _) hstands hplace hcov
    rw [List.cons_append, List.take_append_drop] at hcov
    exact ⟨token :: ts, by simp [hts], List.forall_mem_cons.2 ⟨heof, hkind⟩, hcov⟩

/-- The tokens of a text without NUL end with the only one that marks the end, and the others cover
the text. -/
theorem tokens_cover_text {text : List Char} (h : Char.ofNat 0 ∉ text) :
    ∃ ts e, (scan text).all = ts ++ [e] ∧ e.kind = .eof ∧ (∀ t ∈ ts, t.kind ≠ .eof) ∧
      Covered [] text ts := by
  have hp : Pos.start = Pos.start.after [] := rfl
  have hf : true = freshAfter true [] := rfl
  obtain ⟨ts, hts, hkind, hcov⟩ := scanFrom_covers [] hp hf text
  refine ⟨ts, (scan text).eof, ?_, rfl, hkind, hcov⟩
  rw [Scanned.all, scan_tokens h, hts]
  rfl

/-- A comment, a `#` line and a string without its closing quote. -/
theorem tokens_cover_text_at_broken_string :
    Char.ofNat 0 ∉ "x/*\n*/ #\n # y\n\"a\\\"b\n".toList ∧
      ∃ ts e, (scan "x/*\n*/ #\n # y\n\"a\\\"b\n".toList).all = ts ++ [e] ∧ e.kind = .eof ∧
        (∀ t ∈ ts, t.kind ≠ .eof) ∧ Covered [] "x/*\n*/ #\n # y\n\"a\\\"b\n".toList ts :=
  ⟨by decide, tokens_cover_text (by decide)⟩

end MemLint.Token
