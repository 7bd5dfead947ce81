import Mathlib.Data.List.TakeWhile
import MemLint.Token.Scan

/-! Tokens written out again. What the grammar sees of a token is its lexeme. Lexemes are written
with a blank between them, literals in quotes, and the scanner reads the same lexemes back. -/

namespace MemLint.Token

/-- A token without its place. -/
structure Lexeme where
  kind : Kind
  lex : String
  deriving DecidableEq, Repr

def lexeme (t : Token) : Lexeme := ⟨t.kind, t.lex⟩

/-- A character as it stands inside a literal. -/
def escapeChar (quote c : Char) : List Char :=
  if c = '\\' then ['\\', '\\']
  else if c = quote then ['\\', quote]
  else if c = '\n' then ['\\', 'n']
  else if c = Char.ofNat 0 then ['\\', '0']
  else [c]

def escape (quote : Char) (cs : List Char) : List Char := cs.flatMap (escapeChar quote)

/-- A literal with its quotes. -/
def quoted (quote : Char) (cs : List Char) : List Char := quote :: (escape quote cs ++ [quote])

/-- A lexeme as it is written. -/
def Lexeme.text (l : Lexeme) : List Char :=
  match l.kind with
  | .string => quoted '"' l.lex.toList
  | .char => quoted '\'' l.lex.toList
  | _ => l.lex.toList

/-- Lexemes with a blank between them. -/
def spell : List Lexeme → List Char
  | [] => []
  | [l] => l.text
  | l :: ls => l.text ++ ' ' :: spell ls

/-- What may follow a lexeme: nothing, or a blank. -/
inductive Apart : List Char → Prop where
  | done : Apart []
  | blank (cs : List Char) : Apart (' ' :: cs)

/-- The scanner reads the lexeme from its text, whatever stands before and behind it. -/
def Lexeme.Legible (l : Lexeme) : Prop :=
  ∃ c cs, l.text = c :: cs ∧ Char.ofNat 0 ∉ l.text ∧ ∀ fresh tail, Apart tail →
    skipped? fresh c (cs ++ tail) = none ∧
      piece c (cs ++ tail) = ⟨l.kind, l.lex.toList, cs.length⟩

/-! ### Reading a spelled text -/

theorem scanFrom_blank (done : List Token) (p : Pos) (fresh : Bool) (cs : List Char) :
    ∃ q fresh', scanFrom done p fresh (' ' :: cs) = scanFrom done q fresh' cs := by
  rw [scanFrom]
  exact ⟨_, _, rfl⟩

theorem scanFrom_legible {l : Lexeme} (h : l.Legible) {tail : List Char} (ht : Apart tail)
    (done : List Token) (p : Pos) (fresh : Bool) :
    ∃ t q fresh', lexeme t = l ∧
      scanFrom done p fresh (l.text ++ tail) = scanFrom (t :: done) q fresh' tail := by
  obtain ⟨c, cs, htext, -, hread⟩ := h
  obtain ⟨hskip, hpiece⟩ := hread fresh tail ht
  rw [htext, List.cons_append, scanFrom]
  simp only [hskip, hpiece, List.drop_left]
  refine ⟨_, _, _, ?_, rfl⟩
  simp [lexeme]

theorem scanFrom_spell {ls : List Lexeme} (h : ∀ l ∈ ls, l.Legible) (done : List Token) (p : Pos)
    (fresh : Bool) :
    ∃ ts, ts.map lexeme = ls ∧ (scanFrom done p fresh (spell ls)).tokens = done.reverse ++ ts := by
  induction ls generalizing done p fresh with
  | nil => exact ⟨[], rfl, by simp [spell, scanFrom]⟩
  | cons l ls ih =>
    have hl := h l (by simp)
    cases ls with
    | nil =>
      obtain ⟨t, q, fresh', ht, hs⟩ := scanFrom_legible hl .done done p fresh
      rw [List.append_nil] at hs
      refine ⟨[t], by simp [ht], ?_⟩
      rw [spell, hs, scanFrom]
      simp
    | cons l' ls =>
      obtain ⟨t, q, fresh', ht, hs⟩ := scanFrom_legible hl (.blank (spell (l' :: ls))) done p fresh
      obtain ⟨q', fresh'', hb⟩ := scanFrom_blank (t :: done) q fresh' (spell (l' :: ls))
      obtain ⟨ts, hts, hr⟩ := ih (fun m hm => h m (by simp [hm])) (t :: done) q' fresh''
      refine ⟨t :: ts, by simp [ht, hts], ?_⟩
      rw [spell, hs, hb, hr]
      · simp
      · simp

/-- The part of a text that is scanned: a NUL ends it. -/
def seen (text : List Char) : List Char := text.takeWhile (· ≠ Char.ofNat 0)

theorem scan_seen (text : List Char) :
    (scan text).tokens = (scanFrom [] .start true (seen text)).tokens := by
  simp only [scan]
  split <;> rfl

theorem nul_not_mem_seen (text : List Char) : Char.ofNat 0 ∉ seen text := fun h =>
  absurd (List.mem_takeWhile_imp h) (by decide)

theorem seen_append {text : List Char} (h : Char.ofNat 0 ∉ text) (more : List Char) :
    seen (text ++ more) = text ++ seen more := by
  have hall : ∀ c ∈ text, decide (c ≠ Char.ofNat 0) = true := by
    intro c hc
    simp only [decide_eq_true_eq]
    rintro rfl
    exact h hc
  exact List.takeWhile_append_of_pos hall

theorem seen_eq_self {text : List Char} (h : Char.ofNat 0 ∉ text) : seen text = text := by
  simpa [seen] using seen_append h []

theorem scan_tokens {text : List Char} (h : Char.ofNat 0 ∉ text) :
    (scan text).tokens = (scanFrom [] .start true text).tokens := by
  rw [scan_seen, seen_eq_self h]

theorem not_mem_spell {x : Char} (hx : x ≠ ' ') {ls : List Lexeme} (h : ∀ l ∈ ls, x ∉ l.text) :
    x ∉ spell ls := by
  induction ls with
  | nil => simp [spell]
  | cons l ls ih =>
    obtain ⟨hl, hls⟩ := List.forall_mem_cons.1 h
    have ih := ih hls
    cases ls with
    | nil => exact hl
    | cons l' ls => simp [spell, hl, hx, ih]

theorem spell_nul {ls : List Lexeme} (h : ∀ l ∈ ls, l.Legible) : Char.ofNat 0 ∉ spell ls := by
  refine not_mem_spell (by decide) fun l hl => ?_
  obtain ⟨c, cs, -, hnul, -⟩ := h l hl
  exact hnul

/-- Legible lexemes are read back from their spelling. -/
theorem scan_spell {ls : List Lexeme} (h : ∀ l ∈ ls, l.Legible) :
    (scan (spell ls)).tokens.map lexeme = ls := by
  obtain ⟨ts, hts, hs⟩ := scanFrom_spell h [] .start true
  rw [scan_tokens (spell_nul h), hs]
  exact hts

/-! ### Classes of characters -/

/-- No code lies in both of two sets of ranges that do not meet. -/
theorem not_inRanges_of_apart {as bs : List (Nat × Nat)}
    (h : ∀ a ∈ as, ∀ b ∈ bs, a.2 < b.1 ∨ b.2 < a.1) {code : Nat}
    (ha : Text.inRanges as code = true) : Text.inRanges bs code = false := by
  simp only [Text.inRanges, List.any_eq_true, Bool.and_eq_true, decide_eq_true_eq] at ha
  obtain ⟨a, hmem, h₁, h₂⟩ := ha
  simp only [Text.inRanges, List.any_eq_false, Bool.and_eq_true, decide_eq_true_eq, not_and,
    Nat.not_le]
  intro b hb h₃
  rcases h a hmem b hb with hlt | hlt
  · omega
  · exact Nat.lt_of_lt_of_le hlt h₁

theorem isAlpha_eq_inRanges (c : Char) :
    c.isAlpha = Text.inRanges [(65, 90), (97, 122)] c.toNat := by
  have hc : c.isAlpha = (decide ('A'.val ≤ c.val ∧ c.val ≤ 'Z'.val)
      || (decide ('a'.val ≤ c.val) && decide (c.val ≤ 'z'.val))) := rfl
  simp [hc, Text.inRanges, UInt32.le_iff_toNat_le]

theorem not_blank_of_letter {c : Char} (h : Text.isLetter c = true) : Text.isBlank c = false := by
  unfold Text.isLetter at h
  split at h
  · rw [isAlpha_eq_inRanges] at h
    exact not_inRanges_of_apart (by decide) h
  · exact not_inRanges_of_apart (by decide +kernel) h

/-! ### Words -/

/-- What the scanner takes for one word: a name or a keyword. -/
def IsWord (w : String) : Prop :=
  ∃ c cs, w.toList = c :: cs ∧ (Text.isLetter c || c == '_') = true ∧
    ∀ x ∈ cs, isWordChar x = true

theorem isWord_iff {w : String} {c : Char} {cs : List Char} (h : w.toList = c :: cs) :
    ((Text.isLetter c || c == '_') && cs.all isWordChar) = true ↔ IsWord w := by
  rw [Bool.and_eq_true, List.all_eq_true]
  constructor
  · rintro ⟨hc, hcs⟩
    exact ⟨c, cs, h, hc, hcs⟩
  · rintro ⟨c', cs', hw, hc, hcs⟩
    cases h.symm.trans hw
    exact ⟨hc, hcs⟩

instance (w : String) : Decidable (IsWord w) :=
  match h : w.toList with
  | [] => .isFalse fun ⟨_, _, hw, _⟩ => nomatch h.symm.trans hw
  | _ :: _ => decidable_of_iff _ (isWord_iff h)

/-- The lexeme of a word. -/
def Lexeme.word (w : String) : Lexeme := ⟨.ofWord w, w⟩

theorem text_word (w : String) : (Lexeme.word w).text = w.toList := by
  have h : Kind.ofWord w ≠ .string ∧ Kind.ofWord w ≠ .char := by
    unfold Kind.ofWord
    split <;> decide
  unfold Lexeme.text
  split
  next hk => exact (h.1 hk).elim
  next hk => exact (h.2 hk).elim
  next => rfl

theorem takeWhile_apart {p : Char → Bool} {cs tail : List Char} (h : ∀ x ∈ cs, p x = true)
    (hp : p ' ' = false) (ht : Apart tail) : (cs ++ tail).takeWhile p = cs := by
  rw [List.takeWhile_append_of_pos h]
  cases ht with
  | done => simp
  | blank => simp [hp]

theorem skipped_word {c : Char} (h : (Text.isLetter c || c == '_') = true) (fresh : Bool)
    (cs : List Char) : skipped? fresh c cs = none := by
  have hb : Text.isBlank c = false := by
    rcases Bool.or_eq_true _ _ ▸ h with hl | hu
    · exact not_blank_of_letter hl
    · rw [eq_of_beq hu]
      decide
  have hn : c ≠ '#' := by
    rintro rfl
    exact absurd h (by decide)
  have hs : c ≠ '/' := by
    rintro rfl
    exact absurd h (by decide)
  simp [skipped?, hb, hn, hs]

theorem piece_word {c : Char} (h : (Text.isLetter c || c == '_') = true) (cs : List Char) :
    piece c cs = ⟨.ofWord (String.ofList (c :: cs.takeWhile isWordChar)),
      c :: cs.takeWhile isWordChar, (cs.takeWhile isWordChar).length⟩ := by
  unfold piece
  split
  case h_25 => rw [if_pos h]
  all_goals exact absurd h (by decide)

theorem legible_word {w : String} (h : IsWord w) : (Lexeme.word w).Legible := by
  obtain ⟨c, cs, hw, hc, hcs⟩ := h
  refine ⟨c, cs, by rw [text_word, hw], ?_, fun fresh tail ht => ⟨skipped_word hc fresh _, ?_⟩⟩
  · rw [text_word, hw]
    intro hmem
    rcases List.mem_cons.1 hmem with rfl | hmem
    · exact absurd hc (by decide)
    · exact absurd (hcs _ hmem) (by decide)
  · rw [piece_word hc, takeWhile_apart hcs (by decide) ht, ← hw, String.ofList_toList]
    rfl

/-! ### Numbers -/

/-- The lexeme of a number in decimal. -/
def Lexeme.number (n : Nat) : Lexeme := ⟨.int, n.repr⟩

theorem isDigit_of_ascii {c : Char} (h : c.isDigit = true) :
    Text.isDigit c = true ∧ Text.isLetter c = false ∧ Text.isBlank c = false := by
  have hc : Text.inRanges [(48, 57)] c.toNat = true := by
    simpa [Text.inRanges, Char.isDigit, UInt32.le_iff_toNat_le] using h
  have hr : 48 ≤ c.toNat ∧ c.toNat ≤ 57 := by simpa [Text.inRanges] using hc
  have ha : c.isAlpha = false := by
    rw [isAlpha_eq_inRanges]
    exact not_inRanges_of_apart (by decide) hc
  have hlt : c.toNat < 0x80 := by omega
  refine ⟨by rw [Text.isDigit, if_pos hlt, h], by rw [Text.isLetter, if_pos hlt, ha], ?_⟩
  exact not_inRanges_of_apart (by decide) hc

theorem skipped_digit {c : Char} (h : c.isDigit = true) (fresh : Bool) (cs : List Char) :
    skipped? fresh c cs = none := by
  have hn : c ≠ '#' := by
    rintro rfl
    exact absurd h (by decide)
  have hs : c ≠ '/' := by
    rintro rfl
    exact absurd h (by decide)
  simp [skipped?, (isDigit_of_ascii h).2.2, hn, hs]

theorem piece_digit {c : Char} (h : c.isDigit = true) (cs : List Char) :
    piece c cs = ⟨if '.' ∈ cs.takeWhile isNumberChar then .float else .int,
      c :: cs.takeWhile isNumberChar, (cs.takeWhile isNumberChar).length⟩ := by
  obtain ⟨hd, hl, -⟩ := isDigit_of_ascii h
  have hu : c ≠ '_' := by
    rintro rfl
    exact absurd h (by decide)
  unfold piece
  split
  case h_25 => simp [hd, hl, hu]
  all_goals exact absurd h (by decide)

theorem legible_number (n : Nat) : (Lexeme.number n).Legible := by
  have hall : ∀ x ∈ n.repr.toList, x.isDigit = true := fun x hx =>
    Nat.isDigit_of_mem_toDigits (by decide) (by decide) (Nat.toList_repr ▸ hx)
  have htext : (Lexeme.number n).text = n.repr.toList := rfl
  cases hr : n.repr.toList with
  | nil => exact absurd (Nat.toList_repr ▸ hr) Nat.toDigits_ne_nil
  | cons c cs =>
    rw [hr] at hall
    have hc := hall c (by simp)
    have hcs : ∀ x ∈ cs, isNumberChar x = true := fun x hx => by
      simp [isNumberChar, (isDigit_of_ascii (hall x (by simp [hx]))).1]
    refine ⟨c, cs, by rw [htext, hr], ?_, fun fresh tail ht => ⟨skipped_digit hc fresh _, ?_⟩⟩
    · rw [htext, hr]
      exact fun hmem => absurd (hall _ hmem) (by decide)
    · have hdot : '.' ∉ cs := fun hmem => absurd (hall '.' (by simp [hmem])) (by decide)
      rw [piece_digit hc, takeWhile_apart hcs (by decide) ht, if_neg hdot, ← hr]
      rfl

/-! ### Literals -/

/-- The lexeme of a string. -/
def Lexeme.string (s : String) : Lexeme := ⟨.string, s⟩

/-- What would end a literal or the text is not written as it is. -/
theorem not_mem_escape {quote x : Char} (hq : quote ≠ x) (hx : x = '\n' ∨ x = Char.ofNat 0)
    (cs : List Char) : x ∉ escape quote cs := by
  intro h
  obtain ⟨c, -, hc⟩ := List.mem_flatMap.1 h
  have hb : x ≠ '\\' ∧ x ≠ 'n' ∧ x ≠ '0' := by
    rcases hx with rfl | rfl <;> decide
  unfold escapeChar at hc
  split at hc
  · simp [hb.1] at hc
  · split at hc
    · simp [hb.1, hq.symm] at hc
    · split at hc
      · simp [hb.1, hb.2.1] at hc
      next hn =>
        split at hc
        · simp [hb.1, hb.2.2] at hc
        next hz =>
          cases List.mem_singleton.1 hc
          exact hx.elim hn hz

/-- The inside of a literal stands for what was escaped. -/
theorem literalBody_escape {quote : Char} (hq : quote = '"' ∨ quote = '\'')
    (cs tail done : List Char) (n : Nat) :
    literalBody quote done n (escape quote cs ++ quote :: tail) =
      (done.reverse ++ cs, n + (escape quote cs).length + 1) := by
  induction cs generalizing done n with
  | nil => rcases hq with rfl | rfl <;> simp [escape, literalBody]
  | cons c cs ih =>
    simp only [escape, List.flatMap_cons, List.append_assoc] at ih ⊢
    by_cases h₁ : c = '\\'
    · subst c
      simp [escapeChar, literalBody, ih]
      omega
    by_cases h₂ : c = quote
    · subst c
      rcases hq with rfl | rfl <;> simp [escapeChar, literalBody, ih] <;> omega
    by_cases h₃ : c = '\n'
    · subst c
      simp [escapeChar, h₂, literalBody, ih]
      omega
    by_cases h₄ : c = Char.ofNat 0
    · subst c
      simp [escapeChar, h₂, literalBody, ih]
      omega
    simp [escapeChar, h₁, h₂, h₃, h₄, literalBody, ih]
    omega

/-- The quote around the literals of a kind. -/
def Kind.quote? : Kind → Option Char
  | string => some '"'
  | char => some '\''
  | _ => none

theorem text_literal {k : Kind} {quote : Char} (h : k.quote? = some quote) (s : String) :
    (Lexeme.mk k s).text = quoted quote s.toList := by
  unfold Kind.quote? at h
  split at h <;> cases h <;> rfl

theorem quote_cases {k : Kind} {quote : Char} (h : k.quote? = some quote) :
    quote = '"' ∨ quote = '\'' := by
  unfold Kind.quote? at h
  split at h <;> cases h <;> decide

theorem legible_literal {k : Kind} {quote : Char} (h : k.quote? = some quote) (s : String) :
    (Lexeme.mk k s).Legible := by
  have hq := quote_cases h
  refine ⟨quote, escape quote s.toList ++ [quote], text_literal h s, ?_, fun fresh tail _ => ?_⟩
  · have hnul : quote ≠ Char.ofNat 0 := by
      rcases hq with rfl | rfl <;> decide
    simp [text_literal h, quoted, hnul.symm, not_mem_escape hnul (.inr rfl)]
  · have hbody := literalBody_escape hq s.toList tail [] 0
    rw [List.append_assoc, List.singleton_append]
    unfold Kind.quote? at h
    split at h <;> cases h <;> refine ⟨rfl, ?_⟩ <;> simp [piece, hbody]

theorem legible_string (s : String) : (Lexeme.string s).Legible := legible_literal rfl s

/-! ### Signs -/

/-- The text of a token that is always written the same way and is no word. -/
def Kind.sign? : Kind → Option String
  | lparen => some "(" | rparen => some ")" | lbrace => some "\x7b" | rbrace => some "\x7d"
  | lbrack => some "[" | rbrack => some "]" | semi => some ";" | comma => some ","
  | colon => some ":" | scope => some "::" | dot => some "." | arrow => some "->"
  | assign => some "=" | amp => some "&" | plus => some "+" | minus => some "-"
  | star => some "*" | slash => some "/" | percent => some "%" | inc => some "++"
  | dec => some "--" | addAssign => some "+=" | subAssign => some "-=" | mulAssign => some "*="
  | divAssign => some "/=" | andAnd => some "&&" | orOr => some "||" | bang => some "!"
  | tilde => some "~" | eqEq => some "==" | neq => some "!=" | lt => some "<" | le => some "<="
  | gt => some ">" | ge => some ">="
  | _ => none

theorem legible_sign {k : Kind} {w : String} (h : k.sign? = some w) : (Lexeme.mk k w).Legible := by
  unfold Kind.sign? at h
  split at h <;> cases h <;> refine ⟨_, _, rfl, by decide, fun fresh tail ht => ?_⟩ <;>
    cases ht <;> cases fresh <;> exact ⟨rfl, rfl⟩

end MemLint.Token
