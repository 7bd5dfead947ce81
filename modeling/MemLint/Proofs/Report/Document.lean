import MemLint.Proofs.Numeral.Bases

/-! JSON documents. A value determines a sequence of lexemes: brackets, colons, commas and scalars.
A document is these lexemes in their order, each in one of its spellings, with white space between
them wherever it likes. -/

namespace MemLint.Report.Json

/-- What a document says. The fields of an object are in the order of the document. -/
inductive Value where
  | null
  | bool (b : Bool)
  | number (q : Rat)
  | str (s : String)
  | list (items : List Value)
  | object (fields : List (String × Value))

inductive Lexeme where
  /-- A bracket, a brace, a colon or a comma. -/
  | mark (c : Char)
  | null
  | bool (b : Bool)
  | number (q : Rat)
  | str (s : String)
  deriving DecidableEq

namespace Value

mutual

def lexemes : Value → List Lexeme
  | null => [.null]
  | bool b => [.bool b]
  | number q => [.number q]
  | str s => [.str s]
  | list vs => .mark '[' :: [.mark ','].intercalate (itemLexemes vs) ++ [.mark ']']
  | object fs => .mark '\x7b' :: [.mark ','].intercalate (fieldLexemes fs) ++ [.mark '\x7d']

def itemLexemes : List Value → List (List Lexeme)
  | [] => []
  | v :: vs => v.lexemes :: itemLexemes vs

def fieldLexemes : List (String × Value) → List (List Lexeme)
  | [] => []
  | (key, v) :: fs => (.str key :: .mark ':' :: v.lexemes) :: fieldLexemes fs

end

end Value

/-! ### Spellings of strings -/

/-- Letters behind a backslash, and what they stand for. -/
def escapes : List (Char × Char) := [
  ('"', '"'), ('\\', '\\'), ('/', '/'), ('b', '\x08'), ('f', '\x0c'), ('n', '\n'), ('r', '\r'),
  ('t', '\t')]

/-- Four hexadecimal digits, in either case. -/
def SpellsCode (ds : List Char) (n : Nat) : Prop := ds.length = 4 ∧ Numeral.Spells 16 ds n

/-- The spellings of a character inside a string. -/
inductive SpellsChar : Char → List Char → Prop where
  | plain {c : Char} (hcontrol : 0x20 ≤ c.toNat) (hquote : c ≠ '"') (hslash : c ≠ '\\') :
    SpellsChar c [c]
  | escape {e c : Char} (h : (e, c) ∈ escapes) : SpellsChar c ['\\', e]
  | code {c : Char} {ds : List Char} (h : SpellsCode ds c.toNat) : SpellsChar c ('\\' :: 'u' :: ds)
  /-- A character beyond the codes of four digits, as two codes that stand for no character. -/
  | pair {c : Char} {ds ds' : List Char} {hi lo : Nat} (hhi : hi < 0x400) (hlo : lo < 0x400)
    (hds : SpellsCode ds (0xD800 + hi)) (hds' : SpellsCode ds' (0xDC00 + lo))
    (hc : c.toNat = 0x10000 + hi * 0x400 + lo) :
    SpellsChar c ('\\' :: 'u' :: ds ++ '\\' :: 'u' :: ds')

/-- The spellings of a text, without the quotes around it. -/
def SpellsText (cs text : List Char) : Prop :=
  ∃ parts, List.Forall₂ SpellsChar cs parts ∧ text = parts.flatten

/-! ### Spellings of numbers -/

/-- The number `m` with its decimal point moved by `e` places. -/
def scale (m e : Int) : Rat := mkRat (m * Nat.pow 10 e.toNat) (Nat.pow 10 (-e).toNat)

/-- One digit at least. -/
def SpellsDigits (ds : List Char) (n : Nat) : Prop := ds ≠ [] ∧ Numeral.Spells 10 ds n

/-- Only zero starts with a zero. -/
def SpellsWhole (ds : List Char) (n : Nat) : Prop :=
  SpellsDigits ds n ∧ (ds.head? = some '0' → ds = ['0'])

/-- What may stand behind the point: digits, and how many they are. -/
inductive SpellsFraction : List Char → Nat → Nat → Prop where
  | none : SpellsFraction [] 0 0
  | digits {ds : List Char} {n : Nat} (h : SpellsDigits ds n) :
    SpellsFraction ('.' :: ds) n ds.length

inductive SpellsExponent : List Char → Int → Prop where
  | none : SpellsExponent [] 0
  | unsigned {e : Char} {ds : List Char} {n : Nat} (he : e = 'e' ∨ e = 'E')
    (h : SpellsDigits ds n) : SpellsExponent (e :: ds) n
  | plus {e : Char} {ds : List Char} {n : Nat} (he : e = 'e' ∨ e = 'E')
    (h : SpellsDigits ds n) : SpellsExponent (e :: '+' :: ds) n
  | minus {e : Char} {ds : List Char} {n : Nat} (he : e = 'e' ∨ e = 'E')
    (h : SpellsDigits ds n) : SpellsExponent (e :: '-' :: ds) (-n)

/-- A number without a sign: its digits, and the place of its point. -/
def SpellsUnsigned (cs : List Char) (m : Nat) (e : Int) : Prop :=
  ∃ ws fs es w f k x, cs = ws ++ fs ++ es ∧ SpellsWhole ws w ∧ SpellsFraction fs f k ∧
    SpellsExponent es x ∧ m = w * Nat.pow 10 k + f ∧ e = x - k

inductive SpellsNumber : List Char → Rat → Prop where
  | unsigned {cs : List Char} {m : Nat} {e : Int} (h : SpellsUnsigned cs m e) :
    SpellsNumber cs (scale m e)
  | negative {cs : List Char} {m : Nat} {e : Int} (h : SpellsUnsigned cs m e) :
    SpellsNumber ('-' :: cs) (scale (-m) e)

/-! ### Documents -/

/-- White space between lexemes. -/
def isSpace (c : Char) : Bool := c ∈ [' ', '\t', '\n', '\r']

def marks : List Char := ['[', ']', '\x7b', '\x7d', ':', ',']

/-- Characters of names and numbers. -/
def inWord (c : Char) : Bool := c.isAlpha || c.isDigit || c ∈ ['+', '-', '.']

/-- Lexemes without a mark at their end: what follows does not go on with them. -/
inductive SpellsWord : Lexeme → List Char → Prop where
  | null : SpellsWord .null ['n', 'u', 'l', 'l']
  | yes : SpellsWord (.bool true) ['t', 'r', 'u', 'e']
  | no : SpellsWord (.bool false) ['f', 'a', 'l', 's', 'e']
  | number {cs : List Char} {q : Rat} (h : SpellsNumber cs q) : SpellsWord (.number q) cs

/-- No word goes on at the start of the text. -/
def EndsWord (cs : List Char) : Prop := ∀ c ∈ cs.head?, inWord c = false

/-- The text is the lexemes in their order, with white space anywhere between them. -/
inductive Written : List Lexeme → List Char → Prop where
  | nil : Written [] []
  | space {c : Char} {ls : List Lexeme} {cs : List Char} (hc : isSpace c = true)
    (h : Written ls cs) : Written ls (c :: cs)
  | mark {c : Char} {ls : List Lexeme} {cs : List Char} (hc : c ∈ marks) (h : Written ls cs) :
    Written (.mark c :: ls) (c :: cs)
  | str {s : String} {body : List Char} {ls : List Lexeme} {cs : List Char}
    (hs : SpellsText s.toList body) (h : Written ls cs) :
    Written (.str s :: ls) ('"' :: body ++ '"' :: cs)
  | word {l : Lexeme} {w : List Char} {ls : List Lexeme} {cs : List Char} (hw : SpellsWord l w)
    (hend : EndsWord cs) (h : Written ls cs) : Written (l :: ls) (w ++ cs)

/-- The text is a document that says `v`. -/
def Document (v : Value) (text : List Char) : Prop := Written v.lexemes text

end MemLint.Report.Json
