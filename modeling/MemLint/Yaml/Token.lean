import MemLint.Yaml.Cursor
import MemLint.Yaml.Plain
import MemLint.Yaml.Quoted

/-! The tokens of a YAML text. Outside brackets, tokens without a text of their own say where lists
and mappings start and end, which follows from the indents of the lines. A key shows as a key only
at the colon after it, so its token is put in front of it then. -/

namespace MemLint.Yaml

namespace Token

inductive Kind where
  | textEnd
  | documentStart
  | documentEnd
  /-- A list whose items have dashes starts. -/
  | listStart
  | mappingStart
  /-- The innermost list with dashes or mapping without braces ends. -/
  | blockEnd
  | openBracket
  | closeBracket
  | openBrace
  | closeBrace
  | comma
  | dash
  | key
  | value
  | scalar (s : Scalar)
  deriving DecidableEq, Repr

end Token

structure Token where
  kind : Token.Kind
  line : Nat
  deriving DecidableEq, Repr

/-- A place where a key may have started. -/
structure KeySpot where
  mark : Mark
  /-- Nothing else can stand there. -/
  required : Bool
  /-- How many tokens stand in front. -/
  before : Nat
  deriving DecidableEq, Repr

/-- A key and its colon are on one line and not further apart than this. -/
def keyReach : Nat := 1024

def KeySpot.reaches (k : KeySpot) (c : Cursor) : Bool :=
  k.mark.line = c.line && c.index ≤ k.mark.index + keyReach

/-- What has been read of a text. -/
structure Scanner where
  cursor : Cursor
  /-- The tokens, the latest first. -/
  tokens : List Token := []
  /-- The columns of the lists and mappings outside brackets, the innermost first. -/
  indents : List Nat := []
  /-- A key may start here, and outside brackets no tab may stand in front of the next token. -/
  keyAllowed : Bool := true
  /-- Where the last key may have started. -/
  spot : Option KeySpot := none
  /-- The same outside each bracket that is open, the innermost first. -/
  outer : List (Option KeySpot) := []
  /-- One character in front of each line does not count. -/
  slips : Bool := false

namespace Scanner

def inBrackets (s : Scanner) : Bool := !s.outer.isEmpty

def advance (s : Scanner) (n : Nat) : Scanner := { s with cursor := s.cursor.advance n }

def push (s : Scanner) (kind : Token.Kind) : Scanner :=
  { s with tokens := ⟨kind, s.cursor.line⟩ :: s.tokens }

/-- Puts a token behind the first `before` ones. -/
def insert (s : Scanner) (before : Nat) (t : Token) : Scanner :=
  { s with tokens := s.tokens.insertIdx (s.tokens.length - before) t }

/-! ### Keys -/

/-- No key has started, which fails if there has to be one. -/
def dropSpot? (s : Scanner) : Option Scanner :=
  if s.spot.any (·.required) then none else some { s with spot := none }

/-- A key may start here, if keys are allowed. Where an entry of a mapping starts it has to. -/
def markSpot? (s : Scanner) : Option Scanner :=
  if s.keyAllowed then do
    let required := !s.inBrackets && s.indents.head? = some s.cursor.column
    let t ← s.dropSpot?
    some { t with spot := some ⟨s.cursor.toMark, required, s.tokens.length⟩ }
  else some s

/-! ### Indents -/

/-- Opens a list or a mapping at a column, unless one is open there. -/
def indentTo (s : Scanner) (mark : Mark) (before : Nat) (kind : Token.Kind) : Scanner :=
  if s.inBrackets || s.indents.head?.any (mark.column ≤ ·) then s
  else { s.insert before ⟨kind, mark.line⟩ with indents := mark.column :: s.indents }

/-- Closes the lists and mappings at a column of at least `least`. -/
def dedent (s : Scanner) (least : Nat) : Scanner :=
  if s.inBrackets then s
  else
    let closed := s.indents.takeWhile (least ≤ ·)
    { s with
      tokens := closed.map (fun _ => ⟨.blockEnd, s.cursor.line⟩) ++ s.tokens
      indents := s.indents.drop closed.length }

/-! ### The tokens -/

/-- Where white space and comments start. -/
def start (s : Scanner) : Cursor :=
  if s.slips ∧ s.cursor.column = 0 then s.cursor.slip else s.cursor

theorem length_start_le (s : Scanner) : s.start.rest.length ≤ s.cursor.rest.length := by
  unfold start
  split
  · rw [Cursor.rest_slip, List.length_tail]
    omega
  · exact Nat.le_refl _

/-- Passes over white space and comments. Outside brackets, a key may start on a new line. -/
def settle (s : Scanner) : Scanner :=
  let c := s.start.advance (leadSpan (s.inBrackets || !s.keyAllowed) s.start.rest)
  match _h : c.rest with
  | [] => { s with cursor := c }
  | e :: _ =>
    if isEnd e then
      settle { s with cursor := c.next, keyAllowed := s.keyAllowed || !s.inBrackets }
    else { s with cursor := c }
termination_by s.cursor.rest.length
decreasing_by
  have hs := s.length_start_le
  rw [Cursor.rest_advance] at _h
  have hl := congrArg List.length _h
  simp only [Cursor.rest_next, Cursor.rest_advance, List.length_tail, List.length_drop,
    List.length_cons] at hl ⊢
  omega

/-- A token of `n` characters at the cursor, and the comment that may follow it. -/
def take (s : Scanner) (kind : Token.Kind) (n : Nat) : Scanner :=
  let t := (s.push kind).advance n
  t.advance (tailSpan t.cursor.rest)

def openWith? (s : Scanner) (kind : Token.Kind) : Option Scanner := do
  let s ← s.markSpot?
  some ({ s with spot := none, outer := s.spot :: s.outer, keyAllowed := true }.take kind 1)

def closeWith? (s : Scanner) (kind : Token.Kind) : Option Scanner := do
  let s ← s.dropSpot?
  let s := match s.outer with
    | [] => s
    | spot :: outer => { s with spot, outer }
  some ({ s with keyAllowed := false }.take kind 1)

def comma? (s : Scanner) : Option Scanner := do
  let s ← s.dropSpot?
  some ({ s with keyAllowed := true }.take .comma 1)

/-- A mark at the front of an item or of a key. Outside brackets it stands only where a key may, and
it opens a list or a mapping. -/
def lead? (s : Scanner) (opens : Token.Kind) : Option Scanner :=
  if s.inBrackets then s.dropSpot?
  else if s.keyAllowed then (s.indentTo s.cursor.toMark s.tokens.length opens).dropSpot?
  else none

/-- A dash. A comment after it belongs to what follows. -/
def dash? (s : Scanner) : Option Scanner := do
  let s ← s.lead? .listStart
  some (({ s with keyAllowed := true }.push .dash).advance 1)

/-- The mark of a key. -/
def key? (s : Scanner) : Option Scanner := do
  let s ← s.lead? .mappingStart
  some ({ s with keyAllowed := !s.inBrackets }.take .key 1)

/-- The colon after a key, or one without a key in front. -/
def value? (s : Scanner) : Option Scanner :=
  match s.spot.filter (·.reaches s.cursor) with
  | some k =>
    let s := s.insert k.before ⟨.key, k.mark.line⟩
    let s := s.indentTo k.mark k.before .mappingStart
    some ({ s with spot := none, keyAllowed := false }.take .value 1)
  | none => do
    let s ← s.dropSpot?
    if s.inBrackets then some ({ s with keyAllowed := false }.take .value 1)
    else if s.keyAllowed then
      some ((s.indentTo s.cursor.toMark s.tokens.length .mappingStart).take .value 1)
    else none

/-- A marker at the front of a line in a text. -/
def hasMarker : List Char → Bool
  | [] => false
  | c :: cs => (isEnd c && isMarker cs) || hasMarker cs

def quoted? (s : Scanner) : Option Scanner := do
  let s ← s.markSpot?
  let (scalar, rest) ← Yaml.quoted? s.cursor.rest
  let n := s.cursor.rest.length - rest.length
  if hasMarker (s.cursor.rest.take n) then none
  else some ({ s with keyAllowed := false }.take (.scalar scalar) n)

/-- A plain scalar. After the end of a line a key may start. -/
def plain? (s : Scanner) : Option Scanner := do
  let s ← s.markSpot?
  let least := (s.indents.head?.map (· + 1)).getD 0
  let (n, place) ← plainSpan? s.inBrackets least s.cursor.column .word s.cursor.rest
  let kind := .scalar (.ofPlain (s.cursor.rest.take n))
  if place = .margin then some (({ s with keyAllowed := true }.push kind).advance n)
  else some ({ s with keyAllowed := false }.take kind n)

/-- The marker of a document. -/
def marker? (s : Scanner) (c : Char) : Option Scanner := do
  let s ← (s.dedent 0).dropSpot?
  some (({ s with keyAllowed := false }.push
    (if c = '-' then .documentStart else .documentEnd)).advance 3)

/-- Characters that start no plain scalar. -/
def reserved : List Char := [
  ',', '[', ']', '\x7b', '\x7d', '#', '&', '*', '!', '|', '>', '"', apostrophe, '%', '@', '\x60']

/-- The token that starts with a character. -/
def token? (s : Scanner) (c : Char) (cs : List Char) : Option Scanner :=
  let alone := spaceNext cs
  if s.cursor.column = 0 ∧ c = '%' then none
  else if s.cursor.column = 0 ∧ isMarker (c :: cs) then s.marker? c
  else if c = '[' then s.openWith? .openBracket
  else if c = '\x7b' then s.openWith? .openBrace
  else if c = ']' then s.closeWith? .closeBracket
  else if c = '\x7d' then s.closeWith? .closeBrace
  else if c = ',' then s.comma?
  else if c = '-' ∧ alone then s.dash?
  else if c = '?' ∧ (s.inBrackets ∨ alone) then s.key?
  else if c = ':' ∧ (s.inBrackets ∨ alone) then s.value?
  else if c = '"' ∨ c = apostrophe then s.quoted?
  else if isSpace c ∨ c ∈ reserved then none
  else s.plain?

/-- The tokens in front of a place where the text cannot be read on. The last two of them do not
count, and neither do those from one on that may still be a key. -/
def cut (s : Scanner) : List Token :=
  let spots := (s.spot :: s.outer).filterMap id |>.filter fun k => k.required || k.reaches s.cursor
  s.tokens.reverse.take (spots.foldl (fun n k => min n k.before) (s.tokens.length - 2))

/-- All tokens, from where the scanner stands. Those of a text that can be read to its end have
`textEnd` for the last one. -/
def run (s : Scanner) : List Token :=
  let t := s.settle
  match t.cursor.rest with
  | [] =>
    match (t.dedent 0).dropSpot? with
    | none => s.cut
    | some u => (u.push .textEnd).tokens.reverse
  | c :: cs =>
    match (t.dedent (t.cursor.column + 1)).token? c cs with
    | none => s.cut
    | some u => if u.cursor.rest.length < s.cursor.rest.length then u.run else s.cut
termination_by s.cursor.rest.length

end Scanner

/-- A mark of the order of bytes. -/
def isOrderMark (c : Char) : Bool := c.toNat = 0xFEFF

/-- The tokens of a text. One mark of the order of bytes in front does not count. With a second one
the first character of each line does not count either, where a token may start. -/
def tokens (text : List Char) : List Token :=
  let cs := if text.head?.any isOrderMark then text.tail else text
  Scanner.run { cursor := { rest := cs }, slips := cs.head?.any isOrderMark }

end MemLint.Yaml
