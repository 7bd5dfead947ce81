import MemLint.Token
import MemLint.Text.Blank
import MemLint.Text.Letter
import MemLint.Text.Digit

/-! The scanner. A source text is cut into blanks and comments, which are skipped, and tokens. Each
step looks at the first character and says how many of the characters after it belong to the
same piece, so that the pieces cover the text one after another. -/

namespace MemLint.Token

/-! ### Blanks and comments -/

/-- The number of characters before the next line break. -/
def lineLength (cs : List Char) : Nat := (cs.takeWhile (· ≠ '\n')).length

/-- The length of a comment after its opening mark, up to and with the closing one, or to the end
of the text. `n` counts what has been passed. -/
def commentLength (n : Nat) : List Char → Nat
  | '*' :: '/' :: _ => n + 2
  | _ :: cs => commentLength (n + 1) cs
  | [] => n

/-- How many characters after `c` belong to the blank, comment or `#` line that `c` starts, if it
starts one. `fresh` says that only blanks stand before `c` on its line. -/
def skipped? (fresh : Bool) (c : Char) (cs : List Char) : Option Nat :=
  if Text.isBlank c then some 0
  else if c = '#' ∧ fresh then some (lineLength cs)
  else if c = '/' then
    match cs with
    | '/' :: _ => some (lineLength cs)
    | '*' :: ds => some (commentLength 1 ds)
    | _ => none
  else none

/-- Whether only blanks stand on the line so far, after one more character. -/
def freshStep (fresh : Bool) (c : Char) : Bool :=
  c == '\n' || (fresh && Text.isBlank c)

def freshAfter (fresh : Bool) (text : List Char) : Bool := text.foldl freshStep fresh

/-! ### One token -/

/-- A token that starts with a given character: its kind, the text it is read as, and how many
further characters it takes. -/
structure Piece where
  kind : Kind
  lex : List Char
  more : Nat

/-- The inside of a literal: what it stands for, in reverse before `done`, and how many characters
it takes with its closing quote, on top of `n`. A backslash makes `n`, `t` and `0` stand for a line
break, a tab and NUL and any other character for itself. Without its closing quote a literal ends
before the line break, or with the text. -/
def literalBody (quote : Char) (done : List Char) (n : Nat) : List Char → List Char × Nat
  | [] => (done.reverse, n)
  | '\\' :: c :: cs =>
    let meant := match c with
      | 'n' => '\n'
      | 't' => '\t'
      | '0' => Char.ofNat 0
      | c => c
    literalBody quote (meant :: done) (n + 2) cs
  | ['\\'] => (done.reverse, n + 1)
  | c :: cs =>
    if c = '\n' then (done.reverse, n)
    else if c = quote then (done.reverse, n + 1)
    else literalBody quote (c :: done) (n + 1) cs

def isWordChar (c : Char) : Bool := Text.isLetter c || Text.isDigit c || c == '_'

def isNumberChar (c : Char) : Bool := Text.isDigit c || Text.isLetter c || c == '.'

/-- A sign of one character, or of two if `second` follows. -/
def sign (first second : Char) (single double : Kind) : List Char → Piece
  | c :: _ => if c = second then ⟨double, [first, second], 1⟩ else ⟨single, [first], 0⟩
  | [] => ⟨single, [first], 0⟩

/-- The token that starts with `c`. -/
def piece (c : Char) (cs : List Char) : Piece :=
  match c with
  | '(' => ⟨.lparen, [c], 0⟩
  | ')' => ⟨.rparen, [c], 0⟩
  | '{' => ⟨.lbrace, [c], 0⟩
  | '}' => ⟨.rbrace, [c], 0⟩
  | '[' => ⟨.lbrack, [c], 0⟩
  | ']' => ⟨.rbrack, [c], 0⟩
  | ';' => ⟨.semi, [c], 0⟩
  | ',' => ⟨.comma, [c], 0⟩
  | '.' => ⟨.dot, [c], 0⟩
  | '~' => ⟨.tilde, [c], 0⟩
  | '%' => ⟨.percent, [c], 0⟩
  | ':' => sign c ':' .colon .scope cs
  | '=' => sign c '=' .assign .eqEq cs
  | '!' => sign c '=' .bang .neq cs
  | '<' => sign c '=' .lt .le cs
  | '>' => sign c '=' .gt .ge cs
  | '*' => sign c '=' .star .mulAssign cs
  | '/' => sign c '=' .slash .divAssign cs
  | '&' => sign c '&' .amp .andAnd cs
  | '|' => sign c '|' .illegal .orOr cs
  | '+' =>
    match cs with
    | '+' :: _ => ⟨.inc, [c, '+'], 1⟩
    | _ => sign c '=' .plus .addAssign cs
  | '-' =>
    match cs with
    | '-' :: _ => ⟨.dec, [c, '-'], 1⟩
    | '>' :: _ => ⟨.arrow, [c, '>'], 1⟩
    | _ => sign c '=' .minus .subAssign cs
  | '"' => let (lex, n) := literalBody '"' [] 0 cs; ⟨.string, lex, n⟩
  | '\'' => let (lex, n) := literalBody '\'' [] 0 cs; ⟨.char, lex, n⟩
  | _ =>
    if Text.isLetter c || c == '_' then
      let word := cs.takeWhile isWordChar
      ⟨.ofWord (String.ofList (c :: word)), c :: word, word.length⟩
    else if Text.isDigit c then
      let number := cs.takeWhile isNumberChar
      ⟨if '.' ∈ number then .float else .int, c :: number, number.length⟩
    else ⟨.illegal, [c], 0⟩

/-! ### The whole text -/

/-- The tokens of a text: all but the end, and the place of the end. -/
structure Scanned where
  tokens : List Token
  endPos : Pos
  deriving DecidableEq, Repr

/-- The tokens of `text`, which follows `p`, after those in `done`, which stand in reverse. -/
def scanFrom (done : List Token) (p : Pos) (fresh : Bool) : List Char → Scanned
  | [] => ⟨done.reverse, p⟩
  | c :: cs =>
    match skipped? fresh c cs with
    | some n =>
      let text := c :: cs.take n
      scanFrom done (p.after text) (freshAfter fresh text) (cs.drop n)
    | none =>
      let t := piece c cs
      let text := c :: cs.take t.more
      let token := ⟨t.kind, String.ofList t.lex, p.step c⟩
      scanFrom (token :: done) (p.after text) (freshAfter fresh text) (cs.drop t.more)
termination_by text => text.length
decreasing_by all_goals simp only [List.length_cons, List.length_drop]; omega

/-- A NUL ends the text; it takes a column of its own. -/
def scan (text : List Char) : Scanned :=
  let seen := text.takeWhile (· ≠ Char.ofNat 0)
  let s := scanFrom [] .start true seen
  if seen.length < text.length then { s with endPos := s.endPos.step (Char.ofNat 0) } else s

/-- The token that marks the end of the text. -/
def Scanned.eof (s : Scanned) : Token := ⟨.eof, "", s.endPos⟩

/-- All tokens, with the one at the end. -/
def Scanned.all (s : Scanned) : List Token := s.tokens ++ [s.eof]

end MemLint.Token
