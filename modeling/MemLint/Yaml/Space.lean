/-! White space in a YAML text, and how it is folded in a scalar that spans lines. -/

namespace MemLint.Yaml

def isBlank (c : Char) : Bool := c = ' ' || c = '\t'

/-- The end of a line, after `unified`. -/
def isEnd (c : Char) : Bool :=
  c = '\n' || c.toNat = 0x85 || c.toNat = 0x2028 || c.toNat = 0x2029

def isSpace (c : Char) : Bool := isBlank c || isEnd c

/-- White space comes next, or nothing at all. -/
def spaceNext (cs : List Char) : Bool := cs.head?.all isSpace

/-- The text without carriage returns: one with or without a newline behind it counts as a
newline. -/
def unified : List Char → List Char
  | [] => []
  | '\r' :: '\n' :: cs => '\n' :: unified cs
  | c :: cs => (if c = '\r' then '\n' else c) :: unified cs

/-- A part of a scalar as it is written. -/
inductive Part where
  | char (c : Char)
  /-- A character that is kept whatever it is. -/
  | escaped (c : Char)
  /-- An end of a line that is escaped. -/
  | joint
  deriving DecidableEq, Repr

/-- White space between two other characters. -/
structure Gap where
  /-- It starts with an end of a line that is escaped. -/
  joined : Bool := false
  blanks : List Char := []
  ends : List Char := []

namespace Gap

/-- The gap with one more character. Blanks count only in front of the first end of a line. Every
end counts as a newline, but for the line and paragraph separators. -/
def add (g : Gap) (c : Char) : Gap :=
  if isEnd c then { g with ends := g.ends ++ [if c.toNat = 0x85 then '\n' else c] }
  else if g.joined || !g.ends.isEmpty then g
  else { g with blanks := g.blanks ++ [c] }

/-- What the gap stands for: one newline is a space, and of several newlines the first is
dropped. -/
def text (g : Gap) : List Char :=
  match g.ends with
  | [] => g.blanks
  | e :: es =>
    if g.joined then e :: es
    else if e ≠ '\n' then e :: es
    else if es.isEmpty then [' ']
    else es

end Gap

/-- The text of the parts of a scalar, after a gap. -/
def fold (g : Gap) : List Part → List Char
  | [] => g.text
  | .char c :: ps => if isSpace c then fold (g.add c) ps else g.text ++ c :: fold {} ps
  | .escaped c :: ps => g.text ++ c :: fold {} ps
  | .joint :: ps => g.text ++ fold { joined := true } ps

end MemLint.Yaml
