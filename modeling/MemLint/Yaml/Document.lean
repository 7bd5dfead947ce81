import MemLint.Yaml.Node

/-! The first document of a YAML text. -/

namespace MemLint.Yaml

/-- Characters that a text may hold. -/
def isAllowed (c : Char) : Bool :=
  if c.toNat < 0xA0 then
    c = '\t' || c = '\n' || c = '\r' || (0x20 ≤ c.toNat && c.toNat < 0x7F) || c.toNat = 0x85
  else c.toNat ≠ 0xFFFE && c.toNat ≠ 0xFFFF

/-- The node of the first document, if there is a document. One token has to follow it. -/
def Node.first? : List Token → Option (Option Node)
  | [] => none
  | t :: ts =>
    if t.kind = .textEnd then some none
    else do
      let (n, r) ←
        if t.kind = .documentStart then
          (readUnless? endsDocument .block ts).map fun (n, r) => (n, r.1)
        else (read? .block (t :: ts)).map fun (n, r) => (n, r.1)
      if r.isEmpty then none else some (some n)

/-- Reads the first document of a text, if it has one. -/
def Node.ofText? (text : String) : Option (Option Node) :=
  let cs := text.toList
  if cs.all isAllowed then first? (tokens (unified cs)) else none

end MemLint.Yaml
