import MemLint.Yaml.Document
import MemLint.Text.Bytes
import MemLint.Text.Quoted

/-! The layout of a settings document: which keys it may have and what stands under them. Every key
is optional, and null is as good as nothing. -/

namespace MemLint.Settings

open Yaml

/-- What stands where something else should. -/
inductive Shape where
  | scalar (s : Scalar)
  | list
  | mapping
  deriving DecidableEq, Repr

def Shape.of : Node → Shape
  | .scalar _ s => scalar s
  | .list _ _ => list
  | .mapping _ _ => mapping

/-- What is wrong with a part of a settings document. -/
inductive Problem where
  | unknownKey (key : String)
  | repeatedKey (key : String) (first : Nat)
  | wrongType (found : Shape) (expected : String)
  deriving DecidableEq, Repr

namespace Problem

/-- A text in a message: the first seven bytes of a text of more than ten. -/
def excerpt (s : String) : String :=
  if s.utf8ByteSize ≤ 10 then s
  else String.ofList (Text.decode (s.toUTF8.toList.take 7)) ++ "..."

def describe : Shape → String
  | .list => "!!seq"
  | .mapping => "!!map"
  | .scalar s => s!"{s.meaning.tag} \x60{excerpt s.text}\x60"

def message : Problem → String
  | unknownKey key => s!"field {key} not found in type config.file"
  | repeatedKey key first => s!"mapping key {Text.quoted key} already defined at line {first}"
  | wrongType found expected => s!"cannot unmarshal {describe found} into {expected}"

end Problem

/-- Problems with the lines where they show. -/
abbrev Problems := List (Nat × Problem)

/-- A key with its value. -/
abbrev Entry := Node × Node

/-- The text of a key. -/
def keyText : Node → String
  | .scalar _ s => s.text
  | _ => ""

/-- Two keys are the same if they are written with the same text. Lists as keys are all the same,
and so are mappings. -/
def sameKey : Node → Node → Bool
  | .scalar _ s, .scalar _ t => s.text = t.text
  | .list _ _, .list _ _ => true
  | .mapping _ _, .mapping _ _ => true
  | _, _ => false

/-- Every pair of entries with one key. -/
def repeated : List Entry → Problems
  | [] => []
  | (key, _) :: es =>
    (es.filter (sameKey key ·.1)).map
      (fun e => (e.1.line, .repeatedKey (keyText e.1) key.line)) ++ repeated es

/-- The problems with a node that is not what is expected. In a mapping, keys that repeat count
more. -/
def mismatch (n : Node) (expected : String) : Problems :=
  let wrong := [(n.line, .wrongType (.of n) expected)]
  match n with
  | .mapping _ es => if repeated es = [] then wrong else repeated es
  | _ => wrong

/-- What a settings document says. -/
structure Layout where
  allocators : List String := []
  deallocators : List String := []
  nulls : List String := []
  maxDepth : Int := 0
  checkers : List String := []
  format : String := ""
  deriving DecidableEq, Repr

namespace Layout

/-- The integer of a scalar, if it fits a signed 64-bit word. Of a floating-point number it is the
whole part. -/
def int? (s : Scalar) : Option Int :=
  match s.meaning with
  | .int n => if n ≤ Numeral.maxInt64 then some n else none
  | .float word => word
  | _ => none

def isNull : Node → Bool
  | .scalar _ s => s.meaning = .null
  | _ => false

/-- The text of a scalar. -/
def text? : Node → Option String
  | .scalar _ s => some s.text
  | _ => none

/-- The texts of a list, and the problems with items that have none. Null is no item. -/
def texts (items : List Node) : List String × Problems :=
  let items := items.filter (!isNull ·)
  (items.filterMap text?,
    (items.filter (text? · |>.isNone)).flatMap (mismatch · "string"))

/-- The layout with one more entry, and the problems with that. -/
def add (l : Layout) : Entry → Layout × Problems
  | (key, value) =>
    let list (f : List String → Layout) : Layout × Problems :=
      match value with
      | .list _ items => let (ts, ps) := texts items; (f ts, ps)
      | _ => (l, mismatch value "[]string")
    let scalar (expected : String) (f : Scalar → Option Layout) : Layout × Problems :=
      match value with
      | .scalar _ s => ((f s).map (·, [])).getD (l, mismatch value expected)
      | _ => (l, mismatch value expected)
    let known : Option (Layout × Problems) :=
      match keyText key with
      | "allocators" => some (list fun ts => { l with allocators := ts })
      | "deallocators" => some (list fun ts => { l with deallocators := ts })
      | "nulls" => some (list fun ts => { l with nulls := ts })
      | "max_depth" => some (scalar "int" fun s => (int? s).map fun n => { l with maxDepth := n })
      | "checkers" => some (list fun ts => { l with checkers := ts })
      | "format" => some (scalar "string" fun s => some { l with format := s.text })
      | _ => none
    match key, known with
    | .scalar line s, none => (l, [(line, .unknownKey s.text)])
    | .scalar _ _, some r => if isNull value then (l, []) else r
    | _, _ => (l, mismatch key "string")

/-- The layout with further entries, and all problems with them. -/
def addAll (l : Layout) : List Entry → Layout × Problems
  | [] => (l, [])
  | e :: es =>
    let (l, ps) := l.add e
    let (l, qs) := l.addAll es
    (l, ps ++ qs)

/-- Why a document has no layout. -/
inductive Refusal where
  | unreadable
  /-- Something is merged that is no mapping. -/
  | badMerge
  | problems (ps : Problems)
  deriving DecidableEq, Repr

def Refusal.message : Refusal → String
  | unreadable | badMerge => "yaml: not a settings document"
  | problems ps =>
    "yaml: unmarshal errors:" ++
      String.join (ps.map fun (line, p) => s!"\n  line {line}: {p.message}")

/-- The key asks for mappings to be merged. -/
def isMerge : Entry → Bool
  | (.scalar _ s, _) => s.meaning = .merge
  | _ => false

/-- A mapping, or a list of mappings, that has no entry. -/
def isEmpty : Node → Bool
  | .list _ [] | .mapping _ [] => true
  | _ => false

/-- Repeated keys are reported before anything else is looked at. An entry whose key is null is
passed over. Only what is empty can be merged. -/
def ofEntries (es : List Entry) : Except Refusal Layout :=
  if repeated es ≠ [] then .error (.problems (repeated es))
  else if es.any fun e => isMerge e && !isEmpty e.2 then .error .badMerge
  else match addAll {} (es.filter fun e => !isMerge e && !isNull e.1) with
    | (l, []) => .ok l
    | (_, ps) => .error (.problems ps)

/-- The layout of a document. One that is null says nothing. -/
def ofNode (n : Node) : Except Refusal Layout :=
  match n with
  | .mapping _ es => ofEntries es
  | _ => if isNull n then .ok {} else .error (.problems (mismatch n "config.file"))

/-- The layout of a text, if it holds a document. -/
def ofText (text : String) : Except Refusal (Option Layout) :=
  match Yaml.Node.ofText? text with
  | none => .error .unreadable
  | some none => .ok none
  | some (some n) => (ofNode n).map some

/-- The layout of a file, which has to be in UTF-8. -/
def ofBytes (bytes : List UInt8) : Except Refusal (Option Layout) :=
  if none ∈ Text.units bytes then .error .unreadable
  else ofText (String.ofList (Text.decode bytes))

end Layout

end MemLint.Settings
