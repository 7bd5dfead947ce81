import MemLint.Report.Basic

/-! Reports as SARIF logs. A log has one run; its rules are the declared kinds, in the order of
their codes, so that the code of a kind is the index of its rule. Each result points at the whole
file and has the name that locates the diagnostic, if there is one, as a logical location. -/

namespace MemLint.Report

/-- What a rule says. -/
def ruleText : Diagnostic.Kind → String
  | .outOfBounds => "Array accessed outside its declared capacity"
  | .memoryLeak => "Allocation overwritten before it was freed"
  | .doubleFree => "Memory freed more than once"
  | .invalidFree => "Free of a pointer that was never allocated"
  | .uninitializedAccess => "Variable read before it was initialized"
  | .nullPointerDereference => "Dereference of a null or released pointer"
  | .incorrectNumberOfArguments => "Call with the wrong number of arguments"
  | .nonPointerArgumentForPointerParameter => "Non-pointer argument for a pointer parameter"
  | .unsupported => "Construct not modeled by a checker"
  | .other _ => ""

def textJson (s : String) : Json := .object [("text", .str s)]

def ruleJson (k : Diagnostic.Kind) : Json := .object [
  ("id", .str k.name), ("shortDescription", textJson (ruleText k))]

/-- A construct that no checker knows is worth a note only. -/
def level (k : Diagnostic.Kind) : String := if k = .unsupported then "note" else "error"

def logicalLocations (name : String) : List (String × Json) :=
  if name = "" then []
  else [("logicalLocations", .list [.object [("name", .str name), ("kind", .str "variable")]])]

def location (file : Text.Raw) (name : String) : Json := .object (
  ("physicalLocation", .object [("artifactLocation", .object [("uri", .str file)])])
    :: logicalLocations name)

def resultJson (file : Text.Raw) (d : Diagnostic) : Json := .object [
  ("ruleId", .str d.kind.name), ("ruleIndex", .int d.kind.code), ("level", .str (level d.kind)),
  ("message", textJson d.message), ("locations", .list [location file d.name]),
  ("properties", .object [("checker", .str d.checker)])]

def tool : Json := .object [("driver", .object [
  ("name", .str "safecpp"), ("rules", .list (Diagnostic.Kind.declared.map ruleJson))])]

def sarif (r : Report) : Json := .object [
  ("version", .str "2.1.0"),
  ("$schema", .str "https://json.schemastore.org/sarif-2.1.0.json"),
  ("runs", .list [.object [
    ("tool", tool), ("results", .list (r.diagnostics.map (resultJson r.file)))]])]

end MemLint.Report
