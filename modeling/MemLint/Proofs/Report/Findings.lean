import Mathlib.Data.List.Forall2
import MemLint.Proofs.Report.Faithful

/-! A SARIF log tells the same as a JSON report. Each of its results points at a rule of its own run
and at the file, and from the results the diagnostics can be read back, as they can be from the JSON
report. As there, the encoder may be any that does what is known of encoders. -/

namespace MemLint.Report

open Json

/-! ### Parts of a document -/

namespace Json.Value

/-- The value of a key, if one field alone has it. -/
def field? (key : String) : Value → Option Value
  | object fs =>
    match fs.filter (·.1 = key) with
    | [f] => some f.2
    | _ => none
  | _ => none

/-- The value behind a path of keys. -/
def at? : List String → Value → Option Value
  | [], v => some v
  | key :: keys, v => (v.field? key).bind (at? keys)

def str? : Value → Option String
  | str s => some s
  | _ => none

def items? : Value → Option (List Value)
  | list vs => some vs
  | _ => none

/-- The text behind a path of keys. -/
def textAt? (keys : List String) (v : Value) : Option String := (v.at? keys).bind str?

theorem textAt?_of_at? {keys : List String} {v : Value} {s : String}
    (h : v.at? keys = some (str s)) : v.textAt? keys = some s := by
  rw [textAt?, h]
  rfl

/-- The only item of a list. -/
def only? : Value → Option Value
  | list [v] => some v
  | _ => none

end Json.Value

/-! ### Reading diagnostics back -/

/-- The diagnostic that an item of a JSON report tells of. -/
def ofItem? (v : Value) : Option Diagnostic := do
  let checker ← v.textAt? ["checker"]
  let kind ← Diagnostic.Kind.ofName? (← v.textAt? ["kind"])
  let name ← v.textAt? ["name"]
  let message ← v.textAt? ["message"]
  return ⟨checker, kind, name, message⟩

/-- The diagnostics that a JSON report tells of. -/
def ofReport? (v : Value) : Option (List Diagnostic) := do
  (← (← v.field? "diagnostics").items?).mapM ofItem?

/-- The name in a location of a SARIF result. Without a logical location it is empty. -/
def nameIn? (location : Value) : Option String :=
  match location.field? "logicalLocations" with
  | none => some ""
  | some logical => do (← logical.only?).textAt? ["name"]

/-- The diagnostic that a result of a SARIF log tells of. -/
def ofResult? (v : Value) : Option Diagnostic := do
  let checker ← v.textAt? ["properties", "checker"]
  let kind ← Diagnostic.Kind.ofName? (← v.textAt? ["ruleId"])
  let name ← nameIn? (← (← v.field? "locations").only?)
  let message ← v.textAt? ["message", "text"]
  return ⟨checker, kind, name, message⟩

/-- The diagnostics that a SARIF log with one run tells of. -/
def ofLog? (v : Value) : Option (List Diagnostic) := do
  let run ← (← v.field? "runs").only?
  (← (← run.field? "results").items?).mapM ofResult?

/-- A result of a run with the given rules tells of a diagnostic in the file. -/
structure Tells (file : String) (rules : List Value) (d : Diagnostic) (result : Value) : Prop where
  ruleId : result.field? "ruleId" = some (.str d.kind.name)
  rule : ∃ (i : Nat) (rule : Value), result.field? "ruleIndex" = some (.number (.ofInt i)) ∧
    rules[i]? = some rule ∧ rule.field? "id" = result.field? "ruleId"
  level : result.field? "level" = some (.str (if d.kind = .unsupported then "note" else "error"))
  location : ∃ location, result.field? "locations" = some (.list [location]) ∧
    location.at? ["physicalLocation", "artifactLocation", "uri"] = some (.str file) ∧
    (location.field? "logicalLocations" = none ↔ d.name = "") ∧
    nameIn? location = some d.name
  message : result.at? ["message", "text"] = some (.str d.message)
  checker : result.at? ["properties", "checker"] = some (.str d.checker)

theorem mapM_eq_some_of_forall₂ {α β : Type} {f : β → Option α} {as : List α} {bs : List β}
    (h : as.Forall₂ (fun a b => f b = some a) bs) : bs.mapM f = some as := by
  induction h with
  | nil => rfl
  | cons ha _ ih => simp [ha, ih]

theorem ofItem?_saidOf {d : Diagnostic} (h : d.kind ∈ Diagnostic.Kind.declared) :
    ofItem? (saidOf d) = some d := by
  simp [ofItem?, saidOf, Value.textAt?, Value.at?, Value.field?, Value.str?,
    Diagnostic.Kind.ofName?_name d.kind h]

/-- The rules of a run, in the order of the codes of their kinds. -/
def rules : List Value := Diagnostic.Kind.declared.map fun k => (ruleJson k).value

theorem rules_code {k : Diagnostic.Kind} (h : k ∈ Diagnostic.Kind.declared) :
    rules[k.code]? = some (ruleJson k).value := by
  -- the declared kinds stand in the order of their codes
  have hcode : ∀ k ∈ Diagnostic.Kind.declared, Diagnostic.Kind.declared[k.code]? = some k := by
    decide
  rw [rules, List.getElem?_map, hcode k h]
  rfl

@[simp] theorem value_textJson (s : String) : (textJson s).value = .object [("text", .str s)] := by
  simp [textJson, Json.value]

theorem uri_location (file : Text.Raw) (name : String) :
    (location file name).value.at? ["physicalLocation", "artifactLocation", "uri"]
      = some (.str file.text) := by
  by_cases h : name = "" <;>
    simp [location, logicalLocations, h, Json.value, Value.at?, Value.field?]

theorem logicalLocations_eq_none (file : Text.Raw) (name : String) :
    (location file name).value.field? "logicalLocations" = none ↔ name = "" := by
  by_cases h : name = "" <;>
    simp [location, logicalLocations, h, Json.value, Value.field?]

theorem nameIn?_location (file : Text.Raw) (name : String) :
    nameIn? (location file name).value = some name := by
  by_cases h : name = "" <;>
    simp [nameIn?, location, logicalLocations, h, Json.value, Value.textAt?, Value.at?,
      Value.field?, Value.only?, Value.str?]

theorem tells_result (file : Text.Raw) {d : Diagnostic}
    (h : d.kind ∈ Diagnostic.Kind.declared) :
    Tells file.text rules d (resultJson file d).value := by
  have hid : (resultJson file d).value.field? "ruleId" = some (.str d.kind.name) := by
    simp [resultJson, Json.value, Value.field?]
  constructor
  case ruleId => exact hid
  case rule =>
    refine ⟨d.kind.code, _, ?_, rules_code h, ?_⟩
    · simp [resultJson, Json.value, Value.field?]
    · rw [hid]
      simp [ruleJson, Json.value, Value.field?]
  case level => simp [resultJson, Json.value, Value.field?, level]
  case location =>
    refine ⟨(location file d.name).value, ?_, uri_location file d.name,
      logicalLocations_eq_none file d.name, nameIn?_location file d.name⟩
    simp [resultJson, Json.value, Value.field?]
  case message => simp [resultJson, Json.value, Value.at?, Value.field?]
  case checker => simp [resultJson, Json.value, Value.at?, Value.field?]

/-- What a result tells of can be read back. -/
theorem Tells.ofResult? {file : String} {rules : List Value} {d : Diagnostic} {result : Value}
    (h : Tells file rules d result) (hkind : d.kind ∈ Diagnostic.Kind.declared) :
    ofResult? result = some d := by
  obtain ⟨location, hlocation, -, -, hname⟩ := h.location
  have hid : result.at? ["ruleId"] = some (.str d.kind.name) := by
    simp [Value.at?, h.ruleId]
  simp [Report.ofResult?, Value.textAt?_of_at? h.checker, Value.textAt?_of_at? hid,
    Value.textAt?_of_at? h.message, Diagnostic.Kind.ofName?_name d.kind hkind, hlocation,
    Value.only?, hname]

theorem ofReport?_said {r : Report}
    (h : ∀ d ∈ r.diagnostics, d.kind ∈ Diagnostic.Kind.declared) :
    ofReport? (said r.file.text r.diagnostics) = some r.diagnostics := by
  have hitems : r.diagnostics.Forall₂ (fun d v => ofItem? v = some d)
      (r.diagnostics.map saidOf) :=
    List.forall₂_map_right_iff.2 (List.forall₂_same.2 fun d hd => ofItem?_saidOf (h d hd))
  simp [ofReport?, said, Value.field?, Value.items?, mapM_eq_some_of_forall₂ hitems]

/-- A run of a SARIF log tells of diagnostics in a file: it has rules, and one result for each
diagnostic, in their order. -/
def RunTells (file : String) (ds : List Diagnostic) (run : Value) : Prop :=
  ∃ rules results, run.at? ["tool", "driver", "rules"] = some (.list rules) ∧
    run.field? "results" = some (.list results) ∧ ds.Forall₂ (Tells file rules) results

theorem sarif_runs (r : Report) (h : ∀ d ∈ r.diagnostics, d.kind ∈ Diagnostic.Kind.declared) :
    ∃ run, r.sarif.value.field? "runs" = some (.list [run]) ∧
      RunTells r.file.text r.diagnostics run := by
  refine ⟨.object [("tool", tool.value),
    ("results", .list (r.diagnostics.map fun d => (resultJson r.file d).value))], ?_,
    rules, r.diagnostics.map fun d => (resultJson r.file d).value, ?_, ?_, ?_⟩
  · simp [sarif, Json.value, Value.field?, Function.comp_def]
  · simp [tool, rules, Json.value, Value.at?, Value.field?, Function.comp_def]
  · simp [Value.field?]
  · refine List.forall₂_map_right_iff.2 (List.forall₂_same.2 fun d hd => ?_)
    exact tells_result r.file (h d hd)

/-- The diagnostics that the only run of a log tells of are those read from it. -/
theorem RunTells.ofLog? {file : String} {ds : List Diagnostic} {run log : Value}
    (hrun : RunTells file ds run) (hlog : log.field? "runs" = some (.list [run]))
    (h : ∀ d ∈ ds, d.kind ∈ Diagnostic.Kind.declared) : ofLog? log = some ds := by
  obtain ⟨rules, results, -, hresults, htells⟩ := hrun
  have hread : ds.Forall₂ (fun d v => Report.ofResult? v = some d) results :=
    ((List.forall₂_and_left ds results).2 ⟨h, htells⟩).imp fun _ _ hd => hd.2.ofResult? hd.1
  simp [Report.ofLog?, hlog, Value.only?, hresults, Value.items?, mapM_eq_some_of_forall₂ hread]

/-- A SARIF log of diagnostics of declared kinds has one run, which tells of each of them; a name of
the file that is a text is told as it is. What is read from the log and from the JSON report is the
list of the diagnostics. -/
theorem sarif_log_tells_findings {e : Encoder} (he : e.Documented) (style : Style) (r : Report)
    (h : ∀ d ∈ r.diagnostics, d.kind ∈ Diagnostic.Kind.declared) {refused : Option Nat}
    (htaken : (deliver refused (r.writes style .sarif e)).complete = true) :
    ∃ text report log run, (deliver refused (r.writes style .sarif e)).written = [text] ∧
      r.writes style .json e = [report] ∧ Json.Document log text.toList ∧
      log.field? "runs" = some (.list [run]) ∧ RunTells r.file.text r.diagnostics run ∧
      (∀ file : String, r.file = file → RunTells file r.diagnostics run) ∧
      (Json.read? text.toList).bind ofLog? = some r.diagnostics ∧
      (Json.read? report.toList).bind ofReport? = some r.diagnostics := by
  obtain ⟨run, hruns, htells⟩ := sarif_runs r h
  rw [written_of_complete htaken]
  refine ⟨e.text r.sarif, e.text r.json, r.sarif.value, run, rfl, rfl, he.document_text r.sarif,
    hruns, htells, fun file hfile => ?_, ?_, ?_⟩
  · rwa [hfile, Text.Raw.text_ofString] at htells
  · rw [he.read?_text]
    exact htells.ofLog? hruns h
  · rw [he.read?_text, value_json]
    exact ofReport?_said h

theorem sarif_log_tells_findings_at_note :
    let ds : List Diagnostic := [⟨"bounds", .outOfBounds, "\"a<b>\"", "index \u2028"⟩,
      ⟨"memory", .unsupported, "", "goto"⟩]
    let r : Report := ⟨"x&y.cpp", ds⟩
    Encoder.own.Documented ∧ (∀ d ∈ ds, d.kind ∈ Diagnostic.Kind.declared) ∧
      (deliver (some 2) (r.writes {} .sarif)).complete = true ∧
      ∃ text log run, (deliver (some 2) (r.writes {} .sarif)).written = [text] ∧
        Json.Document log text.toList ∧ log.field? "runs" = some (.list [run]) ∧
        RunTells "x&y.cpp" ds run ∧ (Json.read? text.toList).bind ofLog? = some ds := by
  intro ds r
  have hds : ∀ d ∈ ds, d.kind ∈ Diagnostic.Kind.declared := by decide
  have htaken : (deliver (some 2) (r.writes {} .sarif)).complete = true := rfl
  obtain ⟨text, _, log, run, htext, -, hdoc, hruns, -, htells, hread, -⟩ :=
    sarif_log_tells_findings Encoder.own_documented {} r hds htaken
  exact ⟨Encoder.own_documented, hds, htaken, text, log, run, htext, hdoc, hruns, htells _ rfl,
    hread⟩

/-- Names that are not in UTF-8 are not told apart, and a stream that refuses the log has taken
nothing of it. -/
theorem sarif_log_of_stray_bytes :
    let d : Diagnostic := ⟨"memory", .doubleFree, "p", "freed twice"⟩
    strayByte 0xFF ≠ strayByte 0xFE ∧ d.kind ∈ Diagnostic.Kind.declared ∧
      (Report.mk (strayByte 0xFF) [d]).writes {} .sarif =
        (Report.mk (strayByte 0xFE) [d]).writes {} .sarif ∧
      (deliver (some 1) ((Report.mk "a.cpp" []).writes {} .sarif)).written = [] := by
  refine ⟨by decide, by decide, ?_, rfl⟩
  simp [writes, Encoder.text, Encoder.own, sarif, resultJson, location, Json.chars, Json.items,
    Json.fields, Json.quote, units_strayByte]

end MemLint.Report
