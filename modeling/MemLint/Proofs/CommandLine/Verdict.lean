import Mathlib.Data.List.Infix
import MemLint.CommandLine.Run
import MemLint.Proofs.Except
import MemLint.Proofs.Analysis.Selection
import MemLint.Proofs.Report.Findings

/-! The verdict of a run on one source file. The exit code says whether the file was read, parsed
and checked and nothing was found; the form of the report, its colour, its length and the log have
no part in it. What was found in text form goes to the second stream, any other report to the first,
and a run that stops with an error leaves the first stream empty. The libraries may be any that hand
the arguments over and whose encoder does what is known of encoders. -/

namespace MemLint.CommandLine

open Settings (Format)
open Report (Style)

variable {lib : Library} {files : Files} {a a' : Arguments} {path : String} {s : Settings}
  {file : List Decl} {ds : List Diagnostic}

/-! ### How far a run gets -/

/-- The run gets as far as a report: the source is read and parsed, the settings are understood, and
each chosen checker gets through the file. `ds` is what they find, one after another. -/
structure Finds (lib : Library) (files : Files) (a : Arguments) (path : String) (s : Settings)
    (file : List Decl) (ds : List Diagnostic) : Prop where
  configured : settings lib files a = .ok s
  parsed : ∃ bytes, files path = .ok bytes ∧
    Grammar.parse (Grammar.limitOf s.check.maxDepth) (Text.decode bytes) = .ok file
  checked : ∀ c, s.checkers.has c = true → ∃ cs, Analysis.check s.check file c = .ok cs
  merged : ds = s.checkers.toList.flatMap (Analysis.found s.check file)

/-- The run stops before there is a report. -/
inductive Stops (lib : Library) (files : Files) (a : Arguments) (path : String) : Prop where
  | unread {e : ReadError} (h : files path = .error e)
  | unconfigured {message : String} (h : settings lib files a = .error message)
  | unparsed {bytes : List UInt8} {s : Settings} {e : Grammar.Error}
      (hread : files path = .ok bytes) (hset : settings lib files a = .ok s)
      (h : Grammar.parse (Grammar.limitOf s.check.maxDepth) (Text.decode bytes) = .error e)
  | unchecked {bytes : List UInt8} {s : Settings} {file : List Decl} {c : Settings.Checker}
      {e : StructuralError} (hread : files path = .ok bytes) (hset : settings lib files a = .ok s)
      (hparse : Grammar.parse (Grammar.limitOf s.check.maxDepth) (Text.decode bytes) = .ok file)
      (hc : s.checkers.has c = true) (h : Analysis.check s.check file c = .error e)

theorem finds_or_stops (lib : Library) (files : Files) (a : Arguments) (path : String) :
    (∃ s file ds, Finds lib files a path s file ds) ∨ Stops lib files a path := by
  cases hread : files path with
  | error e => exact .inr (.unread hread)
  | ok bytes =>
    cases hset : settings lib files a with
    | error message => exact .inr (.unconfigured hset)
    | ok s =>
      cases hparse : Grammar.parse (Grammar.limitOf s.check.maxDepth) (Text.decode bytes) with
      | error e => exact .inr (.unparsed hread hset hparse)
      | ok file =>
        by_cases h : ∃ c e, s.checkers.has c = true ∧ Analysis.check s.check file c = .error e
        · obtain ⟨c, e, hc, he⟩ := h
          exact .inr (.unchecked hread hset hparse hc he)
        · refine .inl ⟨s, file, _, hset, ⟨bytes, hread, hparse⟩, fun c hc => ?_, rfl⟩
          cases hcheck : Analysis.check s.check file c with
          | error e => exact (h ⟨c, e, hc, hcheck⟩).elim
          | ok cs => exact ⟨cs, rfl⟩

/-! ### The report -/

section Report

variable {t : Terminals} {log : List String}

theorem exit_report : (report lib t a s path log ds).exit = if ds = [] then 0 else 1 := by
  simp only [report]
  split <;> simp only [List.isEmpty_iff]

/-- The findings that a report in text form shows. -/
def shown (a : Arguments) (ds : List Diagnostic) : List Diagnostic := if a.all then ds else ds.take 1

/-- A finding as a line of text on the second stream. -/
def findingLine (t : Terminals) (a : Arguments) (d : Diagnostic) : String :=
  let start := Style.start { color := !a.noColor && t.stderr }
  s!"{start} {d.message}\n"

theorem report_text (hs : s.format = .text) (hds : ds ≠ []) :
    report lib t a s path log ds =
      { exit := 1, stderr := log ++ (shown a ds).map (findingLine t a) } := by
  simp [report, hs, hds, Report.writes, Report.lines, Report.isClean, shown, findingLine,
    Style.start]

theorem report_clean (hs : s.format = .text) :
    report lib t a s path log [] =
      { stdout := ["No memory issues detected.\n"], stderr := log } := by
  simp [report, hs, Report.writes, Report.lines, Report.isClean]

theorem stdout_report_json (hs : s.format = .json) :
    (report lib t a s path log ds).stdout = [lib.encoder.text (Report.mk path ds).json] := by
  simp [report, hs, Report.writes]

end Report

/-- What the JSON report says of its success. -/
theorem ok_said (path : String) (ds : List Diagnostic) :
    (Report.said path ds).field? "ok" = some (.bool (decide (ds = []))) := by
  simp [Report.said, Report.Json.Value.field?]

/-! ### The outcome -/

/-- The records of a run that gets as far as a report. -/
def records (s : Settings) (file : List Decl) (ds : List Diagnostic) : List Log.Record :=
  settingsRecord s :: (Analysis.run ⟨s.checkers, s.check⟩ false (some file)).log ++
    ds.map diagnosticRecord

theorem logLines_append (verbose : Bool) (rs rs' : List Log.Record) :
    logLines verbose (rs ++ rs') = logLines verbose rs ++ logLines verbose rs' := by
  simp only [logLines, List.filter_append, List.map_append]

theorem run_of_arguments (files : Files) {args : List String} (hread : lib.arguments args = .ok a)
    (t : Terminals) : run files args t lib = runWith lib t files a := by
  rw [run, hread]

section Run

variable (hinputs : a.inputs = [path]) (htokens : a.tokens = false)

include hinputs htokens

theorem runWith_of_finds (t : Terminals) (h : Finds lib files a path s file ds) :
    runWith lib t files a = report lib t a s path (logLines a.verbose (records s file ds)) ds := by
  obtain ⟨bytes, hread, hparse⟩ := h.parsed
  have hfound : (Analysis.run ⟨s.checkers, s.check⟩ false (some file)).result = .ok ds := by
    have hreported := Analysis.reported_eq ⟨s.checkers, s.check⟩ file s.checkers
    rw [Analysis.reported] at hreported
    rw [hreported]
    exact Analysis.runAll_eq_ok.2 ⟨fun c hc => h.checked c (Analysis.mem_toList.1 hc), h.merged⟩
  have hlog : logLines a.verbose (records s file ds) = logLines a.verbose [settingsRecord s] ++
      logLines a.verbose (Analysis.run ⟨s.checkers, s.check⟩ false (some file)).log ++
      logLines a.verbose (ds.map diagnosticRecord) := by
    rw [← logLines_append, ← logLines_append]
    rfl
  simp only [runWith, hinputs, hread, htokens, h.configured, analyze, hparse, hfound, hlog,
    Bool.false_eq_true, if_false]

theorem runWith_of_stops (t : Terminals) (h : Stops lib files a path) :
    (runWith lib t files a).exit = 1 ∧ (runWith lib t files a).stdout = [] := by
  cases h with
  | unread hread =>
    simp only [runWith, hinputs, hread]
    exact ⟨rfl, rfl⟩
  | unconfigured hset =>
    cases hread : files path with
    | error e =>
      simp only [runWith, hinputs, hread]
      exact ⟨rfl, rfl⟩
    | ok bytes =>
      simp only [runWith, hinputs, hread, htokens, hset, Bool.false_eq_true, if_false]
      exact ⟨rfl, rfl⟩
  | unparsed hread hset hparse =>
    simp only [runWith, hinputs, hread, htokens, hset, analyze, hparse, Bool.false_eq_true,
      if_false]
    exact ⟨rfl, rfl⟩
  | @unchecked bytes s file c e hread hset hparse hc hcheck =>
    obtain ⟨f, hf⟩ := (Analysis.reported_fails_iff (p := ⟨s.checkers, s.check⟩)).2 ⟨c, e, hc, hcheck⟩
    rw [Analysis.reported] at hf
    simp only [runWith, hinputs, hread, htokens, hset, analyze, hparse, hf, Bool.false_eq_true,
      if_false]
    exact ⟨rfl, rfl⟩

theorem exit_of_finds (t : Terminals) (h : Finds lib files a path s file ds) :
    (runWith lib t files a).exit = if ds = [] then 0 else 1 := by
  rw [runWith_of_finds hinputs htokens t h, exit_report]

theorem exit_eq_zero_iff (t : Terminals) (files : Files) :
    (runWith lib t files a).exit = 0 ↔ ∃ s file, Finds lib files a path s file [] := by
  constructor
  · intro hexit
    rcases finds_or_stops lib files a path with ⟨s, file, ds, h⟩ | h
    · rw [exit_of_finds hinputs htokens t h] at hexit
      have hds : ds = [] := by
        by_contra hds
        rw [if_neg hds] at hexit
        exact one_ne_zero hexit
      exact ⟨s, file, hds ▸ h⟩
    · rw [(runWith_of_stops hinputs htokens t h).1] at hexit
      exact (one_ne_zero hexit).elim
  · rintro ⟨s, file, h⟩
    rw [exit_of_finds hinputs htokens t h, if_pos rfl]

theorem exit_eq_one_iff (t : Terminals) (files : Files) :
    (runWith lib t files a).exit = 1 ↔ ¬ ∃ s file, Finds lib files a path s file [] := by
  rw [← exit_eq_zero_iff hinputs htokens t files]
  -- the two exit codes are the only ones
  have hcodes : (runWith lib t files a).exit = 0 ∨ (runWith lib t files a).exit = 1 := by
    rcases finds_or_stops lib files a path with ⟨s, file, ds, h⟩ | h
    · rw [exit_of_finds hinputs htokens t h]
      split <;> simp
    · exact .inr (runWith_of_stops hinputs htokens t h).1
  omega

end Run

/-! ### Arguments that differ in what is shown -/

/-- The form of a report, if the arguments name one, exists. -/
def Arguments.NamesForm (a : Arguments) : Prop := ∀ name ∈ a.format, ∃ f, Format.ofText? name = some f

/-- The arguments ask for the same analysis of the same input. The form of the report, its colour,
its length and the log may differ. -/
structure Arguments.Alike (a a' : Arguments) : Prop where
  config : a'.config = a.config
  checkers : a'.checkers = a.checkers
  maxDepth : a'.maxDepth = a.maxDepth
  inputs : a'.inputs = a.inputs
  tokens : a'.tokens = a.tokens
  form : a.NamesForm
  form' : a'.NamesForm

theorem Arguments.Alike.symm (h : a.Alike a') : a'.Alike a :=
  ⟨h.config.symm, h.checkers.symm, h.maxDepth.symm, h.inputs.symm, h.tokens.symm, h.form', h.form⟩

/-- A settings file in UTF-8 is read as the settings document that it is. -/
theorem settings_own {bytes : List UInt8} (h : none ∉ Text.units bytes) :
    Library.own.settings bytes =
      (Settings.parse (String.ofList (Text.decode bytes))).mapError (·.message) := by
  have hlayout : Settings.Layout.ofBytes bytes =
      Settings.Layout.ofText (String.ofList (Text.decode bytes)) := by
    rw [Settings.Layout.ofBytes, if_neg h]
  simp only [Library.settings, Library.own, hlayout, Settings.parse]
  rcases Settings.Layout.ofText (String.ofList (Text.decode bytes)) with (_ | _ | ps) | l <;> rfl

theorem formatOf_eq_ok {name : String} {f : Format} :
    Settings.formatOf name = .ok f ↔ Format.ofText? name = some f := by
  rw [Settings.formatOf]
  cases Format.ofText? name <;> simp

/-- Each setting is that of its flag, if there is one, and otherwise that of the settings file. -/
theorem settings_eq_ok :
    settings lib files a = .ok s ↔ ∃ base, fileSettings lib files a.config = .ok base ∧
      a.format.elim (some base.format) Format.ofText? = some s.format ∧
      a.checkers.elim (.ok base.checkers) (fun c => Settings.checkersOf [c]) = .ok s.checkers ∧
      s.check = { base.check with maxDepth := a.maxDepth.getD base.check.maxDepth } := by
  rw [settings, bind_eq_ok]
  refine exists_congr fun base => and_congr_right fun _ => ?_
  obtain ⟨k, f, primitives, n⟩ := base
  obtain ⟨checkers, format, check⟩ := s
  -- each of the three flags is there or not
  cases a.format <;> cases a.checkers <;> cases a.maxDepth <;>
    simp only [bind_eq_ok, mapError_eq_ok, formatOf_eq_ok, pure, Except.pure, Except.ok.injEq,
      Settings.mk.injEq, exists_eq_left', Option.elim_none, Option.elim_some, Option.getD_none,
      Option.getD_some, Option.some.injEq] <;>
    grind

theorem Finds.of_alike (h : Finds lib files a path s file ds) (halike : a.Alike a') :
    ∃ s', Finds lib files a' path s' file ds := by
  obtain ⟨base, hbase, -, hcheckers, hcheck⟩ := settings_eq_ok.1 h.configured
  have hform : ∃ f, a'.format.elim (some base.format) Format.ofText? = some f := by
    cases hname : a'.format with
    | none => exact ⟨base.format, rfl⟩
    | some name => exact halike.form' name hname
  obtain ⟨f, hf⟩ := hform
  have hset : settings lib files a' = .ok { s with format := f } := by
    refine settings_eq_ok.2 ⟨base, ?_, hf, ?_, ?_⟩
    · rw [halike.config, hbase]
    · rw [halike.checkers, hcheckers]
    · rw [halike.maxDepth, hcheck]
  exact ⟨_, hset, h.parsed, h.checked, h.merged⟩

theorem exit_of_alike (hinputs : a.inputs = [path]) (htokens : a.tokens = false)
    (t t' : Terminals) (files : Files) (halike : a.Alike a') :
    (runWith lib t' files a').exit = (runWith lib t files a).exit := by
  have hinputs' : a'.inputs = [path] := halike.inputs.trans hinputs
  have htokens' : a'.tokens = false := halike.tokens.trans htokens
  have hclean : (∃ s file, Finds lib files a' path s file []) ↔
      ∃ s file, Finds lib files a path s file [] :=
    ⟨fun ⟨_, file, h⟩ => (h.of_alike halike.symm).imp fun _ h => ⟨file, h⟩,
      fun ⟨_, file, h⟩ => (h.of_alike halike).imp fun _ h => ⟨file, h⟩⟩
  by_cases h : ∃ s file, Finds lib files a path s file []
  · rw [(exit_eq_zero_iff hinputs htokens t files).2 h,
      (exit_eq_zero_iff hinputs' htokens' t' files).2 (hclean.2 h)]
  · rw [(exit_eq_one_iff hinputs htokens t files).2 h,
      (exit_eq_one_iff hinputs' htokens' t' files).2 (mt hclean.1 h)]

/-! ### The verdict -/

/-- What the outcome of a run on one source file says of it. -/
structure Judges (lib : Library) (t : Terminals) (files : Files) (a : Arguments) (path : String)
    (o : Outcome) : Prop where
  clean_iff : o.exit = 0 ↔ ∃ s file, Finds lib files a path s file []
  faulty_iff : o.exit = 1 ↔ ¬ ∃ s file, Finds lib files a path s file []
  /-- Findings in text form follow the log on the second stream. -/
  findings : ∀ s file ds, Finds lib files a path s file ds → s.format = .text → ds ≠ [] →
    o.stdout = [] ∧ o.stderr = logLines a.verbose (records s file ds) ++
      (shown a ds).map (findingLine t a)
  clean : ∀ s file, Finds lib files a path s file [] → s.format = .text →
    o.stdout = ["No memory issues detected.\n"] ∧ o.stderr = logLines a.verbose (records s file [])
  json : ∀ s file ds, Finds lib files a path s file ds → s.format = .json →
    ∃ text v, o.stdout = [text] ∧ Report.Json.read? text.toList = some v ∧
      v.field? "ok" = some (.bool (decide (o.exit = 0)))
  stopped : Stops lib files a path → o.stdout = []

/-- Nothing but the analysis decides how a run on one source file ends: arguments that ask for the
same analysis give the same exit code, whatever they show of it. -/
theorem verdict_regardless_of_output (hencoder : lib.encoder.Documented) (files : Files)
    {args : List String} (hread : lib.arguments args = .ok a) (hinputs : a.inputs = [path])
    (htokens : a.tokens = false) (t : Terminals) :
    Judges lib t files a path (run files args t lib) ∧
      ∀ args' a' t', lib.arguments args' = .ok a' → a.Alike a' →
        (run files args' t' lib).exit = (run files args t lib).exit := by
  rw [run_of_arguments files hread]
  refine ⟨?_, fun args' a' t' hread' halike => ?_⟩
  · constructor
    case clean_iff => exact exit_eq_zero_iff hinputs htokens t files
    case faulty_iff => exact exit_eq_one_iff hinputs htokens t files
    case findings =>
      intro s file ds h hs hds
      rw [runWith_of_finds hinputs htokens t h, report_text hs hds]
      exact ⟨rfl, rfl⟩
    case clean =>
      intro s file h hs
      rw [runWith_of_finds hinputs htokens t h, report_clean hs]
      exact ⟨rfl, rfl⟩
    case json =>
      intro s file ds h hs
      refine ⟨lib.encoder.text (Report.mk path ds).json, Report.said path ds, ?_, ?_, ?_⟩
      · rw [runWith_of_finds hinputs htokens t h, stdout_report_json hs]
      · rw [hencoder.read?_text, Report.value_json, Text.Raw.text_ofString]
      · rw [ok_said, exit_of_finds hinputs htokens t h]
        by_cases hds : ds = [] <;> simp [hds]
    case stopped => exact fun h => (runWith_of_stops hinputs htokens t h).2
  · rw [run_of_arguments files hread']
    exact exit_of_alike hinputs htokens t t' files halike

/-- A source that both the memory checker and the pointer checker complain of. -/
def unsetPointer : Files := fun _ => .ok ("int*p;*p;".toList.map fun c => c.toNat.toUInt8)

theorem finds_unsetPointer :
    Finds .own unsetPointer { inputs := ["a.cpp"] } "a.cpp" {}
      [.var "p" .absent, .stmt (.expr (.deref (.varRef "p")))]
      [⟨"memory", .nullPointerDereference, "p",
          "Null pointer dereference detected for variable: p"⟩,
        ⟨"pointer", .nullPointerDereference, "p", "Null dereference of pointer 'p'"⟩] := by
  have hdecode : Text.decode ("int*p;*p;".toList.map fun c => c.toNat.toUInt8) =
      "int*p;*p;".toList := by decide +kernel
  refine ⟨rfl, ⟨_, rfl, ?_⟩, fun c _ => ?_, rfl⟩
  · rw [hdecode]
    with_unfolding_all rfl
  · cases c <;> exact ⟨_, rfl⟩

theorem arguments_one_input :
    Library.own.arguments ["a.cpp"] = .ok { inputs := ["a.cpp"] } :=
  toOption_eq_some.1 (by decide +kernel)

theorem verdict_regardless_of_output_at_unset_pointer :
    ∃ a a', Library.own.encoder.Documented ∧ Library.own.arguments ["a.cpp"] = .ok a ∧
      Library.own.arguments ["--format=json", "--all", "-v", "a.cpp"] = .ok a' ∧
      a.inputs = ["a.cpp"] ∧ a.tokens = false ∧ a.Alike a' ∧
      Judges .own {} unsetPointer a "a.cpp" (run unsetPointer ["a.cpp"]) ∧
      (run unsetPointer ["--format=json", "--all", "-v", "a.cpp"]).exit = 1 := by
  have halike : Arguments.Alike { inputs := ["a.cpp"] }
      { format := some "json", all := true, verbose := true, inputs := ["a.cpp"] } := by
    refine ⟨rfl, rfl, rfl, rfl, rfl, fun _ h => (Option.not_mem_none _ h).elim, fun _ h => ?_⟩
    cases h
    exact ⟨.json, rfl⟩
  have hread' : Library.own.arguments ["--format=json", "--all", "-v", "a.cpp"] =
      .ok { format := some "json", all := true, verbose := true, inputs := ["a.cpp"] } :=
    toOption_eq_some.1 (by decide +kernel)
  obtain ⟨hjudges, hsame⟩ := verdict_regardless_of_output Report.Encoder.own_documented unsetPointer
    arguments_one_input rfl rfl {}
  refine ⟨_, _, Report.Encoder.own_documented, arguments_one_input, hread', rfl, rfl, halike,
    hjudges, ?_⟩
  rw [hsame _ _ {} hread' halike]
  exact exit_of_finds rfl rfl {} finds_unsetPointer

/-- Without the flag for all findings, only the first is shown. -/
theorem second_finding_not_shown :
    ∃ a s file ds d, Library.own.arguments ["a.cpp"] = .ok a ∧
      Finds .own unsetPointer a "a.cpp" s file ds ∧ s.format = .text ∧ d ∈ ds ∧
      ∀ line ∈ (run unsetPointer ["a.cpp"]).stderr, ¬ d.message.toList <:+: line.toList := by
  refine ⟨_, _, _, _, ⟨"pointer", .nullPointerDereference, "p", "Null dereference of pointer 'p'"⟩,
    arguments_one_input, finds_unsetPointer, rfl, by decide, ?_⟩
  rw [run_of_arguments _ arguments_one_input, runWith_of_finds rfl rfl {} finds_unsetPointer,
    report_text rfl (by simp)]
  decide

end MemLint.CommandLine
