import MemLint.CommandLine.Arguments
import MemLint.Analysis
import MemLint.Grammar.File
import MemLint.Report.Writes

/-! The command: one source file in, an exit code and two streams out. Files come in as a function
from paths to what is found there, and it is known of the streams whether they are terminals. How a
command line, a settings file and a document are spelled is left to libraries. -/

namespace MemLint.CommandLine

/-- Why a file cannot be read. -/
inductive ReadError where
  | missing
  | directory
  /-- A file stands where the path needs a directory. -/
  | notDirectory
  | denied
  deriving DecidableEq, Repr

def ReadError.message (path : String) : ReadError → String
  | missing => s!"open {path}: no such file or directory"
  | directory => s!"read {path}: is a directory"
  | notDirectory => s!"open {path}: not a directory"
  | denied => s!"open {path}: permission denied"

abbrev Files := String → Except ReadError (List UInt8)

/-- Which of the two streams are terminals. Only there text may be coloured. -/
structure Terminals where
  stdout : Bool := false
  stderr : Bool := false
  deriving DecidableEq, Repr

/-- An exit code and the texts written to the two streams, one for each write. -/
structure Outcome where
  exit : Nat := 0
  stdout : List String := []
  stderr : List String := []
  deriving DecidableEq, Repr

/-- What the command takes from libraries. -/
structure Library where
  /-- The arguments of a command line, or how the run ends without any. -/
  arguments : List String → Except Outcome Arguments
  /-- The layout of a settings file, if it holds a document, or why it has none. -/
  layout : List UInt8 → Except String (Option Settings.Layout)
  encoder : Report.Encoder

/-- The library that is used where no other is given. It reads settings files in the common part of
YAML; of a run that it ends itself it knows the exit code, not the texts. -/
def Library.own : Library where
  arguments args :=
    match Arguments.read args with
    | .ok a => .ok a
    | .error exit => .error { exit }
  layout bytes :=
    match Settings.Layout.ofBytes bytes with
    | .ok l => .ok l
    | .error e => .error e.message
  encoder := .own

/-- The outcome of a run that stops with an error, after some lines of log. -/
def failure (log : List String) (message : String) : Outcome :=
  { exit := 1, stderr := log ++ [s!"Error: {message}\n"] }

def usage : Outcome := { exit := 1, stderr := ["Usage: safecpp [options] <input_file>\n"] }

def tokenLine (t : Token) : String :=
  s!"{t.pos.line}:{t.pos.col}\t{t.kind.name}\t{Text.quoted t.lex}\n"

/-- The last part of a path. -/
def baseName (path : String) : String :=
  if path = "" then "."
  else
    let cs := (path.toList.reverse.dropWhile (· = '/')).takeWhile (· ≠ '/')
    if cs.isEmpty then "/" else String.ofList cs.reverse

/-- The settings that a settings file extends the defaults to. -/
def Library.settings (lib : Library) (bytes : List UInt8) : Except String Settings :=
  match lib.layout bytes with
  | .error message => .error s!"decode config: {message}"
  | .ok l => (Settings.ofLayout (l.getD {})).mapError (·.message)

/-- The settings of a file, if one is named. -/
def fileSettings (lib : Library) (files : Files) (path : String) : Except String Settings :=
  if path = "" then .ok {}
  else match files path with
    | .error e => .error s!"read config: {e.message path}"
    | .ok bytes => (lib.settings bytes).mapError fun message => s!"{path}: {message}"

/-- The settings of the settings file, with those of the flags over them. -/
def settings (lib : Library) (files : Files) (a : Arguments) : Except String Settings := do
  let s ← fileSettings lib files a.config
  let s ← match a.format with
    | none => pure s
    | some f => pure { s with format := ← (Settings.formatOf f).mapError (·.message) }
  let s ← match a.checkers with
    | none => pure s
    | some c => pure { s with checkers := ← (Settings.checkersOf [c]).mapError (·.message) }
  match a.maxDepth with
  | none => pure s
  | some n => pure { s with check.maxDepth := n }

/-- The records that are shown: debug records only if they are asked for. -/
def logLines (verbose : Bool) (records : List Log.Record) : List String :=
  (records.filter fun r => verbose || r.level ≠ .debug).map fun r => r.line ++ "\n"

def settingsRecord (s : Settings) : Log.Record := ⟨.debug, "configuration", [("config", s.log)]⟩

def diagnosticRecord (d : Diagnostic) : Log.Record :=
  ⟨.debug, "diagnostic", [("diagnostic", d.log)]⟩

/-- The report of what was found, after some lines of log. Findings in text form are errors; the
rest is output. -/
def report (lib : Library) (t : Terminals) (a : Arguments) (s : Settings) (path : String)
    (log : List String) (ds : List Diagnostic) : Outcome :=
  let toErrors : Bool := s.format = .text && !ds.isEmpty
  let terminal := if toErrors then t.stderr else t.stdout
  let style : Report.Style := { all := a.all, color := !a.noColor && terminal }
  let writes := (⟨path, ds⟩ : Report).writes style s.format lib.encoder
  let exit := if ds.isEmpty then 0 else 1
  if toErrors then { exit, stderr := log ++ writes }
  else { exit, stdout := writes, stderr := log }

/-- A source file is parsed and analysed under some settings. -/
def analyze (lib : Library) (t : Terminals) (a : Arguments) (s : Settings) (path : String)
    (src : List Char) : Outcome :=
  let lines := logLines a.verbose
  let configured := lines [settingsRecord s]
  match Grammar.parse (Grammar.limitOf s.check.maxDepth) src with
  | .error e => failure configured (e.message (baseName path))
  | .ok file =>
    let found := Analysis.run ⟨s.checkers, s.check⟩ false (some file)
    let log := configured ++ lines found.log
    match found.result with
    | .error e => failure log e.message
    | .ok ds => report lib t a s path (log ++ lines (ds.map diagnosticRecord)) ds

/-- The run on arguments that have been read. -/
def runWith (lib : Library) (t : Terminals) (files : Files) (a : Arguments) : Outcome :=
  match a.inputs with
  | [path] =>
    match files path with
    | .error e => failure [] (e.message path)
    | .ok bytes =>
      let src := Text.decode bytes
      if a.tokens then { stdout := (Token.scan src).all.map tokenLine }
      else match settings lib files a with
        | .error message => failure [] message
        | .ok s => analyze lib t a s path src
  | _ => usage

def run (files : Files) (args : List String) (t : Terminals := {}) (lib : Library := .own) :
    Outcome :=
  match lib.arguments args with
  | .error o => o
  | .ok a => runWith lib t files a

/-- The outcome when the first stream refuses one write. All lines of log come before it. -/
def Outcome.refusing (o : Outcome) (refused : Option Nat) : Outcome :=
  let d := deliver refused o.stdout
  if d.complete then o
  else { failure o.stderr writeFailed with stdout := d.written }

end MemLint.CommandLine
