import MemLint.Numeral.Integer

/-! The arguments of the command. Flags come first, with one dash or two, and end at the first
argument that is no flag or after `--`. A value follows its flag or an equals sign; a flag that is
on or off has a value only after an equals sign. Of a repeated flag the last one counts, and it is
spelled in one way only. -/

namespace MemLint.CommandLine

structure Arguments where
  config : String := ""
  format : Option String := none
  checkers : Option String := none
  maxDepth : Option Int := none
  all : Bool := false
  noColor : Bool := false
  verbose : Bool := false
  tokens : Bool := false
  inputs : List String := []
  deriving DecidableEq, Repr

/-- What has been read of a command line. -/
structure Reading where
  arguments : Arguments := {}
  /-- The flags as they were spelled. -/
  spellings : List String := []
  help : Bool := false

/-- What a flag does to a reading. -/
inductive Flag where
  | valued (set : Reading → String → Option Reading)
  | switch (set : Reading → Bool → Reading)

/-- An integer of a flag, with underscores between its digits. -/
def integer? (s : String) : Option Int :=
  Numeral.signed? Numeral.grouped? Numeral.maxInt64 s.toList

def truth? (s : String) : Option Bool :=
  if s ∈ ["1", "t", "T", "true", "TRUE", "True"] then some true
  else if s ∈ ["0", "f", "F", "false", "FALSE", "False"] then some false
  else none

/-- The flags with their spellings. -/
def flags : List (List String × Flag) := [
  (["config", "c"], .valued fun r s => some { r with arguments.config := s }),
  (["format", "f"], .valued fun r s => some { r with arguments.format := some s }),
  (["checkers"], .valued fun r s => some { r with arguments.checkers := some s }),
  (["max-depth"],
    .valued fun r s => (integer? s).map fun n => { r with arguments.maxDepth := some n }),
  (["all"], .switch fun r b => { r with arguments.all := b }),
  (["no-color"], .switch fun r b => { r with arguments.noColor := b }),
  (["verbose", "v"], .switch fun r b => { r with arguments.verbose := b }),
  (["tokens"], .switch fun r b => { r with arguments.tokens := b }),
  (["help", "h"], .switch fun r b => { r with help := b })]

def flag? (name : String) : Option Flag := (flags.find? (name ∈ ·.1)).map (·.2)

/-- A flag as it is written: its name, and its value if an equals sign follows. -/
structure Written where
  name : String
  value : Option String

/-- The text of a flag without its dashes. A dash alone is no flag. -/
def undash? : List Char → Option (List Char)
  | '-' :: '-' :: cs => some cs
  | ['-'] => none
  | '-' :: cs => some cs
  | _ => none

def written? (arg : String) : Option Written :=
  (undash? arg.toList).map fun cs =>
    match cs.dropWhile (· ≠ '=') with
    | [] => ⟨String.ofList cs, none⟩
    | _ :: value => ⟨String.ofList (cs.takeWhile (· ≠ '=')), some (String.ofList value)⟩

/-- Reads the arguments; there is no result for a flag that is unknown or lacks its value. -/
def Reading.next? (r : Reading) : List String → Option Reading
  | [] => some r
  | "--" :: rest => some { r with arguments.inputs := rest }
  | arg :: rest =>
    match written? arg with
    | none => some { r with arguments.inputs := arg :: rest }
    | some w =>
      let r := { r with spellings := w.name :: r.spellings }
      match flag? w.name, w.value, rest with
      | some (.valued set), some v, rest => do (← set r v).next? rest
      | some (.valued set), none, v :: rest => do (← set r v).next? rest
      | some (.switch set), none, rest => (set r true).next? rest
      | some (.switch set), some v, rest => do (set r (← truth? v)).next? rest
      | _, _, _ => none

/-- A flag is spelled in two ways. -/
def Reading.mixed (r : Reading) : Bool :=
  flags.any fun (names, _) => 1 < (names.filter (· ∈ r.spellings)).length

/-- The arguments of a command line. One that is refused or asks for help has none, only the exit
code with which the run ends. There is no help on single inputs. -/
def Arguments.read (args : List String) : Except Nat Arguments :=
  match ({} : Reading).next? args with
  | none => .error 1
  | some r =>
    if r.mixed then .error 1
    else if r.help then .error (if r.arguments.inputs.headD "" = "" then 0 else 3)
    else .ok r.arguments

end MemLint.CommandLine
