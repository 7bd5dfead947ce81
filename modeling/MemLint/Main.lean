import MemLint.CommandLine.Run

/-! The command line: files are read and texts are written here, and nothing is decided. -/

namespace MemLint.CommandLine

/-- What is found at a path. -/
def readPath (path : String) : IO (Except ReadError (List UInt8)) := do
  try
    return .ok (← IO.FS.readBinFile path).toList
  catch e =>
    match e with
    | .noFileOrDirectory .. => return .error .missing
    | .inappropriateType .. => return .error .directory
    | _ => return .error .denied

end MemLint.CommandLine

open MemLint.CommandLine in
def main (args : List String) : IO UInt32 := do
  let a := match Arguments.read args with
    | .ok a => a
    | .error _ => {}
  let mut found := []
  for path in a.config :: a.inputs.take 1 do
    found := (path, ← readPath path) :: found
  let stdout ← IO.getStdout
  let stderr ← IO.getStderr
  let o := run (fun path => (found.lookup path).getD (.error .missing)) args
    ⟨← stdout.isTty, ← stderr.isTty⟩
  o.stdout.forM stdout.putStr
  o.stderr.forM stderr.putStr
  return o.exit.toUInt32
