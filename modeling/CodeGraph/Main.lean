import CodeGraph.Command.Run
import Std.Time.DateTime.Timestamp
/-! # The program — files, clock and streams of the machine

    Runs a command line on the machine: its files, its environment, its clock
    and its source of randomness.  Everything that is decided is decided by
    `Command.run`. -/

namespace CodeGraph

/-- What an operation gives, or the wording of its failure. -/
def attempt {α : Type} (op : IO α) : IO (Except String α) := do
  try
    return .ok (← op)
  catch e =>
    return .error (toString e)

/-- The names in a directory, each with whether it is that of a directory.  A
    link to a directory is no directory. -/
def listNames (path : String) : IO (Option (List (String × Bool))) := do
  let place ← IO.FS.realPath path
  if ← place.isDir then
    let entries ← place.readDir
    let names ← entries.toList.mapM fun entry => do
      let child := Files.joinPath place.toString entry.fileName
      let real ← IO.FS.realPath child
      return (entry.fileName, real.toString = child && (← real.isDir))
    return some names
  else return none

/-- The files of the machine. -/
def disk : Files IO where
  present path := do
    try
      let _ ← IO.FS.Handle.mk path .read
      return true
    catch _ =>
      return false
  read path := attempt (IO.FS.readBinFile path)
  makeDirectories path := attempt (IO.FS.createDirAll path)
  write path contents := attempt (IO.FS.writeBinFile path contents)
  move source target := attempt (IO.FS.rename source target)
  list? path := do
    try listNames path catch _ => return none
  locate? path := do
    try
      let place ← IO.FS.realPath path
      return some ((Text.split (· = '/') place.toString).filter (· ≠ ""))
    catch _ => return none

/-- The time of the machine. -/
def clock : IO Moment := do
  let t ← Std.Time.Timestamp.now
  let n := t.toNanosecondsSinceUnixEpoch.toInt.toNat
  return .ofClock (n / 1000000000) (n % 1000000000)

/-- The machine that the program runs on. -/
def machine : IO (Command.Surroundings IO) := do
  let values ← Settings.variableNames.mapM fun name => do return (name, ← IO.getEnv name)
  return {
    files := disk
    environment := fun name => (values.lookup name).join
    now := clock
    freshId := do return .ofRandom (← IO.getRandomBytes 16).toList }

/-- Shows how a command ended. -/
def report (o : Command.Outcome) : IO Unit := do
  match o with
  | .done s =>
      IO.eprint s.note
      match s.output with
      | .value v => IO.println v.renderLines
      | .text t => IO.print t
  | .failed f =>
      IO.eprintln ("Error: " ++ f.message)
      match f.cause with
      | some cause => IO.eprintln ("  because: " ++ cause)
      | none => return
  | .misused => IO.eprintln "Usage: repograph [OPTIONS] <COMMAND>"

end CodeGraph

/-- Runs the command line. -/
def main (words : List String) : IO UInt32 := do
  let outcome ← CodeGraph.Command.run (← CodeGraph.machine) words
  CodeGraph.report outcome
  return outcome.exitCode.toUInt32
