/-
The command: reads the files that the arguments ask for, and writes the answer.
-/
import Treewalk.Command

open Treewalk

/-- what stands at a path of the file system; what can be opened but not read is a directory -/
def readEntry (path : Bytes) : IO (Option Entry) := do
  match String.fromUTF8? ⟨path.toArray⟩ with
  | none => return none
  | some name =>
    let handle ← try pure (some (← IO.FS.Handle.mk name .read)) catch _ => pure none
    match handle with
    | none => return none
    | some handle =>
      try return some (.file (← handle.readBinToEnd).data.toList)
      catch _ => return some .directory

def main (args : List String) : IO UInt32 := do
  let command := Command.ofArguments (args.map bytes)
  let entries ← command.paths.mapM fun p => do return (p, ← readEntry p)
  let out ← IO.getStdout
  let err ← IO.getStderr
  let answer := command.perform ⟨.standard, ← err.isTty⟩ fun p => (entries.lookup p).join
  out.write ⟨answer.out.toArray⟩
  out.flush
  err.write ⟨answer.err.toArray⟩
  return answer.status.toUInt32
