import StackScript.Cli.Command

/-! # The executable

Runs the command on the process's arguments, its standard streams and the real file system,
and exits with the command's status.
-/

namespace StackScript

namespace Cli

/-- The text of a file error as the command shows it: the operation, the path, and the
reason. -/
def ioText (op path : String) : IO.Error → String
  | .noFileOrDirectory .. => op ++ " " ++ path ++ ": no such file or directory"
  | .permissionDenied .. => op ++ " " ++ path ++ ": permission denied"
  | .inappropriateType .. => op ++ " " ++ path ++ ": is a directory"
  | e => op ++ " " ++ path ++ ": " ++ toString e

/-- Writes bytes to a stream and flushes it. -/
def emit (s : IO.FS.Stream) (b : Bytes) : IO Unit := do
  s.write (ByteArray.mk b.toArray)
  s.flush

/-- The system the process runs on. -/
def system : IO (Os IO) := do
  let workDir := (← IO.getEnv "PWD").getD "/"
  let home := (← IO.getEnv "HOME").bind fun h => if h.isEmpty then none else some h
  let stdin ← IO.getStdin
  let stdout ← IO.getStdout
  let stderr ← IO.getStderr
  pure {
    workDir, home, editor := true
    read := fun p => do
      match ← (IO.FS.Handle.mk p .read).toBaseIO with
      | .error e => pure (.error (ioText "open" p e))
      | .ok h =>
        match ← h.readBinToEnd.toBaseIO with
        | .error e => pure (.error (ioText "read" p e))
        | .ok data => pure (.ok data.toList)
    write := fun p b => do
      try
        IO.FS.writeBinFile p (ByteArray.mk b.toArray)
        pure (.ok ())
      catch e => pure (.error (ioText "open" p e))
    touch := fun p => do
      try
        let _ ← IO.FS.Handle.mk p .append
        pure ()
      catch _ => pure ()
    present := fun p => do
      try
        let _ ← IO.FS.Handle.mk p .read
        pure true
      catch _ => pure false
    line := do
      let l ← stdin.getLine
      if l.isEmpty then pure none
      else
        let b := Bytes.ofString l
        if b.getLast? == some 10 then pure (some (b.dropLast, true)) else pure (some (b, false))
    bytes := fun n => do
      let b ← stdin.read n.toUSize
      if b.isEmpty then pure none else pure (some b.toList)
    out := emit stdout
    err := emit stderr }

end Cli

end StackScript

/-- Runs the command. -/
def main (args : List String) : IO UInt32 := do
  let os ← StackScript.Cli.system
  let code ← StackScript.Cli.run os (Nat.pow 2 62) args
  pure code.toUInt32
