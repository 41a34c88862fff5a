import X64Backend.CommandLine.Commands

/-! # The command line program -/

namespace X64Backend.CommandLine

def toByteArray (b : Bytes) : ByteArray := ⟨b.toArray⟩

def pathString (path : Bytes) : String := (String.fromUTF8? (toByteArray path)).getD ""

/-- The answer of the system, with the wording of a failure to open a path. -/
def answered {α : Type} (path : Bytes) (x : IO α) : IO (Except Bytes α) := do
  try
    return .ok (← x)
  catch e =>
    let reason : Bytes := match e with
      | .noFileOrDirectory .. => "no such file or directory"
      | .permissionDenied .. => "permission denied"
      | e => Bytes.ofString (toString e)
    return .error ("open " ++ path ++ ": " ++ reason)

def system : Host IO where
  readFile path := answered path do
    return (← IO.FS.readBinFile ⟨pathString path⟩).data.toList
  writeFile path text := answered path do
    IO.FS.writeBinFile ⟨pathString path⟩ (toByteArray text)
  print text := do (← IO.getStdout).write (toByteArray text)

end X64Backend.CommandLine

open X64Backend in
def main (args : List String) : IO UInt32 := do
  let exit ← CommandLine.execute CommandLine.system (args.map Bytes.ofString)
  match exit with
  | .failure report => (← IO.getStderr).write (CommandLine.toByteArray report)
  | .success | .broken _ => pure ()
  return exit.code.toUInt32
