import CableCapture.Session
import Std.Time.DateTime.Timestamp

/-!
# The program

Runs a session on the disk of the machine, with the settings in the file that the first argument
names. A failed session ends with its message on the error stream and exit code 1.
-/

namespace CableCapture.Program

/-- What an action gives, or nothing if it throws. -/
def attempt {α : Type} (action : IO α) : IO (Option α) := do
  try
    return some (← action)
  catch _ => return none

/-- The files and folders in a folder. What cannot be read is left out. -/
def readFolder (path : String) : IO Folder := do
  let mut folder := []
  for entry in ← (System.mkFilePath [path]).readDir do
    if let some metadata ← attempt entry.path.metadata then
      match metadata.type with
      | .file =>
        if let some bytes ← attempt (IO.FS.readBinFile entry.path) then
          folder := (entry.fileName, .file bytes.toList) :: folder
      | .dir => folder := (entry.fileName, .folder) :: folder
      | _ => pure ()
  return folder

/-- The disk of the machine. -/
def disk : Disk IO where
  readText := fun path => attempt (IO.FS.readFile path)
  readFolder := fun path => attempt (readFolder path)
  writeText := fun path text => attempt (IO.FS.writeFile path text)

end CableCapture.Program

open CableCapture in
def main (args : List String) : IO UInt32 := do
  let now ← Std.Time.Timestamp.now
  let time := UInt32.ofNat now.toSecondsSinceUnixEpoch.val.toNat
  match ← Session.run Program.disk time (args.head?.getD Session.defaultSettings) with
  | .ok _ => return 0
  | .error fault =>
    IO.eprintln ("Error: " ++ fault.message)
    return 1
