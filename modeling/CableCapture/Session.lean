import CableCapture.Disk
import CableCapture.Libraries
import CableCapture.ReportText
import CableCapture.Settings

/-!
# Sessions

One run: read the settings, read the captures of a folder, index and reorder them, and write the
report if the settings name a place for it. The first step that fails ends the run. Programs run their
sessions with the libraries that are imported here.
-/

namespace CableCapture

inductive SessionFault where
  | unreadableSettings (path : String)
  | settings (fault : SettingsFault)
  | unreadableFolder
  | unwritableReport (path : String)
deriving DecidableEq, Repr

def SessionFault.message : SessionFault → String
  | unreadableSettings path => "File read error: " ++ path
  | settings fault => fault.message
  | unreadableFolder => "failed to read capture directory"
  | unwritableReport path => "failed to write report " ++ path

/-- The index of captures, reordered as the settings say. -/
def Settings.index (settings : Settings) (captures : List (String × List UInt8)) : CaptureIndex :=
  (CaptureIndex.ofFiles captures).applyStages settings.stages

/-- The report on captures. -/
def Settings.report [Calendar] (settings : Settings) (captures : List (String × List UInt8)) :
    Report :=
  Report.ofIndex (settings.index captures) settings.places

namespace Session

variable {m : Type → Type} [Monad m]

/-- The file that holds the settings if none is named. -/
def defaultSettings : String := "pnm_reader.json"

/-- The answer of a disk, or the fault of having none. -/
def need {α : Type} (fault : SessionFault) (answer : m (Option α)) : ExceptT SessionFault m α := do
  match ← (answer : m (Option α)) with
  | some a => return a
  | none => throw fault

/-- One run, at a time that the report tells, with the settings at a path. -/
def run [Decompression] [Calendar] (disk : Disk m) (time : UInt32) (settingsPath : String) :
    ExceptT SessionFault m Unit := do
  let text ← need (.unreadableSettings settingsPath) (disk.readText settingsPath)
  let settings ← match Settings.parse text with
    | .ok settings => pure settings
    | .error fault => throw (.settings fault)
  let folder ← need .unreadableFolder (disk.readFolder settings.captureFolder)
  let report := ReportText.report time (settings.report folder.captures)
  match settings.output with
  | some path => need (.unwritableReport path) (disk.writeText path report.print)
  | none => return ()

end Session

end CableCapture
