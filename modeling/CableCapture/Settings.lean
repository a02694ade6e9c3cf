import CableCapture.CaptureIndex
import CableCapture.Text.Json

/-!
# Settings

What a run reads and how it reports, as a JSON text: an object with named fields, or an array of their
values in order. Unknown fields are ignored, a field named twice is refused.
-/

namespace CableCapture

-- Powers are those of the core library, whatever else is imported.
attribute [local instance (high)] instPowNat

-- ---------------------------------------------------------------------------
-- Log levels
-- ---------------------------------------------------------------------------

inductive LogLevel where
  | trace
  | debug
  | info
  | warn
  | error
deriving DecidableEq, Repr

namespace LogLevel

/-- A number from 1 for errors to 5 for traces. -/
def ofNat? : Nat → Option LogLevel
  | 1 => some error
  | 2 => some warn
  | 3 => some info
  | 4 => some debug
  | 5 => some trace
  | _ => none

/-- A decimal number, with a plus sign or without. -/
def number? (cs : List Char) : Option Nat :=
  let digits := match cs with
    | '+' :: rest => rest
    | rest => rest
  if digits.isEmpty ∨ !digits.all Char.isDigit then none
  else some (digits.foldl (fun n c => n * 10 + (c.toNat - '0'.toNat)) 0)

/-- A number or a name, whatever the case of its ASCII letters. -/
def ofText? (text : String) : Option LogLevel :=
  match (number? text.toList).bind ofNat? with
  | some level => some level
  | none =>
    match String.ofList (text.toList.map Char.toLower) with
    | "trace" => some trace
    | "debug" => some debug
    | "info" => some info
    | "warn" => some warn
    | "error" => some error
    | _ => none

end LogLevel

-- ---------------------------------------------------------------------------
-- Fields
-- ---------------------------------------------------------------------------

structure Settings where
  captureFolder : String
  logLevel : String
  /-- The decimal places of results. -/
  places : UInt32
  stages : List CaptureIndex.Stage
  /-- Where the report goes, if there is to be one. -/
  output : Option String
deriving DecidableEq, Repr

inductive SettingsFault where
  | malformed
  | invalidLogLevel (text : String)
deriving DecidableEq, Repr

def SettingsFault.message : SettingsFault → String
  | malformed => "JSON parse error"
  | invalidLogLevel text => "Invalid log level: " ++ text

namespace Settings

/-- The names of the fields in their order. -/
def fieldNames : List String :=
  ["capture_dir", "log_level", "precision", "sort_stages", "output"]

/-- An integer of 32 bits written with digits alone. -/
def placesOf : JsonValue → Option UInt32
  | .number digits =>
    match LogLevel.number? digits with
    | some n => if n < 2 ^ (32 : Nat) then some (.ofNat n) else none
    | none => none
  | _ => none

def stageNamed? : String → Option CaptureIndex.Stage
  | "group_by_channel" => some .groupByChannel
  | "sort_by_capture_time_ascending" => some .sortByCaptureTime
  | "sort_by_file_type" => some .sortByKind
  | "sort_mac_keys_lexically" => some .sortByMac
  | _ => none

/-- A stage is its name, or an object with the name as its only field and null as the value. -/
def stageOf : JsonValue → Option CaptureIndex.Stage
  | .object [(key, .null)] => (JsonValue.textOf key).bind fun name => stageNamed? (.ofList name)
  | value => value.text?.bind stageNamed?

def stagesOf : JsonValue → Option (List CaptureIndex.Stage)
  | .array items => items.mapM stageOf
  | _ => none

def outputOf : JsonValue → Option (Option String)
  | .null => some none
  | value => value.text?.map some

/-- The value of a field; an absent field has the default. -/
def field {α : Type} (fields : List (String × JsonValue)) (name : String) (default : α)
    (read : JsonValue → Option α) : Option α :=
  match fields.lookup name with
  | some value => read value
  | none => some default

/-- The settings of named fields. Only the capture folder has no default. -/
def ofFields (fields : List (String × JsonValue)) : Option Settings := do
  let captureFolder ← (fields.lookup "capture_dir").bind JsonValue.text?
  let logLevel ← field fields "log_level" "info" JsonValue.text?
  let places ← field fields "precision" 2 placesOf
  let stages ← field fields "sort_stages" [.groupByChannel, .sortByCaptureTime] stagesOf
  let output ← field fields "output" none outputOf
  return { captureFolder, logLevel, places, stages, output }

/-- No known field is named twice. -/
def distinct (fields : List (String × JsonValue)) : Bool :=
  fieldNames.all fun name => (fields.filter fun f => f.1 = name).length ≤ 1

def ofJson : JsonValue → Option Settings
  | .object fields => do
    let named ← fields.mapM fun (key, value) => do
      return (String.ofList (← JsonValue.textOf key), value)
    if distinct named then ofFields named else none
  | .array items =>
    if items.length ≤ fieldNames.length then ofFields (fieldNames.zip items) else none
  | _ => none

/-- The settings in a text. The log level has to be a known one. -/
def parse (text : String) : Except SettingsFault Settings :=
  match (JsonValue.parse text).bind ofJson with
  | none => .error .malformed
  | some settings =>
    match LogLevel.ofText? settings.logLevel with
    | some _ => .ok settings
    | none => .error (.invalidLogLevel settings.logLevel)

end Settings

end CableCapture
