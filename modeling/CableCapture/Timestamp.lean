/-!
# Capture times as text

A capture time counts seconds since the start of 1970 in universal time; zero means that no time
was recorded. How a time is written is up to a library.
-/

namespace CableCapture

/-- How the library writes a time: the date, the time of day and the offset from universal time. -/
class Calendar where
  rfc3339 : UInt32 → String

/-- The text of a recorded capture time. -/
def Timestamp.text? [Calendar] (captureTime : UInt32) : Option String :=
  if captureTime = 0 then none else some (Calendar.rfc3339 captureTime)

end CableCapture
