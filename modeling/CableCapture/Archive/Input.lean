import CableCapture.Bytes.Word

/-!
# Archive input

Little-endian fields from the front of a byte string; a field that is not all there fails.
-/

namespace CableCapture

abbrev Input (α : Type) := StateT (List UInt8) Option α

namespace Input

def take (n : Nat) : Input (List UInt8) := do
  let unread ← get
  let front := unread.take n
  if front.length = n then
    set (unread.drop n)
    return front
  else
    failure

def number (width : Nat) : Input Nat := do
  return LittleEndian.toNat (← take width)

/-- Succeeds if the condition holds. -/
def require (condition : Bool) : Input Unit :=
  if condition then return () else failure

/-- Everything up to the next zero byte, which is taken as well. -/
def toZero : Input (List UInt8) := do
  let unread ← get
  let text := unread.takeWhile (· ≠ 0)
  match unread.drop text.length with
  | [] => failure
  | _ :: rest =>
    set rest
    return text

end Input

end CableCapture
