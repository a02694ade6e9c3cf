/-!
# Answers and faults

A computation that may fault succeeds exactly when each of its steps does.
-/

namespace CableCapture

variable {ε α β : Type}

theorem bind_eq_ok {answer : Except ε α} {next : α → Except ε β} {b : β} :
    answer >>= next = .ok b ↔ ∃ a, answer = .ok a ∧ next a = .ok b := by
  cases answer with
  | error fault => simp [bind, Except.bind]
  | ok a => simp [bind, Except.bind]

theorem ok_bind (a : α) (next : α → Except ε β) : Except.ok a >>= next = next a := rfl

theorem map_eq_ok {answer : Except ε α} {f : α → β} {b : β} :
    answer.map f = .ok b ↔ ∃ a, answer = .ok a ∧ f a = b := by
  cases answer with
  | error fault => simp [Except.map]
  | ok a => simp [Except.map]

theorem toOption_eq_some {answer : Except ε α} {a : α} :
    answer.toOption = some a ↔ answer = .ok a := by
  cases answer with
  | error fault => simp [Except.toOption]
  | ok a => simp [Except.toOption]

end CableCapture
