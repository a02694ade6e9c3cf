/-!
# Paths

Paths are names separated by slashes. Empty names and single dots mean nothing.
-/

namespace CableCapture.Path

/-- The pieces between slashes. -/
def split : List Char → List (List Char)
  | [] => [[]]
  | c :: rest =>
    if c = '/' then [] :: split rest
    else
      match split rest with
      | [] => [[c]]
      | piece :: pieces => (c :: piece) :: pieces

/-- The names of a path. -/
def names (path : String) : List String :=
  ((split path.toList).filter fun piece => piece ≠ [] && piece ≠ ['.']).map String.ofList

/-- The name of the file that a path leads to. -/
def fileName? (path : String) : Option String :=
  match (names path).getLast? with
  | some ".." => none
  | name? => name?

/-- What follows the last dot of a file name, unless the dot comes first. -/
def suffix? (name : String) : Option String :=
  let reversed := name.toList.reverse
  let suffix := reversed.takeWhile (· ≠ '.')
  match reversed.drop suffix.length with
  | _ :: _ :: _ => some (.ofList suffix.reverse)
  | _ => none

end CableCapture.Path
