/-!
# Dates of the Gregorian calendar

Dates follow the Gregorian calendar, whose pattern of leap days repeats after 400 years. They are
written as RFC 3339 says.
-/

namespace CableCapture

/-- A day of the Gregorian calendar; months and days count from one. -/
structure Date where
  year : Nat
  month : Nat
  day : Nat
deriving DecidableEq, Repr

namespace Date

/-- Years here start in March, so that a leap day is the last day of its year. Day 0 is the first of
March in year 0. -/
def ofMarchDay (n : Nat) : Date :=
  let era := n / 146097
  let dayOfEra := n % 146097
  let yearOfEra := (dayOfEra - dayOfEra / 1460 + dayOfEra / 36524 - dayOfEra / 146096) / 365
  let dayOfYear := dayOfEra - (365 * yearOfEra + yearOfEra / 4 - yearOfEra / 100)
  let marchMonth := (5 * dayOfYear + 2) / 153
  let day := dayOfYear - (153 * marchMonth + 2) / 5 + 1
  let month := if marchMonth < 10 then marchMonth + 3 else marchMonth - 9
  let year := 400 * era + yearOfEra + (if month ≤ 2 then 1 else 0)
  { year, month, day }

/-- The date so many days after the first of January 1970. -/
def ofUnixDay (n : Nat) : Date :=
  ofMarchDay (n + 719468)

end Date

namespace Gregorian

/-- A decimal number of at least `width` digits. -/
def padded (width n : Nat) : List Char :=
  let digits := Nat.toDigits 10 n
  List.replicate (width - digits.length) '0' ++ digits

/-- The date, the time of day and the offset from universal time as RFC 3339 writes them. -/
def rfc3339 (seconds : UInt32) : String :=
  let date := Date.ofUnixDay (seconds.toNat / 86400)
  let second := seconds.toNat % 86400
  .ofList <|
    padded 4 date.year ++ ['-'] ++ padded 2 date.month ++ ['-'] ++ padded 2 date.day ++ ['T'] ++
    padded 2 (second / 3600) ++ [':'] ++ padded 2 (second / 60 % 60) ++ [':'] ++
    padded 2 (second % 60) ++ "+00:00".toList

end Gregorian

end CableCapture
