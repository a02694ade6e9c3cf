/-!
# JSON texts

A strict reader and an indenting printer. Strings are kept as code units: characters as they stand, and
what an escape names, so half a surrogate pair can be skipped over where no text is wanted. Objects
keep all their fields in order.
-/

namespace CableCapture

inductive JsonValue where
  | null
  | bool (value : Bool)
  /-- A number as it is written. -/
  | number (digits : List Char)
  | string (units : List Nat)
  | array (items : List JsonValue)
  | object (fields : List (List Nat × JsonValue))

namespace JsonValue

-- ---------------------------------------------------------------------------
-- Strings
-- ---------------------------------------------------------------------------

/-- The characters of code units; a surrogate without its other half is no text. -/
def textOf : List Nat → Option (List Char)
  | [] => some []
  | high :: low :: rest =>
    if 0xD800 ≤ high ∧ high < 0xDC00 then
      if 0xDC00 ≤ low ∧ low < 0xE000 then
        (textOf rest).map (Char.ofNat (0x10000 + (high - 0xD800) * 0x400 + (low - 0xDC00)) :: ·)
      else none
    else if 0xDC00 ≤ high ∧ high < 0xE000 then none
    else (textOf (low :: rest)).map (Char.ofNat high :: ·)
  | [unit] => if 0xD800 ≤ unit ∧ unit < 0xE000 then none else some [Char.ofNat unit]

/-- The text of a string value. -/
def text? : JsonValue → Option String
  | string units => (textOf units).map String.ofList
  | _ => none

def ofString (s : String) : JsonValue :=
  string (s.toList.map Char.toNat)

def ofNat (n : Nat) : JsonValue :=
  number (Nat.toDigits 10 n)

def hexDigit? (c : Char) : Option Nat :=
  if c.isDigit then some (c.toNat - 48)
  else if 'a' ≤ c ∧ c ≤ 'f' then some (c.toNat - 87)
  else if 'A' ≤ c ∧ c ≤ 'F' then some (c.toNat - 55)
  else none

/-- What a one-letter escape stands for. -/
def escape? : Char → Option Nat
  | '"' => some 0x22
  | '\\' => some 0x5C
  | '/' => some 0x2F
  | 'b' => some 0x08
  | 'f' => some 0x0C
  | 'n' => some 0x0A
  | 'r' => some 0x0D
  | 't' => some 0x09
  | _ => none

/-- The units up to the closing quote, and what follows it. Control characters must be escaped. -/
def scanString : List Char → Option (List Nat × List Char)
  | '"' :: rest => some ([], rest)
  | '\\' :: 'u' :: a :: b :: c :: d :: rest => do
    let unit := 4096 * (← hexDigit? a) + 256 * (← hexDigit? b) + 16 * (← hexDigit? c) +
      (← hexDigit? d)
    let (units, rest) ← scanString rest
    return (unit :: units, rest)
  | '\\' :: c :: rest => do
    let unit ← escape? c
    let (units, rest) ← scanString rest
    return (unit :: units, rest)
  | c :: rest =>
    if c.toNat < 0x20 ∨ c = '\\' then none
    else do
      let (units, rest) ← scanString rest
      return (c.toNat :: units, rest)
  | [] => none

-- ---------------------------------------------------------------------------
-- Numbers
-- ---------------------------------------------------------------------------

/-- At least one digit, and what follows the digits. -/
def scanDigits (cs : List Char) : Option (List Char × List Char) :=
  let digits := cs.takeWhile Char.isDigit
  if digits.isEmpty then none else some (digits, cs.drop digits.length)

/-- The integer part: a zero alone or digits that do not start with one. -/
def scanInteger : List Char → Option (List Char × List Char)
  | '0' :: rest => some (['0'], rest)
  | cs => scanDigits cs

/-- An optional point with digits behind it. -/
def scanFraction : List Char → Option (List Char × List Char)
  | '.' :: rest => do
    let (digits, rest) ← scanDigits rest
    return ('.' :: digits, rest)
  | cs => some ([], cs)

/-- An optional exponent with an optional sign. -/
def scanExponent : List Char → Option (List Char × List Char)
  | e :: rest =>
    if e = 'e' ∨ e = 'E' then do
      let (sign, rest) := match rest with
        | '+' :: rest => (['+'], rest)
        | '-' :: rest => (['-'], rest)
        | rest => ([], rest)
      let (digits, rest) ← scanDigits rest
      return (e :: sign ++ digits, rest)
    else some ([], e :: rest)
  | [] => some ([], [])

def scanNumber (cs : List Char) : Option (List Char × List Char) := do
  let (sign, rest) := match cs with
    | '-' :: rest => (['-'], rest)
    | rest => ([], rest)
  let (whole, rest) ← scanInteger rest
  let (fraction, rest) ← scanFraction rest
  let (power, rest) ← scanExponent rest
  return (sign ++ whole ++ fraction ++ power, rest)

-- ---------------------------------------------------------------------------
-- Values
-- ---------------------------------------------------------------------------

/-- Drops spaces, tabs and line ends. -/
def skipBlanks (cs : List Char) : List Char :=
  cs.dropWhile fun c => c = ' ' || c = '\t' || c = '\n' || c = '\r'

/-- The rest behind a word. -/
def afterWord (word cs : List Char) : Option (List Char) :=
  if word.isPrefixOf cs then some (cs.drop word.length) else none

mutual

/-- One value, and what follows it. Every value, item and field spends one of the first argument. -/
def scanValue : (budget : Nat) → List Char → Option (JsonValue × List Char)
  | 0, _ => none
  | budget + 1, cs =>
    match skipBlanks cs with
    | 'n' :: rest => (afterWord ['u', 'l', 'l'] rest).map fun rest => (null, rest)
    | 't' :: rest => (afterWord ['r', 'u', 'e'] rest).map fun rest => (bool true, rest)
    | 'f' :: rest => (afterWord ['a', 'l', 's', 'e'] rest).map fun rest => (bool false, rest)
    | '"' :: rest => (scanString rest).map fun (units, rest) => (string units, rest)
    | '[' :: rest =>
      match skipBlanks rest with
      | ']' :: rest => some (array [], rest)
      | rest => (scanItems budget rest).map fun (items, rest) => (array items, rest)
    | '\x7b' :: rest =>
      match skipBlanks rest with
      | '\x7d' :: rest => some (object [], rest)
      | rest => (scanFields budget rest).map fun (fields, rest) => (object fields, rest)
    | rest => (scanNumber rest).map fun (digits, rest) => (number digits, rest)

/-- The items of an array up to its end. -/
def scanItems : (budget : Nat) → List Char → Option (List JsonValue × List Char)
  | 0, _ => none
  | budget + 1, cs => do
    let (item, rest) ← scanValue budget cs
    match skipBlanks rest with
    | ',' :: rest =>
      let (items, rest) ← scanItems budget rest
      return (item :: items, rest)
    | ']' :: rest => return ([item], rest)
    | _ => none

/-- The fields of an object up to its end. -/
def scanFields : (budget : Nat) → List Char → Option (List (List Nat × JsonValue) × List Char)
  | 0, _ => none
  | budget + 1, cs => do
    match skipBlanks cs with
    | '"' :: rest =>
      let (key, rest) ← scanString rest
      match skipBlanks rest with
      | ':' :: rest =>
        let (value, rest) ← scanValue budget rest
        match skipBlanks rest with
        | ',' :: rest =>
          let (fields, rest) ← scanFields budget rest
          return ((key, value) :: fields, rest)
        | '\x7d' :: rest => return ([(key, value)], rest)
        | _ => none
      | _ => none
    | _ => none

end

/-- The value that a whole text spells. Every value, item and field takes up a character, so twice the
length of the text is budget enough. -/
def parse (text : String) : Option JsonValue := do
  let cs := text.toList
  let (value, rest) ← scanValue (2 * cs.length + 1) cs
  if (skipBlanks rest).isEmpty then return value else none

-- ---------------------------------------------------------------------------
-- Printing
-- ---------------------------------------------------------------------------

def renderUnit (unit : Nat) : List Char :=
  if unit = 0x22 then ['\\', '"']
  else if unit = 0x5C then ['\\', '\\']
  else if unit = 0x08 then ['\\', 'b']
  else if unit = 0x0C then ['\\', 'f']
  else if unit = 0x0A then ['\\', 'n']
  else if unit = 0x0D then ['\\', 'r']
  else if unit = 0x09 then ['\\', 't']
  else if unit < 0x20 then
    ['\\', 'u', '0', '0', Nat.digitChar (unit / 16), Nat.digitChar (unit % 16)]
  else [Char.ofNat unit]

def renderString (units : List Nat) : List Char :=
  '"' :: units.flatMap renderUnit ++ ['"']

/-- A line end and an indentation of two spaces for each level. -/
def newLine (level : Nat) : List Char :=
  '\n' :: List.replicate (2 * level) ' '

mutual

/-- The text of a value that stands at a level of nesting. -/
def render (level : Nat) : JsonValue → List Char
  | null => ['n', 'u', 'l', 'l']
  | bool true => ['t', 'r', 'u', 'e']
  | bool false => ['f', 'a', 'l', 's', 'e']
  | number digits => digits
  | string units => renderString units
  | array [] => ['[', ']']
  | array (item :: items) =>
    '[' :: newLine (level + 1) ++ render (level + 1) item ++ renderItems (level + 1) items ++
      newLine level ++ [']']
  | object [] => ['\x7b', '\x7d']
  | object ((key, value) :: fields) =>
    '\x7b' :: newLine (level + 1) ++ renderString key ++ [':', ' '] ++ render (level + 1) value ++
      renderFields (level + 1) fields ++ newLine level ++ ['\x7d']

/-- The items behind the first one. -/
def renderItems (level : Nat) : List JsonValue → List Char
  | [] => []
  | item :: items => ',' :: newLine level ++ render level item ++ renderItems level items

/-- The fields behind the first one. -/
def renderFields (level : Nat) : List (List Nat × JsonValue) → List Char
  | [] => []
  | (key, value) :: fields =>
    ',' :: newLine level ++ renderString key ++ [':', ' '] ++ render level value ++
      renderFields level fields

end

/-- The indented text of a value. -/
def print (value : JsonValue) : String :=
  .ofList (render 0 value)

end JsonValue

end CableCapture
