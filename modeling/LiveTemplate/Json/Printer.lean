import LiveTemplate.Json.Basic
import LiveTemplate.Number.Shortest

/-!
# LiveTemplate.Json.Printer

JSON as text, on one line or indented by two spaces a level.
-/

namespace LiveTemplate
namespace Json

/-- Two hexadecimal digits of a small number. -/
def hexPair (n : Nat) : List Char :=
  let digits := Nat.toDigits 16 n
  List.replicate (2 - digits.length) '0' ++ digits

def escapeChar (c : Char) : List Char :=
  if c = '"' then ['\\', '"']
  else if c = '\\' then ['\\', '\\']
  else if c = '\n' then ['\\', 'n']
  else if c = '\r' then ['\\', 'r']
  else if c = '\t' then ['\\', 't']
  else if c = '\x08' then ['\\', 'b']
  else if c = '\x0c' then ['\\', 'f']
  else if c.toNat < 0x20 then ['\\', 'u', '0', '0'] ++ hexPair c.toNat
  else [c]

def quoteText (s : String) : String :=
  String.ofList ('"' :: s.toList.flatMap escapeChar ++ ['"'])

/-- A power of ten behind the digits, its sign always written. -/
def exponentChars (n : Int) : List Char :=
  'e' :: (if n < 0 then '-' else '+') :: Nat.toDigits 10 n.natAbs

/-- A decimal with its point among the digits or at most four zeros in front of them, written with
sixteen places at most before the point; any other with an exponent. -/
def decimalChars (d : Number.Decimal) : List Char :=
  let digits := Nat.toDigits 10 d.coefficient
  let point : Int := digits.length + d.exponent
  if 0 ≤ d.exponent && point ≤ 16 then d.positional ++ ['.', '0']
  else if -5 < point && point ≤ 16 then d.positional
  else
    let exponent := exponentChars (point - 1)
    match digits with
    | [] => exponent
    | [digit] => digit :: exponent
    | digit :: more => digit :: '.' :: more ++ exponent

/-- Floats always show a point or an exponent. A tie goes to the even digit. -/
def floatText (x : Float) : String :=
  match Number.binary? x with
  | none => "null"
  | some b =>
    let chars :=
      if b.mantissa = 0 then ['0', '.', '0']
      else decimalChars (Number.shortest .even b.mantissa b.exponent)
    String.ofList (if b.negative then '-' :: chars else chars)

mutual

/-- On one line, without spaces. -/
def compact : Json → String
  | .null => "null"
  | .bool b => if b then "true" else "false"
  | .integer n => toString n
  | .float x => floatText x
  | .string s => quoteText s
  | .array items => "[" ++ ",".intercalate (compactItems items) ++ "]"
  | .object members => "\x7b" ++ ",".intercalate (compactMembers members) ++ "\x7d"

def compactItems : List Json → List String
  | [] => []
  | item :: rest => item.compact :: compactItems rest

def compactMembers : List (String × Json) → List String
  | [] => []
  | (name, value) :: rest => (quoteText name ++ ":" ++ value.compact) :: compactMembers rest

end

/-- A new line at a level of nesting. -/
def newline (level : Nat) : String := "\n" ++ String.ofList (List.replicate (2 * level) ' ')

/-- Entries between brackets, each on a line of its own. -/
def block (opening closing : String) (level : Nat) (entries : List String) : String :=
  if entries.isEmpty then opening ++ closing
  else
    opening ++ newline (level + 1) ++ ("," ++ newline (level + 1)).intercalate entries
      ++ newline level ++ closing

mutual

def prettyAt (level : Nat) : Json → String
  | .null => "null"
  | .bool b => if b then "true" else "false"
  | .integer n => toString n
  | .float x => floatText x
  | .string s => quoteText s
  | .array items => block "[" "]" level (prettyItems (level + 1) items)
  | .object members => block "\x7b" "\x7d" level (prettyMembers (level + 1) members)

def prettyItems (level : Nat) : List Json → List String
  | [] => []
  | item :: rest => item.prettyAt level :: prettyItems level rest

def prettyMembers (level : Nat) : List (String × Json) → List String
  | [] => []
  | (name, value) :: rest =>
    (quoteText name ++ ": " ++ value.prettyAt level) :: prettyMembers level rest

end

/-- On many lines, indented. -/
def pretty (json : Json) : String := json.prettyAt 0

end Json
end LiveTemplate
