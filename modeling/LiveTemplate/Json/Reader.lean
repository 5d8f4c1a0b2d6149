import LiveTemplate.Json.Basic
import LiveTemplate.Number.Reading

/-!
# LiveTemplate.Json.Reader

Reads JSON. Numbers are read in 64 bits: digits are gathered into one 64-bit integer, digits that
no longer fit are dropped, and the rest is one multiplication or division by a power of ten. The
result can differ from the nearest double in its last bit. A number too large for a double is
refused, and so is nesting deeper than 127.
-/

namespace LiveTemplate
namespace Json

/-! ## Numbers -/

def maxUnsigned : Nat := 1 <<< 64 - 1

/-- The double nearest to `10 ^ n`. -/
def powerOfTen (n : Nat) : Float := Number.ofDecimal 1 n

/-- Divides by `10 ^ n`, by `10 ^ 308` at a time. -/
def divideByPower (x : Float) (n : Nat) : Float :=
  if n ≤ 308 then x / powerOfTen n
  else if x == 0 then x
  else divideByPower (x / powerOfTen 308) (n - 308)
  termination_by n
  decreasing_by omega

/-- The number `significand * 10 ^ exponent`, unless it is too large. -/
def scaled? (negative : Bool) (significand : Nat) (exponent : Int) : Option Float :=
  let x := Float.ofNat significand
  let magnitude? : Option Float :=
    if exponent < 0 then some (divideByPower x exponent.natAbs)
    else if 308 < exponent then if significand = 0 then some x else none
    else
      let y := x * powerOfTen exponent.toNat
      if y.isInf then none else some y
  magnitude?.map fun y => if negative then -y else y

/-- The digits of an exponent, with their sign. -/
def readExponent? (negative : Bool) (significand : Nat) (exponent : Int) (cs : List Char) :
    Option (Float × List Char) :=
  let (down, cs) := Number.splitSign cs
  let digits := cs.takeWhile Char.isDigit
  let rest := cs.dropWhile Char.isDigit
  if digits.isEmpty then none
  else
    let n : Int := Number.ofDigits digits
    (scaled? negative significand (if down then exponent - n else exponent + n)).map (·, rest)

/-- What comes after the digits: an exponent, or the end of the number. -/
def readScale? (negative : Bool) (significand : Nat) (exponent : Int) :
    List Char → Option (Float × List Char)
  | [] => (scaled? negative significand exponent).map (·, [])
  | c :: rest =>
    if c = 'e' || c = 'E' then readExponent? negative significand exponent rest
    else (scaled? negative significand exponent).map (·, c :: rest)

/-- Adds digits to a 64-bit significand as long as they fit. Gives the significand, how many digits
were taken, and the rest, which starts with a digit only if it did not fit. -/
def gather (significand taken : Nat) : List Char → Nat × Nat × List Char
  | [] => (significand, taken, [])
  | c :: rest =>
    let next := significand * 10 + Number.digitValue c
    if c.isDigit && next ≤ maxUnsigned then gather next (taken + 1) rest
    else (significand, taken, c :: rest)

/-- The digits behind the point, at least one. -/
def readFraction? (negative : Bool) (significand : Nat) (exponent : Int) (cs : List Char) :
    Option (Float × List Char) :=
  match cs with
  | [] => none
  | c :: _ =>
    if !c.isDigit then none
    else
      let (significand, taken, rest) := gather significand 0 cs
      readScale? negative significand (exponent - taken) (rest.dropWhile Char.isDigit)

/-- A number without its sign. -/
def readNumber? (negative : Bool) (cs : List Char) : Option (Json × List Char) :=
  match cs with
  | [] => none
  | c :: after =>
    if !c.isDigit then none
    else if c = '0' && (match after with | d :: _ => d.isDigit | [] => false) then none
    else
      let (significand, _, rest) := gather 0 0 cs
      let dropped := (rest.takeWhile Char.isDigit).length
      let rest := rest.dropWhile Char.isDigit
      match rest with
      | '.' :: fraction =>
        (readFraction? negative significand dropped fraction).map fun (x, r) => (.float x, r)
      | 'e' :: exponent | 'E' :: exponent =>
        (readExponent? negative significand dropped exponent).map fun (x, r) => (.float x, r)
      | _ =>
        if 0 < dropped then
          (scaled? negative significand dropped).map fun x => (.float x, rest)
        else if !negative then some (.integer significand, rest)
        else if significand = 0 || 1 <<< 63 < significand then
          some (.float (-(Float.ofNat significand)), rest)
        else some (.integer (-significand), rest)

/-! ## Strings -/

def hexValue? (c : Char) : Option Nat :=
  if c.isDigit then some (c.toNat - '0'.toNat)
  else if 'a' ≤ c && c ≤ 'f' then some (c.toNat - 'a'.toNat + 10)
  else if 'A' ≤ c && c ≤ 'F' then some (c.toNat - 'A'.toNat + 10)
  else none

/-- Four hexadecimal digits. -/
def readHex? : List Char → Option (Nat × List Char)
  | a :: b :: c :: d :: rest => do
    let a ← hexValue? a
    let b ← hexValue? b
    let c ← hexValue? c
    let d ← hexValue? d
    return (((a * 16 + b) * 16 + c) * 16 + d, rest)
  | _ => none

def isHighSurrogate (n : Nat) : Bool := 0xD800 ≤ n && n ≤ 0xDBFF

def isLowSurrogate (n : Nat) : Bool := 0xDC00 ≤ n && n ≤ 0xDFFF

/-- The character of a `\u` escape; surrogates have to come in pairs. -/
def readUnicode? (cs : List Char) : Option (Char × List Char) := do
  let (n, rest) ← readHex? cs
  if isLowSurrogate n then none
  else if isHighSurrogate n then
    match rest with
    | '\\' :: 'u' :: rest =>
      let (m, rest) ← readHex? rest
      if isLowSurrogate m then
        return (Char.ofNat (0x10000 + (n - 0xD800) * 0x400 + (m - 0xDC00)), rest)
      else none
    | _ => none
  else return (Char.ofNat n, rest)

/-- The character that an escape stands for. -/
def readEscape? : List Char → Option (Char × List Char)
  | '"' :: rest => some ('"', rest)
  | '\\' :: rest => some ('\\', rest)
  | '/' :: rest => some ('/', rest)
  | 'b' :: rest => some ('\x08', rest)
  | 'f' :: rest => some ('\x0c', rest)
  | 'n' :: rest => some ('\n', rest)
  | 'r' :: rest => some ('\r', rest)
  | 't' :: rest => some ('\t', rest)
  | 'u' :: rest => readUnicode? rest
  | _ => none

/-- The rest of a string up to its closing quote, with at most `n` characters. -/
def readString? : Nat → List Char → Option (List Char × List Char)
  | 0, _ => none
  | _ + 1, [] => none
  | n + 1, c :: rest =>
    if c = '"' then some ([], rest)
    else if c = '\\' then do
      let (c, rest) ← readEscape? rest
      let (s, rest) ← readString? n rest
      return (c :: s, rest)
    else if c.toNat < 0x20 then none
    else do
      let (s, rest) ← readString? n rest
      return (c :: s, rest)

/-! ## Values -/

def isSpace (c : Char) : Bool := c = ' ' || c = '\n' || c = '\t' || c = '\r'

def skipSpace (cs : List Char) : List Char := cs.dropWhile isSpace

mutual

/-- One value with at most `n` steps and fewer than `depth` levels of nesting. -/
def readValue? : Nat → Nat → List Char → Option (Json × List Char)
  | 0, _, _ => none
  | n + 1, depth, cs =>
    match skipSpace cs with
    | '[' :: rest =>
      if depth ≤ 1 then none
      else
        match skipSpace rest with
        | ']' :: rest => some (.array [], rest)
        | rest => do
          let (items, rest) ← readItems? n (depth - 1) rest
          return (.array items, rest)
    | '\x7b' :: rest =>
      if depth ≤ 1 then none
      else
        match skipSpace rest with
        | '\x7d' :: rest => some (.object [], rest)
        | rest => do
          let (members, rest) ← readMembers? n (depth - 1) rest
          return (ofMembers members, rest)
    | '"' :: rest => do
      let (s, rest) ← readString? (rest.length + 1) rest
      return (.string (String.ofList s), rest)
    | '-' :: rest => readNumber? true rest
    | 't' :: 'r' :: 'u' :: 'e' :: rest => some (.bool true, rest)
    | 'f' :: 'a' :: 'l' :: 's' :: 'e' :: rest => some (.bool false, rest)
    | 'n' :: 'u' :: 'l' :: 'l' :: rest => some (.null, rest)
    | rest => readNumber? false rest

/-- The items of a list and its closing bracket. -/
def readItems? : Nat → Nat → List Char → Option (List Json × List Char)
  | 0, _, _ => none
  | n + 1, depth, cs => do
    let (item, rest) ← readValue? n depth cs
    match skipSpace rest with
    | ',' :: rest =>
      let (items, rest) ← readItems? n depth rest
      return (item :: items, rest)
    | ']' :: rest => return ([item], rest)
    | _ => none

/-- The members of an object and its closing brace. -/
def readMembers? : Nat → Nat → List Char → Option (List (String × Json) × List Char)
  | 0, _, _ => none
  | n + 1, depth, cs =>
    match skipSpace cs with
    | '"' :: rest => do
      let (name, rest) ← readString? (rest.length + 1) rest
      match skipSpace rest with
      | ':' :: rest =>
        let (value, rest) ← readValue? n depth rest
        let member := (String.ofList name, value)
        match skipSpace rest with
        | ',' :: rest =>
          let (members, rest) ← readMembers? n depth rest
          return (member :: members, rest)
        | '\x7d' :: rest => return ([member], rest)
        | _ => none
      | _ => none
    | _ => none

end

/-- Lists and objects may be nested to one level less than this. -/
def depthLimit : Nat := 128

/-- The JSON document that fills the text. -/
def parse? (source : String) : Option Json := do
  let cs := source.toList
  let (json, rest) ← readValue? (2 * cs.length + 2) depthLimit cs
  if (skipSpace rest).isEmpty then some json else none

end Json
end LiveTemplate
