import LiveTemplate.Number.Binary

/-!
# LiveTemplate.Number.Reading

Numbers read from decimal text: an optional sign, then digits with at most one point and at least
one digit, and an optional exponent; or `inf`, `infinity` or `nan` in any case.
-/

namespace LiveTemplate
namespace Number

def digitValue (c : Char) : Nat := c.toNat - '0'.toNat

/-- The number that decimal digits spell. -/
def ofDigits (cs : List Char) : Nat := cs.foldl (fun n c => n * 10 + digitValue c) 0

/-- The double nearest to `coefficient * 10 ^ exponent`. Beyond the range of doubles the answer is
settled by the magnitude alone. -/
def ofDecimal (coefficient : Nat) (exponent : Int) : Float :=
  if coefficient = 0 then 0
  else
    let magnitude := (Nat.toDigits 10 coefficient).length + exponent
    if magnitude < -330 then 0
    else if 310 < magnitude then 1 / 0
    else Float.ofScientific coefficient (exponent < 0) exponent.natAbs

/-- Splits a leading sign off; `true` is minus. -/
def splitSign : List Char → Bool × List Char
  | '-' :: rest => (true, rest)
  | '+' :: rest => (false, rest)
  | cs => (false, cs)

/-- A signed whole number that fills the text. -/
def readExponent? (cs : List Char) : Option Int :=
  let (negative, digits) := splitSign cs
  if digits.isEmpty || !digits.all Char.isDigit then none
  else some (if negative then -(ofDigits digits : Int) else ofDigits digits)

/-- Digits, point and exponent, without a sign. -/
def readMagnitude? (cs : List Char) : Option Float :=
  let whole := cs.takeWhile Char.isDigit
  let afterWhole := cs.dropWhile Char.isDigit
  let (fraction, rest) :=
    match afterWhole with
    | '.' :: more => (more.takeWhile Char.isDigit, more.dropWhile Char.isDigit)
    | _ => ([], afterWhole)
  if whole.isEmpty && fraction.isEmpty then none
  else
    let coefficient := ofDigits (whole ++ fraction)
    match rest with
    | [] => some (ofDecimal coefficient (-fraction.length))
    | mark :: exponent =>
      if mark = 'e' || mark = 'E' then
        (readExponent? exponent).map fun e => ofDecimal coefficient (e - fraction.length)
      else none

/-- The names of the numbers that have no digits. -/
def readName? (cs : List Char) : Option Float :=
  let name := String.ofList (cs.map Char.toLower)
  if name = "inf" || name = "infinity" then some (1 / 0)
  else if name = "nan" then some nan
  else none

/-- The number that the whole text spells. -/
def read? (cs : List Char) : Option Float :=
  let (negative, rest) := splitSign cs
  (readMagnitude? rest <|> readName? rest).map fun x => if negative then -x else x

end Number
end LiveTemplate
