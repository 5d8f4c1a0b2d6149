import LiveTemplate.Number.Binary

/-!
# LiveTemplate.Number.Shortest

Numbers as decimal text: the fewest digits that read back as the same number, written out without
an exponent. Of the candidates with that many digits the nearest wins; what happens when two are
equally near is up to the format.
-/

namespace LiveTemplate
namespace Number

/-- The number `coefficient * 10 ^ exponent`. -/
structure Decimal where
  coefficient : Nat
  exponent : Int
  deriving DecidableEq, Repr

/-- Which of two equally near candidates is taken. -/
inductive Tie where
  | up
  | even
  deriving DecidableEq, Repr

def digitCount (n : Nat) : Nat := (Nat.toDigits 10 n).length

/-- The `k` with `10 ^ (k - 1) ≤ m * 2 ^ q < 10 ^ k`, for positive `m`. -/
def magnitude (m : Nat) (q : Int) : Int :=
  let numerator := m <<< q.toNat
  let denominator := 1 <<< (-q).toNat
  if denominator ≤ numerator then digitCount (numerator / denominator)
  else 1 - (digitCount ((denominator + numerator - 1) / numerator - 1) : Int)

/-- The decimal of `count` digits that reads back as `m * 2 ^ q`, if there is one.

Everything is measured in quarters of the last bit: the numbers that read back as `m * 2 ^ q` lie
two quarters to either side of it, or one quarter below when the next lower number is nearer. The
two ends belong to the interval when `m` is even. -/
def decimalOf? (tie : Tie) (m : Nat) (q : Int) (count : Nat) : Option Decimal :=
  let exponent := magnitude m q - count
  let quarter := q - 2
  let perUnit := Nat.pow 10 exponent.toNat <<< (-quarter).toNat
  let perQuarter := Nat.pow 10 (-exponent).toNat <<< quarter.toNat
  let value := 4 * m * perQuarter
  let low := (4 * m - if m = 1 <<< 52 && q ≠ -1074 then 1 else 2) * perQuarter
  let high := (4 * m + 2) * perQuarter
  let inside (n : Nat) : Bool :=
    if m % 2 = 0 then low ≤ n * perUnit && n * perUnit ≤ high
    else low < n * perUnit && n * perUnit < high
  let below := value / perUnit
  let above := below + 1
  let toBelow := value - below * perUnit
  let toAbove := above * perUnit - value
  let belowNearer := toBelow < toAbove || toBelow = toAbove && tie = .even && below % 2 = 0
  if inside below && (!inside above || belowNearer) then
    some ⟨below, exponent⟩
  else if inside above then
    if above = Nat.pow 10 count then some ⟨Nat.pow 10 (count - 1), exponent + 1⟩
    else some ⟨above, exponent⟩
  else none

/-- The shortest decimal that reads back as `m * 2 ^ q`, for positive `m`. Seventeen digits always
suffice. -/
def shortest (tie : Tie) (m : Nat) (q : Int) : Decimal :=
  ((List.range 17).findSome? fun i => decimalOf? tie m q (i + 1)).getD ⟨m, 0⟩

/-- The decimal without an exponent. -/
def Decimal.positional (d : Decimal) : List Char :=
  let digits := Nat.toDigits 10 d.coefficient
  if 0 ≤ d.exponent then digits ++ List.replicate d.exponent.toNat '0'
  else
    let places := (-d.exponent).toNat
    if places < digits.length then
      digits.take (digits.length - places) ++ '.' :: digits.drop (digits.length - places)
    else '0' :: '.' :: List.replicate (places - digits.length) '0' ++ digits

/-- The text of a number. Both zeros are written `0`, and a tie goes up. -/
def text (x : Float) : String :=
  match binary? x with
  | none => if x.isNaN then "NaN" else if x < 0 then "-Infinity" else "Infinity"
  | some b =>
    if b.mantissa = 0 then "0"
    else
      let digits := (shortest .up b.mantissa b.exponent).positional
      String.ofList (if b.negative then '-' :: digits else digits)

end Number
end LiveTemplate
