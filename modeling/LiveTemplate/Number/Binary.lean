/-!
# LiveTemplate.Number.Binary

A finite number taken apart into a sign and `mantissa * 2 ^ exponent`, and the operations that are
exact on that form: the remainder of a division, and the number as a position in a sequence.
-/

namespace LiveTemplate
namespace Number

/-- The number `mantissa * 2 ^ exponent`, negated if `negative`. -/
structure Binary where
  negative : Bool
  mantissa : Nat
  exponent : Int
  deriving DecidableEq, Repr

/-- The parts of a finite number, nothing for an infinity or a NaN. -/
def binary? (x : Float) : Option Binary :=
  let bits : Nat := x.toBits.toNat
  let negative := 1 <<< 63 ≤ bits
  let biased : Nat := (bits >>> 52) % (1 <<< 11)
  let fraction := bits % (1 <<< 52)
  if biased = 1 <<< 11 - 1 then none
  else if biased = 0 then some ⟨negative, fraction, -1074⟩
  else some ⟨negative, 1 <<< 52 + fraction, biased - 1075⟩

/-- The number with these parts. It is exact when the mantissa, freed of trailing zero bits, has
at most 53 bits and the exponent of its last bit is at least -1074. -/
def Binary.toFloat (b : Binary) : Float :=
  let sign := if b.negative then 1 <<< 63 else 0
  if b.mantissa = 0 then Float.ofBits (UInt64.ofNat sign)
  else
    let exponent := max (b.exponent + b.mantissa.log2 - 52) (-1074)
    let mantissa :=
      if exponent ≤ b.exponent then b.mantissa <<< (b.exponent - exponent).toNat
      else b.mantissa >>> (exponent - b.exponent).toNat
    if mantissa < 1 <<< 52 then Float.ofBits (UInt64.ofNat (sign + mantissa))
    else
      Float.ofBits
        (UInt64.ofNat (sign + (exponent + 1075).toNat <<< 52 + (mantissa - 1 <<< 52)))

def nan : Float := 0 / 0

/-- What is left of `x` after taking away `y` as often as it fits, with the sign of `x`. -/
def remainder (x y : Float) : Float :=
  match binary? x, binary? y with
  | some a, some b =>
    if b.mantissa = 0 then nan
    else
      let exponent := min a.exponent b.exponent
      let dividend := a.mantissa <<< (a.exponent - exponent).toNat
      let divisor := b.mantissa <<< (b.exponent - exponent).toNat
      Binary.toFloat ⟨a.negative, dividend % divisor, exponent⟩
  | some _, none => if y.isNaN then nan else x
  | none, _ => nan

/-- The position that a whole number from zero on stands for. Negative zero counts as zero. -/
def position? (x : Float) : Option Nat :=
  match binary? x with
  | none => none
  | some b =>
    if b.negative && b.mantissa ≠ 0 then none
    else if 0 ≤ b.exponent then some (b.mantissa <<< b.exponent.toNat)
    else
      let unit := 1 <<< (-b.exponent).toNat
      if b.mantissa % unit = 0 then some (b.mantissa / unit) else none

end Number
end LiveTemplate
