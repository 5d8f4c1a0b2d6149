import LiveTemplate.Value
import Mathlib

/-!
# LiveTemplate.Proofs.Numbers

Equal numbers. Two numbers that compare equal are one and the same, or they are the two zeros;
in either case they have the same text and the same truth. NaN alone is not equal to itself.

  * `Layout`            what the bits of a number say about its sign, mantissa and exponent
  * `same_of_beq`       equal numbers are the same number, or both are zeros
  * `beq_comm`          whichever of them comes first
  * `text_of_same`      and then they are written alike
  * `beq_self`          the numbers that are equal to themselves
-/

namespace LiveTemplate
namespace Number

open Float.Model

/-- The topmost bit of a number with this sign. -/
def signBit : UnpackedFloat.Sign → Nat
  | .negative => 1
  | .positive => 0

/-- The bits `n` stand for this number. -/
inductive Layout (n : Nat) : UnpackedFloat → Prop
  | notANumber : Layout n .notANumber
  | infinity (s : UnpackedFloat.Sign) (sign : n / 2 ^ 63 % 2 = signBit s)
      (exponent : n / 2 ^ 52 % 2 ^ 11 = 2047) (mantissa : n % 2 ^ 52 = 0) :
      Layout n (.infinity s)
  | zero (s : UnpackedFloat.Sign) (exponent : n / 2 ^ 52 % 2 ^ 11 = 0)
      (mantissa : n % 2 ^ 52 = 0) : Layout n (.zero s)
  | subnormal (s : UnpackedFloat.Sign) (m : Nat) (e : Int) (positive : 0 < m)
      (sign : n / 2 ^ 63 % 2 = signBit s) (exponent : n / 2 ^ 52 % 2 ^ 11 = 0)
      (mantissa : n % 2 ^ 52 = m) (least : e = -1074) : Layout n (.finite s m e positive)
  | normal (s : UnpackedFloat.Sign) (m : Nat) (e : Int) (positive : 0 < m)
      (sign : n / 2 ^ 63 % 2 = signBit s) (biased : 0 < n / 2 ^ 52 % 2 ^ 11)
      (exponent : ((n / 2 ^ 52 % 2 ^ 11 : Nat) : Int) = e + 1075)
      (mantissa : 2 ^ 52 + n % 2 ^ 52 = m) : Layout n (.finite s m e positive)

theorem toNat_mantissa (b : BitVec 64) :
    (@UnpackedFloat.unpackMantissa Format.binary64 b).toNat = b.toNat % 2 ^ 52 := by
  simp [UnpackedFloat.unpackMantissa]

theorem toNat_exponent (b : BitVec 64) :
    (@UnpackedFloat.unpackExponent Format.binary64 b).toNat = b.toNat / 2 ^ 52 % 2 ^ 11 := by
  simp [UnpackedFloat.unpackExponent, Nat.shiftRight_eq_div_pow]

theorem toNat_sign (b : BitVec 64) :
    b.toNat / 2 ^ 63 % 2 =
      signBit (.ofBitVec (@UnpackedFloat.unpackSign Format.binary64 b)) := by
  have field : (@UnpackedFloat.unpackSign Format.binary64 b).toNat = b.toNat / 2 ^ 63 % 2 := by
    simp [UnpackedFloat.unpackSign, Nat.shiftRight_eq_div_pow]
  rw [← field]
  by_cases zero : @UnpackedFloat.unpackSign Format.binary64 b = 0#1
  · simp [UnpackedFloat.Sign.ofBitVec, zero, signBit]
  · simp only [UnpackedFloat.Sign.ofBitVec, if_neg zero, signBit]
    bv_omega

theorem layout_unpack (b : BitVec 64) :
    Layout b.toNat (UnpackedFloat.unpack Format.binary64 b) := by
  have mantissa := toNat_mantissa b
  have exponent := toNat_exponent b
  have bias : ((Format.binary64.exponentBias : Nat) : Int) = 1023 := rfl
  have places : ((Format.binary64.mantissaBitsWithoutImplicit : Nat) : Int) = 52 := rfl
  rw [UnpackedFloat.unpack]
  split
  · rename_i special
    split
    · rename_i blank
      refine .infinity _ (toNat_sign b) ?_ ?_
      · rw [← exponent, special]; rfl
      · rw [← mantissa, blank]; rfl
    · exact .notANumber
  · split
    · rename_i least
      have biased : b.toNat / 2 ^ 52 % 2 ^ 11 = 0 := by rw [← exponent, least]; rfl
      split
      · rename_i blank
        exact .zero _ biased (by rw [← mantissa, blank]; rfl)
      · refine .subnormal _ _ _ _ (toNat_sign b) biased mantissa.symm ?_
        rw [exponent, bias, places, biased]
        rfl
    · rename_i more
      have wide : (1#1 ++ @UnpackedFloat.unpackMantissa Format.binary64 b).toNat
          = 2 ^ 52 + (@UnpackedFloat.unpackMantissa Format.binary64 b).toNat := by
        rw [BitVec.toNat_append, ← Nat.shiftLeft_add_eq_or_of_lt (BitVec.isLt _)]
        simp [Nat.shiftLeft_eq]
      have biased : b.toNat / 2 ^ 52 % 2 ^ 11 ≠ 0 := by
        intro zero
        exact more (BitVec.eq_of_toNat_eq (by rw [exponent, zero]; rfl))
      refine .normal _ _ _ _ (toNat_sign b) (Nat.pos_of_ne_zero biased) ?_ ?_
      · rw [exponent, bias, places]; omega
      · rw [wide, mantissa]

/-- A number other than NaN and the zeros determines its bits. -/
theorem Layout.unique {n k : Nat} {u : UnpackedFloat} (hn : n < 2 ^ 64) (hk : k < 2 ^ 64)
    (left : Layout n u) (right : Layout k u) (number : u ≠ .notANumber)
    (nonzero : ∀ s, u ≠ .zero s) : n = k := by
  cases left with
  | notANumber => exact absurd rfl number
  | zero s => exact absurd rfl (nonzero s)
  | infinity s sign exponent mantissa =>
    cases right with
    | infinity _ sign' exponent' mantissa' => omega
  | subnormal s m e positive sign exponent mantissa least =>
    cases right with
    | subnormal _ _ _ _ sign' exponent' mantissa' least' => omega
    | normal _ _ _ _ sign' biased' exponent' mantissa' => omega
  | normal s m e positive sign biased exponent mantissa =>
    cases right with
    | subnormal _ _ _ _ sign' exponent' mantissa' least' => omega
    | normal _ _ _ _ sign' biased' exponent' mantissa' => omega

theorem eq_of_compare {a b : UnpackedFloat} (h : a.compare b = some .eq) :
    a = b ∧ a ≠ .notANumber ∧ (∀ s, a ≠ .zero s) ∨ ∃ s t, a = .zero s ∧ b = .zero t := by
  cases a with
  | notANumber => cases b <;> simp [UnpackedFloat.compare] at h
  | infinity s =>
    cases s <;> cases b with
    | infinity t =>
      cases t <;> cases h
      simp
    | _ => cases h
  | zero s =>
    cases b with
    | zero t => exact .inr ⟨s, t, rfl, rfl⟩
    | infinity t => cases t <;> cases h
    | finite t m e _ => cases t <;> cases h
    | notANumber => cases h
  | finite s m e positive =>
    cases b with
    | finite t m' e' _ =>
      cases s <;> cases t <;>
        simp [UnpackedFloat.compare, Ordering.then_eq_eq] at h ⊢ <;>
        omega
    | infinity t => cases s <;> cases t <;> cases h
    | zero t => cases s <;> cases h
    | notANumber => cases h

/-! ## Numbers that are not told apart -/

/-- One and the same number, or the two zeros. -/
def Same (x y : Float) : Prop := x = y ∨ (x == 0) = true ∧ (y == 0) = true

theorem Same.symm {x y : Float} (h : Same x y) : Same y x := by
  rcases h with h | ⟨hx, hy⟩
  · exact .inl h.symm
  · exact .inr ⟨hy, hx⟩

theorem Same.trans {x y z : Float} (h : Same x y) (k : Same y z) : Same x z := by
  rcases h with rfl | ⟨hx, hy⟩
  · exact k
  · rcases k with rfl | ⟨_, hz⟩
    · exact .inr ⟨hx, hy⟩
    · exact .inr ⟨hx, hz⟩

theorem beq_eq_compare (x y : Float) :
    (x == y) = (x.toModel.unpack.compare y.toModel.unpack == some .eq) := rfl

theorem unpack_zero : (0 : Float).toModel.unpack = .zero .positive := by
  rfl

theorem beq_zero_iff (x : Float) : (x == 0) = true ↔ ∃ s, x.toModel.unpack = .zero s := by
  rw [beq_eq_compare, unpack_zero, beq_iff_eq]
  constructor
  · intro h
    rcases eq_of_compare h with ⟨same, _⟩ | ⟨s, _, zero, _⟩
    · exact ⟨.positive, same⟩
    · exact ⟨s, zero⟩
  · rintro ⟨s, zero⟩
    rw [zero]
    rfl

theorem same_of_beq {x y : Float} (h : (x == y) = true) : Same x y := by
  rw [beq_eq_compare, beq_iff_eq] at h
  rcases eq_of_compare h with ⟨same, number, nonzero⟩ | ⟨s, t, hx, hy⟩
  · left
    have left := layout_unpack x.toModel.toBits.toBitVec
    have right := layout_unpack y.toModel.toBits.toBitVec
    have agree : x.toModel.toBits.toBitVec.toNat = y.toModel.toBits.toBitVec.toNat := by
      refine left.unique (BitVec.isLt _) (BitVec.isLt _) ?_ number nonzero
      have unpacked : UnpackedFloat.unpack Format.binary64 x.toModel.toBits.toBitVec
          = UnpackedFloat.unpack Format.binary64 y.toModel.toBits.toBitVec := same
      rw [unpacked]
      exact right
    obtain ⟨⟨⟨bits⟩, _⟩⟩ := x
    obtain ⟨⟨⟨bits'⟩, _⟩⟩ := y
    cases BitVec.eq_of_toNat_eq agree
    rfl
  · exact .inr ⟨(beq_zero_iff x).mpr ⟨s, hx⟩, (beq_zero_iff y).mpr ⟨t, hy⟩⟩

theorem beq_comm (x y : Float) : (x == y) = (y == x) := by
  have flip {x y : Float} (h : (x == y) = true) : (y == x) = true := by
    rcases same_of_beq h with rfl | ⟨hx, hy⟩
    · exact h
    · obtain ⟨s, zero⟩ := (beq_zero_iff x).mp hx
      obtain ⟨t, zero'⟩ := (beq_zero_iff y).mp hy
      rw [beq_eq_compare, zero, zero']
      rfl
  exact Bool.eq_iff_iff.mpr ⟨flip, flip⟩

theorem text_of_zero {x : Float} (h : (x == 0) = true) : text x = "0" := by
  obtain ⟨s, zero⟩ := (beq_zero_iff x).mp h
  have layout := layout_unpack x.toModel.toBits.toBitVec
  rw [show UnpackedFloat.unpack Format.binary64 x.toModel.toBits.toBitVec = .zero s from zero]
    at layout
  obtain ⟨exponent, mantissa⟩ :
      (x.toBits.toNat >>> 52) % (1 <<< 11) = 0 ∧ x.toBits.toNat % (1 <<< 52) = 0 := by
    rw [Nat.shiftRight_eq_div_pow]
    cases layout with
    | zero _ exponent mantissa => exact ⟨exponent, mantissa⟩
  have parts : binary? x = some ⟨1 <<< 63 ≤ x.toBits.toNat, 0, -1074⟩ := by
    change (if (x.toBits.toNat >>> 52) % (1 <<< 11) = 1 <<< 11 - 1 then none
      else if (x.toBits.toNat >>> 52) % (1 <<< 11) = 0 then
        some (Binary.mk (1 <<< 63 ≤ x.toBits.toNat) (x.toBits.toNat % (1 <<< 52)) (-1074))
      else some _) = _
    rw [exponent, mantissa, if_neg (by decide), if_pos rfl]
  rw [text, parts]
  exact if_pos rfl

theorem text_of_same {x y : Float} (h : Same x y) : text x = text y := by
  rcases h with rfl | ⟨hx, hy⟩
  · rfl
  · rw [text_of_zero hx, text_of_zero hy]

/-! ## NaN -/

theorem compare_self {u : UnpackedFloat} (number : u ≠ .notANumber) :
    u.compare u = some .eq := by
  cases u with
  | notANumber => exact absurd rfl number
  | infinity s => cases s <;> rfl
  | zero s => rfl
  | finite s m e positive => cases s <;> simp [UnpackedFloat.compare]

theorem isNaN_iff (x : Float) : x.isNaN = true ↔ x.toModel.unpack = .notANumber := by
  change x.toModel.unpack.isNaN = true ↔ _
  cases x.toModel.unpack <;> simp [UnpackedFloat.isNaN]

theorem not_isNaN_of_beq {x y : Float} (h : (x == y) = true) : y.isNaN = false := by
  rw [beq_eq_compare, beq_iff_eq] at h
  rw [Bool.eq_false_iff, ne_eq, isNaN_iff]
  rcases eq_of_compare h with ⟨same, number, _⟩ | ⟨s, t, _, zero⟩
  · rwa [← same]
  · rw [zero]
    simp

/-- NaN is the one number that is not equal to itself. -/
theorem beq_self (x : Float) : (x == x) = !x.isNaN := by
  cases nan : x.isNaN with
  | true =>
    rw [Bool.not_true, Bool.eq_false_iff]
    intro same
    rw [not_isNaN_of_beq same] at nan
    cases nan
  | false =>
    rw [Bool.eq_false_iff, ne_eq, isNaN_iff] at nan
    rw [beq_eq_compare, compare_self nan]
    rfl

end Number

namespace Value

theorem isTruthy_of_same {x y : Float} (h : Number.Same x y) :
    (number x).isTruthy = (number y).isTruthy := by
  rcases h with rfl | ⟨hx, hy⟩
  · rfl
  · simp [isTruthy, bne, hx, hy]

end Value
end LiveTemplate
