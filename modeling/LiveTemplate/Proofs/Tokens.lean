import LiveTemplate.Template.Condition
import LiveTemplate.Proofs.Numbers

/-!
# LiveTemplate.Proofs.Tokens

Each token of an expression is read back whole, whatever text follows, as long as that text does not
continue the token.

  * `readNumber_numeral`      a number, if its digits read back as that number
  * `readString?_quote`       a string in quotes
  * `ofWord_of_variable`      a name that is no keyword
  * `readName_variable`       the name of a property
-/

namespace LiveTemplate

/-- What came out of two steps came out of the second, after the first. -/
theorem exists_of_bind_eq_ok {ε α β : Type} {m : Except ε α} {f : α → Except ε β} {b : β}
    (h : (m >>= f) = .ok b) : ∃ a, m = .ok a ∧ f a = .ok b := by
  cases m with
  | error e => cases h
  | ok a => exact ⟨a, rfl, h⟩

/-- What came out of a list came out of its elements, one by one. -/
theorem forall₂_of_mapM {ε α β : Type} {f : α → Except ε β} {as : List α} {bs : List β}
    (h : as.mapM f = .ok bs) : List.Forall₂ (fun a b => f a = .ok b) as bs := by
  induction as generalizing bs with
  | nil =>
    cases h
    exact .nil
  | cons a as ih =>
    rw [List.mapM_cons] at h
    obtain ⟨b, first, h⟩ := exists_of_bind_eq_ok h
    obtain ⟨rest, others, h⟩ := exists_of_bind_eq_ok h
    cases h
    exact .cons first (ih others)

/-! ## The text of a number -/

namespace Number

open Float.Model

/-- Digits, and perhaps a point with more digits. -/
inductive Numeral : List Char → Prop
  | whole {digits : List Char} (solid : digits ≠ []) (each : ∀ c ∈ digits, c.isDigit = true) :
      Numeral digits
  | point {digits places : List Char} (solid : digits ≠ []) (more : places ≠ [])
      (each : ∀ c ∈ digits, c.isDigit = true) (fraction : ∀ c ∈ places, c.isDigit = true) :
      Numeral (digits ++ '.' :: places)

theorem isDigit_of_mem_toDigits {n : Nat} {c : Char} (mem : c ∈ Nat.toDigits 10 n) :
    c.isDigit = true :=
  Nat.isDigit_of_mem_toDigits (by decide) (by decide) mem

theorem numeral_positional (d : Decimal) : Numeral d.positional := by
  have solid : Nat.toDigits 10 d.coefficient ≠ [] := Nat.toDigits_ne_nil
  have each : ∀ c ∈ Nat.toDigits 10 d.coefficient, c.isDigit = true :=
    fun c mem => isDigit_of_mem_toDigits mem
  have zeros : ∀ (k : Nat), ∀ c ∈ List.replicate k '0', c.isDigit = true := by
    intro k c mem
    rw [List.eq_of_mem_replicate mem]
    rfl
  rw [Decimal.positional]
  by_cases whole : 0 ≤ d.exponent
  · rw [if_pos whole]
    refine .whole (by simp [solid]) fun c mem => ?_
    rcases List.mem_append.mp mem with mem | mem
    · exact each c mem
    · exact zeros _ c mem
  · simp only [if_neg whole]
    by_cases inside : (-d.exponent).toNat < (Nat.toDigits 10 d.coefficient).length
    · rw [if_pos inside]
      refine .point ?_ ?_ (fun c mem => each c (List.mem_of_mem_take mem))
        fun c mem => each c (List.mem_of_mem_drop mem)
      · rw [← List.length_pos_iff, List.length_take]
        omega
      · rw [← List.length_pos_iff, List.length_drop]
        omega
    · rw [if_neg inside]
      change Numeral (['0'] ++ '.' :: (List.replicate _ '0' ++ Nat.toDigits 10 d.coefficient))
      refine .point (by simp) (by simp [solid]) (by simp) fun c mem => ?_
      rcases List.mem_append.mp mem with mem | mem
      · exact zeros _ c mem
      · exact each c mem

theorem exponent_of_isFinite {b : BitVec 64}
    (finite : (UnpackedFloat.unpack Format.binary64 b).isFinite = true) :
    b.toNat / 2 ^ 52 % 2 ^ 11 ≠ 2047 := by
  intro full
  have special :
      @UnpackedFloat.unpackExponent Format.binary64 b =
        -BitVec.ofNat Format.binary64.exponentBits 1 := by
    apply BitVec.eq_of_toNat_eq
    rw [toNat_exponent, full]
    rfl
  rw [UnpackedFloat.unpack, if_pos special] at finite
  split at finite <;> cases finite

/-- A finite number from zero on is zero or has no sign. -/
theorem binary?_of_nonneg {x : Float} (finite : x.isFinite = true) (nonneg : 0 ≤ x) :
    ∃ b, binary? x = some b ∧ (b.mantissa ≠ 0 → b.negative = false) := by
  have layout := layout_unpack x.toModel.toBits.toBitVec
  have inside := @exponent_of_isFinite x.toModel.toBits.toBitVec finite
  have small : x.toModel.toBits.toBitVec.toNat < 2 ^ 64 := BitVec.isLt _
  have bits : x.toBits.toNat = x.toModel.toBits.toBitVec.toNat := rfl
  have least : (UnpackedFloat.zero .positive).le
      (UnpackedFloat.unpack Format.binary64 x.toModel.toBits.toBitVec) = true := by
    have := of_decide_eq_true nonneg
    rw [← unpack_zero]
    exact this
  generalize UnpackedFloat.unpack Format.binary64 x.toModel.toBits.toBitVec = u at layout least
  rw [binary?, bits]
  simp only [Nat.shiftRight_eq_div_pow, Nat.one_shiftLeft]
  generalize x.toModel.toBits.toBitVec.toNat = n at *
  rw [if_neg inside]
  cases layout with
  | notANumber => cases least
  | infinity s sign exponent => exact absurd exponent inside
  | zero s exponent mantissa =>
    rw [exponent, if_pos rfl]
    exact ⟨_, rfl, fun some => absurd mantissa some⟩
  | subnormal s m e positive sign exponent mantissa =>
    rw [exponent, if_pos rfl]
    cases s with
    | negative => cases least
    | positive =>
      simp only [signBit] at sign
      refine ⟨_, rfl, fun _ => decide_eq_false ?_⟩
      omega
  | normal s m e positive sign biased exponent mantissa =>
    rw [if_neg (by omega)]
    cases s with
    | negative => cases least
    | positive =>
      simp only [signBit] at sign
      refine ⟨_, rfl, fun _ => decide_eq_false ?_⟩
      omega

/-- A finite number from zero on is written without a sign. -/
theorem numeral_text {x : Float} (finite : x.isFinite = true) (nonneg : 0 ≤ x) :
    Numeral (text x).toList := by
  obtain ⟨b, parts, unsigned⟩ := binary?_of_nonneg finite nonneg
  simp only [text, parts]
  by_cases zero : b.mantissa = 0
  · rw [if_pos zero]
    change Numeral ['0']
    exact .whole (by simp) (by simp)
  · simp only [if_neg zero, unsigned zero, Bool.false_eq_true, if_false, String.toList_ofList]
    exact numeral_positional _

end Number

/-! ## Reading tokens -/

namespace Expr

/-- This text continues neither a word nor a number in front of it. -/
structure Apart (cs : List Char) : Prop where
  word : ∀ c ∈ cs.head?, isIdentChar c = false
  point : ∀ c rest, cs = '.' :: c :: rest → c.isDigit = false

theorem isDigit_eq_false {c : Char} (h : isIdentChar c = false) : c.isDigit = false := by
  simp [isIdentChar, Char.isAlphanum] at h
  exact h.1.1.2

theorem Apart.nil : Apart [] := ⟨by simp, by simp⟩

theorem Apart.cons {c : Char} (word : isIdentChar c = false) (point : c ≠ '.') (rest : List Char) :
    Apart (c :: rest) := by
  refine ⟨by simpa using word, ?_⟩
  intro d more same
  cases same
  exact absurd rfl point

theorem span_append {kind : Char → Bool} {word rest : List Char}
    (each : ∀ c ∈ word, kind c = true) (stop : ∀ c ∈ rest.head?, kind c = false) :
    (word ++ rest).takeWhile kind = word ∧ (word ++ rest).dropWhile kind = rest := by
  rw [List.takeWhile_append_of_pos each, List.dropWhile_append_of_pos each]
  cases rest with
  | nil => simp
  | cons c rest => simp [stop c rfl]

theorem splitSign_digit {c : Char} (digit : c.isDigit = true) (cs : List Char) :
    Number.splitSign (c :: cs) = (false, c :: cs) := by
  rw [Number.splitSign]
  · rintro rest ⟨rfl, -⟩
    cases digit
  · rintro rest ⟨rfl, -⟩
    cases digit

/-- Without a sign in front, the digits alone count. -/
theorem read?_digits {digits rest : List Char} (solid : digits ≠ [])
    (each : ∀ c ∈ digits, c.isDigit = true) {x : Float}
    (spelled : Number.readMagnitude? (digits ++ rest) = some x) :
    Number.read? (digits ++ rest) = some x := by
  obtain ⟨c, cs, rfl⟩ := List.exists_cons_of_ne_nil solid
  rw [List.cons_append] at spelled
  rw [Number.read?, List.cons_append, splitSign_digit (each c (by simp))]
  simp [spelled]

theorem readMagnitude?_whole {digits : List Char} (solid : digits ≠ [])
    (each : ∀ c ∈ digits, c.isDigit = true) :
    Number.readMagnitude? digits = some (Number.ofDecimal (Number.ofDigits digits) 0) := by
  obtain ⟨taken, dropped⟩ := @span_append Char.isDigit digits [] each (by simp)
  rw [List.append_nil] at taken dropped
  rw [Number.readMagnitude?, taken, dropped]
  simp [solid]

theorem readMagnitude?_point {digits places : List Char} (solid : digits ≠ [])
    (each : ∀ c ∈ digits, c.isDigit = true) (fraction : ∀ c ∈ places, c.isDigit = true) :
    Number.readMagnitude? (digits ++ '.' :: places) =
      some (Number.ofDecimal (Number.ofDigits (digits ++ places)) (-places.length)) := by
  obtain ⟨taken, dropped⟩ := @span_append Char.isDigit digits ('.' :: places) each (by simp)
  obtain ⟨taken', dropped'⟩ := @span_append Char.isDigit places [] fraction (by simp)
  rw [List.append_nil] at taken' dropped'
  rw [Number.readMagnitude?, taken, dropped]
  simp only [taken', dropped']
  simp [solid]

/-- A numeral is read to its end, as the number that it spells on its own. -/
theorem readNumber_numeral {cs rest : List Char} {x : Float} (numeral : Number.Numeral cs)
    (spells : Number.read? cs = some x) (apart : Apart rest) :
    readNumber (cs ++ rest) = (x, rest) := by
  have stop : ∀ c ∈ rest.head?, c.isDigit = false :=
    fun c mem => isDigit_eq_false (apart.word c mem)
  cases numeral with
  | whole solid each =>
    have spelled := @read?_digits cs [] solid each _ (by
      rw [List.append_nil]
      exact readMagnitude?_whole solid each)
    rw [List.append_nil, spells] at spelled
    cases spelled
    obtain ⟨taken, dropped⟩ := span_append each stop
    rw [readNumber, taken, dropped]
    split
    · rename_i more
      cases more with
      | nil => simp
      | cons d more => simp [apart.point d more rfl]
    · rfl
  | @point digits places solid more each fraction =>
    have spelled := read?_digits solid each (readMagnitude?_point solid each fraction)
    rw [spells] at spelled
    cases spelled
    have first := @span_append Char.isDigit digits ('.' :: (places ++ rest)) each (by simp)
    have second := span_append fraction stop
    rw [readNumber, List.append_assoc, List.cons_append, first.1, first.2]
    simp [second.1, second.2, more]

/-! ### Strings -/

/-- Shown as itself or with one of the escapes that reading knows. -/
def IsPlain (c : Char) : Prop := Text.quoteChar c = [c] ∨ c ∈ ['"', '\\', '\n', '\r', '\t']

instance (c : Char) : Decidable (IsPlain c) := inferInstanceAs (Decidable (_ ∨ _))

theorem readString?_quoteChar {c : Char} (plain : IsPlain c) (cs : List Char) :
    readString? '"' (Text.quoteChar c ++ cs) =
      (readString? '"' cs).map fun (s, after) => (c :: s, after) := by
  rcases plain with self | escaped
  · have quote : c ≠ '"' := by
      rintro rfl
      cases self
    have escape : c ≠ '\\' := by
      rintro rfl
      cases self
    rw [self, List.singleton_append, readString?, if_neg quote, if_neg escape]
    exact fun d rest same => absurd same escape
  · simp only [List.mem_cons, List.not_mem_nil, or_false] at escaped
    rcases escaped with rfl | rfl | rfl | rfl | rfl <;> rfl

theorem readString?_quote {s : List Char} (plain : ∀ c ∈ s, IsPlain c) (rest : List Char) :
    readString? '"' (s.flatMap Text.quoteChar ++ '"' :: rest) = some (s, rest) := by
  induction s with
  | nil => simp [readString?]
  | cons c s ih =>
    rw [List.flatMap_cons, List.append_assoc, readString?_quoteChar (plain c (by simp)),
      ih fun d mem => plain d (by simp [mem])]
    rfl

/-! ### Words -/

theorem ofWord_of_variable {name : String} (h : isVariableName name = true) :
    ofWord name = .ident name := by
  simp [isVariableName, keywords] at h
  simp [ofWord, h]

theorem isIdentChar_of_isIdentStart {c : Char} (h : isIdentStart c = true) :
    isIdentChar c = true := by
  simp only [isIdentStart, isIdentChar, Char.isAlphanum, Bool.or_eq_true] at h ⊢
  tauto

theorem identifier_of_variable {name : String} (h : isVariableName name = true) :
    isIdentifier name.toList = true := by
  simp only [isVariableName, Bool.and_eq_true] at h
  exact h.1

/-- What an identifier is made of. -/
theorem letters_of_identifier {cs : List Char} (h : isIdentifier cs = true) :
    ∃ c rest, cs = c :: rest ∧ isIdentStart c = true ∧ ∀ d ∈ cs, isIdentChar d = true := by
  cases cs with
  | nil => cases h
  | cons c rest =>
    simp only [isIdentifier, Bool.and_eq_true, List.all_eq_true] at h
    refine ⟨c, rest, rfl, h.1, fun d mem => ?_⟩
    rcases List.mem_cons.mp mem with rfl | mem
    · exact isIdentChar_of_isIdentStart h.1
    · exact h.2 d mem

theorem not_mem_identifier {c : Char} {cs : List Char} (h : isIdentifier cs = true)
    (other : isIdentChar c = false) : c ∉ cs := by
  intro mem
  obtain ⟨-, -, -, -, each⟩ := letters_of_identifier h
  rw [each c mem] at other
  cases other

theorem skipSpace_cons {c : Char} (h : isSpace c = false) (cs : List Char) :
    skipSpace (c :: cs) = c :: cs := by
  simp [skipSpace, h]

theorem isSpace_of_isIdentStart {c : Char} (h : isIdentStart c = true) : isSpace c = false := by
  by_contra space
  simp only [isSpace, Bool.or_eq_true, decide_eq_true_eq, Bool.not_eq_false] at space
  rcases space with ((rfl | rfl) | rfl) | rfl <;> cases h

theorem readName_variable {name : String} (h : isVariableName name = true) {rest : List Char}
    (apart : Apart rest) : readName (name.toList ++ rest) = .ok (name, rest) := by
  obtain ⟨c, more, same, start, each⟩ := letters_of_identifier (identifier_of_variable h)
  obtain ⟨taken, dropped⟩ := span_append each apart.word
  have known : keywords.contains name = false := by
    simp only [isVariableName, Bool.and_eq_true] at h
    simpa using h.2
  have skipped : skipSpace (name.toList ++ rest) = name.toList ++ rest := by
    rw [same]
    exact skipSpace_cons (isSpace_of_isIdentStart start) _
  rw [readName, skipped, taken, dropped, String.ofList_toList]
  simp only [same, List.cons_append, start, known]
  rfl

end Expr
end LiveTemplate
