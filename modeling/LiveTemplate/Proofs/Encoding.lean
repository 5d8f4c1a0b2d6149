import LiveTemplate.Text.Search
import LiveTemplate.Text.Utf8
import Mathlib

/-!
# LiveTemplate.Proofs.Encoding

Text that is written piece by piece: every character becomes one or more bytes. Decoding gives the
text back, and a mark whose characters are written as themselves is found where it stands in the
text.

  * `decodeUtf8_encodeUtf8`   what was encoded is decoded, up to where the encoding ends
  * `mem_encodeUtf8`          an ASCII byte in a text is that character
  * `Faithful`                a character that is written as itself and by nothing else
  * `breakOn?_flatMap`        the first occurrence of a mark in the written form
-/

namespace LiveTemplate
namespace Text

/-! ## One character -/

/-- The bytes of a character, by the size of its code point. -/
inductive Encoded (v : Nat) : List UInt8 → Prop
  | one (high : v ≤ 0x7F) : Encoded v [UInt8.ofNat v]
  | two (low : 0x7F < v) (high : v ≤ 0x7FF) :
    Encoded v [UInt8.ofNat (v / 64 % 32 + 192), UInt8.ofNat (v % 64 + 128)]
  | three (low : 0x7FF < v) (high : v ≤ 0xFFFF) :
    Encoded v [UInt8.ofNat (v / 4096 % 16 + 224), UInt8.ofNat (v / 64 % 64 + 128),
      UInt8.ofNat (v % 64 + 128)]
  | four (low : 0xFFFF < v) :
    Encoded v [UInt8.ofNat (v / 262144 % 8 + 240), UInt8.ofNat (v / 4096 % 64 + 128),
      UInt8.ofNat (v / 64 % 64 + 128), UInt8.ofNat (v % 64 + 128)]

theorem encoded_utf8EncodeChar (c : Char) : Encoded c.toNat (String.utf8EncodeChar c) := by
  unfold String.utf8EncodeChar
  change Encoded c.toNat (if c.toNat ≤ 0x7F then _ else _)
  split
  case isTrue high => exact .one high
  case isFalse low =>
    split
    case isTrue high => exact .two (Nat.lt_of_not_le low) high
    case isFalse low =>
      split
      case isTrue high => exact .three (Nat.lt_of_not_le low) high
      case isFalse low => exact .four (Nat.lt_of_not_le low)

theorem toNat_ofNat {n : Nat} (h : n < 256) : (UInt8.ofNat n).toNat = n := by
  rw [UInt8.toNat_ofNat']
  omega

theorem isContinuation_ofNat {n : Nat} (h : n < 64) :
    isContinuation (UInt8.ofNat (n + 128)) = true := by
  simp (disch := omega) only [isContinuation, UInt8.le_iff_toNat_le, toNat_ofNat,
    UInt8.reduceToNat, Bool.and_eq_true, decide_eq_true_eq]
  omega

theorem payload_ofNat {n : Nat} (h : n < 64) : payload (UInt8.ofNat (n + 128)) = n := by
  rw [payload, toNat_ofNat (by omega)]
  omega

/-- Of three bytes, the second is one that the first allows. -/
theorem isSecond_three {v : Nat} (low : 0x7FF < v) (high : v ≤ 0xFFFF)
    (valid : v < 0xD800 ∨ 0xDFFF < v) :
    isSecond (UInt8.ofNat (v / 4096 % 16 + 224)) (UInt8.ofNat (v / 64 % 64 + 128)) = true := by
  simp (disch := omega) only [isSecond, isContinuation, UInt8.le_iff_toNat_le, ← UInt8.toNat_inj,
    toNat_ofNat, UInt8.reduceToNat]
  split_ifs <;> simp only [Bool.and_eq_true, decide_eq_true_eq] <;> omega

/-- Of four bytes, the second is one that the first allows. -/
theorem isSecond_four {v : Nat} (low : 0xFFFF < v) (high : v < 0x110000) :
    isSecond (UInt8.ofNat (v / 262144 % 8 + 240)) (UInt8.ofNat (v / 4096 % 64 + 128)) = true := by
  simp (disch := omega) only [isSecond, isContinuation, UInt8.le_iff_toNat_le, ← UInt8.toNat_inj,
    toNat_ofNat, UInt8.reduceToNat]
  split_ifs <;> simp only [Bool.and_eq_true, decide_eq_true_eq] <;> omega

/-- A character is decoded from its own bytes, whatever follows them. -/
theorem decodeChar_encoded {v : Nat} {bs : List UInt8} (h : Encoded v bs)
    (valid : v < 0xD800 ∨ 0xDFFF < v ∧ v < 0x110000) : ∃ lead more, bs = lead :: more ∧
      ∀ rest, decodeChar lead (more ++ rest) = (Char.ofNat v, rest) := by
  cases h with
  | one high =>
    refine ⟨_, _, rfl, fun rest => ?_⟩
    have lead : UInt8.ofNat v < 0x80 := by
      rw [UInt8.lt_iff_toNat_lt, toNat_ofNat (by omega)]
      exact Nat.lt_succ_of_le high
    simp only [decodeChar, if_pos lead, toNat_ofNat (show v < 256 by omega), List.nil_append]
  | two low high =>
    refine ⟨_, _, rfl, fun rest => ?_⟩
    have value : (v / 64 % 32 + 192) % 32 * 64 + v % 64 = v := by omega
    simp (disch := omega) only [decodeChar, UInt8.lt_iff_toNat_lt, UInt8.le_iff_toNat_le,
      toNat_ofNat, UInt8.reduceToNat, List.cons_append, List.nil_append, isContinuation_ofNat,
      payload_ofNat, value]
    rw [if_neg (by omega), if_pos (by simp; omega), if_pos trivial]
  | three low high =>
    refine ⟨_, _, rfl, fun rest => ?_⟩
    have value : ((v / 4096 % 16 + 224) % 16 * 64 + v / 64 % 64) * 64 + v % 64 = v := by omega
    have second := isSecond_three low high (by omega)
    simp (disch := omega) only [decodeChar, UInt8.lt_iff_toNat_lt, UInt8.le_iff_toNat_le,
      toNat_ofNat, UInt8.reduceToNat, List.cons_append, List.nil_append, isContinuation_ofNat,
      payload_ofNat, value, second]
    rw [if_neg (by omega), if_neg (by simp), if_pos (by simp; omega), if_pos trivial,
      if_pos trivial]
  | four low =>
    refine ⟨_, _, rfl, fun rest => ?_⟩
    have value : (((v / 262144 % 8 + 240) % 8 * 64 + v / 4096 % 64) * 64 + v / 64 % 64) * 64 +
        v % 64 = v := by omega
    have second := isSecond_four low (by omega)
    simp (disch := omega) only [decodeChar, UInt8.lt_iff_toNat_lt, UInt8.le_iff_toNat_le,
      toNat_ofNat, UInt8.reduceToNat, List.cons_append, List.nil_append, isContinuation_ofNat,
      payload_ofNat, value, second]
    rw [if_neg (by omega), if_neg (by simp), if_neg (by simp), if_pos (by simp; omega),
      if_pos trivial, if_pos trivial, if_pos trivial]

theorem decodeUtf8_char (c : Char) (rest : List UInt8) :
    decodeUtf8 (String.utf8EncodeChar c ++ rest) = c :: decodeUtf8 rest := by
  obtain ⟨lead, more, same, step⟩ := decodeChar_encoded (encoded_utf8EncodeChar c) c.valid
  rw [same, List.cons_append, decodeUtf8, step]
  simp only [Char.ofNat_toNat]

/-! ## Whole texts -/

theorem encodeUtf8_append (cs ds : List Char) :
    encodeUtf8 (cs ++ ds) = encodeUtf8 cs ++ encodeUtf8 ds :=
  List.flatMap_append

theorem decodeUtf8_encodeUtf8_append (cs : List Char) (rest : List UInt8) :
    decodeUtf8 (encodeUtf8 cs ++ rest) = cs ++ decodeUtf8 rest := by
  induction cs with
  | nil => rfl
  | cons c cs ih =>
    rw [encodeUtf8, List.flatMap_cons, List.append_assoc, decodeUtf8_char, List.cons_append]
    exact congrArg (c :: ·) ih

theorem decodeUtf8_encodeUtf8 (cs : List Char) : decodeUtf8 (encodeUtf8 cs) = cs := by
  have h := decodeUtf8_encodeUtf8_append cs []
  rwa [List.append_nil, decodeUtf8, List.append_nil] at h

theorem ofBytes_bytes (s : String) : ofBytes (bytes s) = s := by
  rw [ofBytes, bytes, decodeUtf8_encodeUtf8, String.ofList_toList]

theorem bytes_append (s t : String) : bytes (s ++ t) = bytes s ++ bytes t := by
  rw [bytes, String.toList_append, encodeUtf8_append]
  rfl

/-- Characters beyond ASCII have no ASCII bytes. -/
theorem mem_utf8EncodeChar {c : Char} {b : UInt8} (mem : b ∈ String.utf8EncodeChar c)
    (ascii : b.toNat < 0x80) : c.toNat = b.toNat := by
  have valid : c.toNat < 0xD800 ∨ 0xDFFF < c.toNat ∧ c.toNat < 0x110000 := c.valid
  have encoded := encoded_utf8EncodeChar c
  generalize String.utf8EncodeChar c = bs at encoded mem
  cases encoded with
  | one high =>
    rw [List.mem_singleton.mp mem, toNat_ofNat (by omega)]
  | two low high =>
    simp only [List.mem_cons, List.not_mem_nil, or_false] at mem
    rcases mem with rfl | rfl <;> rw [toNat_ofNat (by omega)] at ascii <;> omega
  | three low high =>
    simp only [List.mem_cons, List.not_mem_nil, or_false] at mem
    rcases mem with rfl | rfl | rfl <;> rw [toNat_ofNat (by omega)] at ascii <;> omega
  | four low =>
    simp only [List.mem_cons, List.not_mem_nil, or_false] at mem
    rcases mem with rfl | rfl | rfl | rfl <;> rw [toNat_ofNat (by omega)] at ascii <;> omega

theorem utf8EncodeChar_ascii {c : Char} (ascii : c.toNat < 0x80) :
    String.utf8EncodeChar c = [UInt8.ofNat c.toNat] := by
  have encoded := encoded_utf8EncodeChar c
  generalize String.utf8EncodeChar c = bs at encoded
  cases encoded with
  | one high => rfl
  | two low high => omega
  | three low high => omega
  | four low => omega

/-- An ASCII byte in the encoding of a text is that character in the text. -/
theorem mem_encodeUtf8 {cs : List Char} {c : Char} (ascii : c.toNat < 0x80) :
    UInt8.ofNat c.toNat ∈ encodeUtf8 cs ↔ c ∈ cs := by
  have back : (UInt8.ofNat c.toNat).toNat = c.toNat := toNat_ofNat (by omega)
  constructor
  · intro mem
    obtain ⟨d, held, mem⟩ := List.mem_flatMap.mp mem
    have same := mem_utf8EncodeChar mem (by omega)
    rwa [← Char.toNat_inj.mp (same.trans back)]
  · intro held
    refine List.mem_flatMap.mpr ⟨c, held, ?_⟩
    rw [utf8EncodeChar_ascii ascii]
    exact List.mem_singleton_self _

/-! ## Searching -/

section

variable {α β : Type} {f : α → List β}

/-- `a` is written as `b`, and nothing else has a `b` in it. -/
structure Faithful (f : α → List β) (a : α) (b : β) : Prop where
  own : f a = [b]
  only : ∀ x, b ∈ f x → x = a

theorem flatMap_faithful {mark : List α} {marked : List β}
    (faithful : List.Forall₂ (Faithful f) mark marked) : mark.flatMap f = marked := by
  induction faithful with
  | nil => rfl
  | cons head _ ih => rw [List.flatMap_cons, head.own, ih, List.singleton_append]

/-- A piece of several bytes is no character of a mark, so none of them starts the mark. -/
theorem Faithful.not_mem_tail {m a : α} {b x : β} {xs : List β} (h : Faithful f m b)
    (written : f a = x :: xs) : b ∉ xs := by
  intro mem
  have same := h.only a (by rw [written]; exact List.mem_cons_of_mem _ mem)
  rw [same, h.own] at written
  cases written
  cases mem

variable [BEq α] [LawfulBEq α] [BEq β] [LawfulBEq β]

/-- A mark stands in front of the written form if it stands in front of the text, as long as the
text does not end within it. -/
theorem isPrefixOf_flatMap (solid : ∀ a, f a ≠ []) {mark : List α} {marked : List β}
    (faithful : List.Forall₂ (Faithful f) mark marked) {as : List α}
    (long : mark.length ≤ as.length) (rest : List β) :
    marked.isPrefixOf (as.flatMap f ++ rest) = mark.isPrefixOf as := by
  induction faithful generalizing as with
  | nil => rfl
  | @cons m b mark marked first others ih =>
    cases as with
    | nil => cases long
    | cons a as =>
      by_cases same : a = m
      · subst same
        rw [List.flatMap_cons, first.own, List.append_assoc, List.singleton_append,
          List.isPrefixOf, List.isPrefixOf, beq_self_eq_true, beq_self_eq_true,
          ih (Nat.le_of_succ_le_succ long)]
      · obtain ⟨x, xs, written⟩ := List.exists_cons_of_ne_nil (solid a)
        have other : b ≠ x := by
          rintro rfl
          exact same (first.only a (by rw [written]; exact List.mem_cons_self))
        rw [List.flatMap_cons, written, List.append_assoc, List.cons_append, List.isPrefixOf,
          List.isPrefixOf, beq_false_of_ne other, beq_false_of_ne (Ne.symm same)]
        rfl

theorem breakOn?_append_of_not_mem {b : β} {xs : List β} (free : b ∉ xs) (marked ys : List β) :
    breakOn? (b :: marked) (xs ++ ys) =
      (breakOn? (b :: marked) ys).map fun found => (xs ++ found.1, found.2) := by
  induction xs with
  | nil => simp
  | cons x xs ih =>
    obtain ⟨other, free⟩ := not_or.mp (mt List.mem_cons.mpr free)
    rw [List.cons_append, breakOn?, List.isPrefixOf, beq_false_of_ne other, Bool.false_and,
      if_neg Bool.false_ne_true, ih free, Option.map_map]
    rfl

theorem breakOn?_eq_append {mark as before after : List α}
    (h : breakOn? mark as = some (before, after)) : as = before ++ mark ++ after := by
  induction as generalizing before with
  | nil =>
    simp only [breakOn?] at h
    split at h
    case isTrue empty =>
      cases h
      simpa using empty
    case isFalse => cases h
  | cons a rest ih =>
    simp only [breakOn?] at h
    split at h
    case isTrue found =>
      cases h
      exact List.prefix_append_drop (List.isPrefixOf_iff_prefix.mp found)
    case isFalse =>
      obtain ⟨⟨front, back⟩, found, same⟩ := Option.map_eq_some_iff.mp h
      cases same
      rw [ih found]
      rfl

/-- The first occurrence of a mark in the written form is the one in the text. -/
theorem breakOn?_flatMap (solid : ∀ a, f a ≠ []) {m : α} {b : β} {mark : List α}
    {marked : List β} (first : Faithful f m b) (others : List.Forall₂ (Faithful f) mark marked)
    {as before after : List α} (h : breakOn? (m :: mark) as = some (before, after))
    (rest : List β) :
    breakOn? (b :: marked) (as.flatMap f ++ rest) =
      some (before.flatMap f, after.flatMap f ++ rest) := by
  have faithful : List.Forall₂ (Faithful f) (m :: mark) (b :: marked) := .cons first others
  induction as generalizing before with
  | nil => cases h
  | cons a as ih =>
    have whole := breakOn?_eq_append h
    rw [breakOn?] at h
    split at h
    case isTrue found =>
      have dropped : (b :: marked) ++ ((a :: as).drop (m :: mark).length).flatMap f =
          (a :: as).flatMap f := by
        rw [← flatMap_faithful faithful, ← List.flatMap_append,
          ← List.prefix_append_drop (List.isPrefixOf_iff_prefix.mp found)]
      cases h
      rw [← dropped, List.append_assoc, List.cons_append, breakOn?, if_pos (by simp),
        ← List.cons_append, List.drop_left]
      rfl
    case isFalse missed =>
      obtain ⟨⟨init, back⟩, found, same⟩ := Option.map_eq_some_iff.mp h
      cases same
      have long : (m :: mark).length ≤ (a :: as).length := by
        rw [whole]
        simp only [List.length_append]
        omega
      have front := isPrefixOf_flatMap solid faithful long rest
      obtain ⟨x, xs, written⟩ := List.exists_cons_of_ne_nil (solid a)
      have free := first.not_mem_tail written
      rw [Bool.eq_false_iff.mpr missed, List.flatMap_cons, written, List.append_assoc,
        List.cons_append] at front
      rw [List.flatMap_cons, written, List.append_assoc, List.cons_append, breakOn?,
        if_neg (by rw [front]; exact Bool.false_ne_true), breakOn?_append_of_not_mem free,
        ih found, List.flatMap_cons, written]
      rfl

end

end Text
end LiveTemplate
