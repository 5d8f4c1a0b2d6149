import LiveTemplate.Proofs.BareValues

/-!
# LiveTemplate.Proofs.Boundaries

The places between the characters of a text, as offsets into its bytes. A reader that looks at one
byte at a time may stop anywhere; it is between two characters again as soon as it meets an ASCII
byte, and it stays there as long as it passes only bytes that are whole characters if they are the
first of one.

  * `Text.Boundary`           an offset between two characters
  * `Text.Remainder`          what is left of a text from such a place on
  * `Text.remainder_of_ascii` an ASCII byte has a boundary on both sides
  * `Text.Remainder.dropWhile` passing bytes from a boundary to a boundary
-/

namespace LiveTemplate
namespace Text

/-- The offset of a place between two characters, or of an end of the text. -/
def Boundary (source : String) (i : Nat) : Prop := String.Pos.Raw.IsValid source ⟨i⟩

instance (source : String) (i : Nat) : Decidable (Boundary source i) :=
  inferInstanceAs (Decidable (String.Pos.Raw.IsValid source ⟨i⟩))

theorem byteIdx_rawEndPos (s : String) : s.rawEndPos.byteIdx = (bytes s).length := by
  rw [String.byteIdx_rawEndPos, ← String.size_toByteArray, ← @String.utf8Encode_toList s]
  simp [List.utf8Encode, bytes, encodeUtf8]

theorem boundary_iff {source : String} {i : Nat} : Boundary source i ↔
    ∃ fs cs, source.toList = fs ++ cs ∧ i = (encodeUtf8 fs).length := by
  rw [Boundary, String.Pos.Raw.isValid_iff_exists_append]
  constructor
  · rintro ⟨front, back, rfl, place⟩
    refine ⟨front.toList, back.toList, String.toList_append, ?_⟩
    exact (congrArg String.Pos.Raw.byteIdx place).trans (byteIdx_rawEndPos front)
  · rintro ⟨fs, cs, text, rfl⟩
    refine ⟨String.ofList fs, String.ofList cs, ?_, ?_⟩
    · rw [← String.ofList_append, ← text, String.ofList_toList]
    · apply String.Pos.Raw.ext
      rw [byteIdx_rawEndPos, bytes, String.toList_ofList]

variable {source : String}

theorem boundary_zero : Boundary source 0 := boundary_iff.mpr ⟨[], source.toList, rfl, rfl⟩

theorem boundary_length : Boundary source (bytes source).length :=
  boundary_iff.mpr ⟨source.toList, [], (List.append_nil _).symm, rfl⟩

theorem Boundary.le {i : Nat} (h : Boundary source i) : i ≤ (bytes source).length := by
  obtain ⟨fs, cs, text, rfl⟩ := boundary_iff.mp h
  rw [bytes, text, encodeUtf8_append, List.length_append]
  omega

/-! ## The rest of a text -/

/-- What is left of a text from a place between two characters on. -/
def Remainder (source : String) (rest : List UInt8) : Prop :=
  ∃ fs cs, source.toList = fs ++ cs ∧ rest = encodeUtf8 cs

theorem remainder_nil : Remainder source [] := ⟨source.toList, [], (List.append_nil _).symm, rfl⟩

theorem Boundary.remainder {i : Nat} (h : Boundary source i) :
    Remainder source ((bytes source).drop i) := by
  obtain ⟨fs, cs, text, rfl⟩ := boundary_iff.mp h
  exact ⟨fs, cs, text, by rw [bytes, text, encodeUtf8_append, List.drop_left]⟩

theorem Remainder.boundary {rest : List UInt8} (h : Remainder source rest) :
    Boundary source ((bytes source).length - rest.length) := by
  obtain ⟨fs, cs, text, rfl⟩ := h
  rw [bytes, text, encodeUtf8_append, List.length_append, Nat.add_sub_cancel]
  exact boundary_iff.mpr ⟨fs, cs, text, rfl⟩

theorem Remainder.drop_eq {rest : List UInt8} (h : Remainder source rest) :
    (bytes source).drop ((bytes source).length - rest.length) = rest := by
  obtain ⟨fs, cs, text, rfl⟩ := h
  rw [bytes, text, encodeUtf8_append, List.length_append, Nat.add_sub_cancel, List.drop_left]

/-- An ASCII byte in a text is a character of its own, with whole characters on both sides. -/
theorem encodeUtf8_eq_append_cons {cs : List Char} {xs ys : List UInt8} {b : UInt8}
    (h : encodeUtf8 cs = xs ++ b :: ys) (ascii : b < 0x80) :
    ∃ fs c ds, cs = fs ++ c :: ds ∧ xs = encodeUtf8 fs ∧ encodeUtf8 [c] = [b] ∧
      ys = encodeUtf8 ds := by
  have low : b.toNat < 0x80 := UInt8.lt_iff_toNat_lt.mp ascii
  induction cs generalizing xs with
  | nil => simp [encodeUtf8] at h
  | cons c cs ih =>
    have split : encodeUtf8 (c :: cs) = String.utf8EncodeChar c ++ encodeUtf8 cs := rfl
    rw [split, List.append_eq_append_iff] at h
    rcases h with ⟨later, rfl, more⟩ | ⟨inside, parts, more⟩
    · obtain ⟨fs, d, ds, rfl, rfl, own, rfl⟩ := ih more
      exact ⟨c :: fs, d, ds, rfl, rfl, own, rfl⟩
    · cases inside with
      | nil =>
        obtain ⟨fs, d, ds, rfl, none, own, rfl⟩ := ih (show _ = [] ++ b :: ys from more.symm)
        refine ⟨c :: fs, d, ds, rfl, ?_, own, rfl⟩
        rw [List.append_nil] at parts
        rw [encodeUtf8, List.flatMap_cons, ← encodeUtf8, ← none, parts, List.append_nil]
      | cons first inside =>
        obtain ⟨rfl, rest⟩ := List.cons.inj more
        have same : c.toNat = b.toNat :=
          mem_utf8EncodeChar (parts ▸ List.mem_append_right _ List.mem_cons_self) low
        have own : String.utf8EncodeChar c = [b] := by
          rw [utf8EncodeChar_ascii (by omega), same, UInt8.ofNat_toNat]
        rw [own] at parts
        obtain ⟨rfl, rfl⟩ : xs = [] ∧ inside = [] := by
          have size := congrArg List.length parts
          simp only [List.length_append, List.length_cons, List.length_nil] at size
          exact ⟨List.length_eq_zero_iff.mp (by omega), List.length_eq_zero_iff.mp (by omega)⟩
        exact ⟨[], c, cs, rfl, rfl, by simpa [encodeUtf8] using own, rest⟩

theorem remainder_of_ascii {b : UInt8} {rest : List UInt8} (suffix : b :: rest <:+ bytes source)
    (ascii : b < 0x80) : Remainder source (b :: rest) ∧ Remainder source rest := by
  obtain ⟨front, text⟩ := suffix
  obtain ⟨fs, c, ds, chars, -, own, rfl⟩ := encodeUtf8_eq_append_cons text.symm ascii
  have first : encodeUtf8 (c :: ds) = encodeUtf8 [c] ++ encodeUtf8 ds := encodeUtf8_append [c] ds
  exact ⟨⟨fs, c :: ds, chars, by rw [first, own, List.singleton_append]⟩,
    fs ++ [c], ds, by simpa using chars, rfl⟩

theorem boundary_of_ascii {i : Nat} {b : UInt8} {rest : List UInt8}
    (here : (bytes source).drop i = b :: rest) (ascii : b < 0x80) :
    Boundary source i ∧ Boundary source (i + 1) := by
  have size := congrArg List.length here
  rw [List.length_drop, List.length_cons] at size
  have before : (bytes source).length - (b :: rest).length = i := by
    rw [List.length_cons]
    omega
  have behind : (bytes source).length - rest.length = i + 1 := by omega
  obtain ⟨whole, left⟩ := remainder_of_ascii (here ▸ List.drop_suffix _ _) ascii
  exact ⟨before ▸ whole.boundary, behind ▸ left.boundary⟩

theorem Boundary.add {i : Nat} (h : Boundary source i) {text rest : List UInt8}
    (here : (bytes source).drop i = text ++ rest) (ascii : ∀ b ∈ text, b < 0x80) :
    Boundary source (i + text.length) := by
  induction text generalizing i with
  | nil => exact h
  | cons b text ih =>
    rw [List.length_cons, Nat.add_comm text.length, ← Nat.add_assoc]
    have next := (boundary_of_ascii here (ascii b List.mem_cons_self)).2
    refine ih next ?_ fun b mem => ascii b (List.mem_cons_of_mem _ mem)
    rw [← List.drop_drop, here]
    rfl

/-- An ASCII mark that a search finds stands between two boundaries. -/
theorem boundary_of_breakOn? {i : Nat} {b : UInt8} {mark front after : List UInt8}
    (ascii : ∀ a ∈ b :: mark, a < 0x80)
    (found : breakOn? (b :: mark) ((bytes source).drop i) = some (front, after)) :
    Boundary source (i + front.length) ∧
      Boundary source (i + front.length + (b :: mark).length) ∧
      (bytes source).drop (i + front.length + (b :: mark).length) = after := by
  have text := breakOn?_eq_append found
  have here : (bytes source).drop (i + front.length) = b :: mark ++ after := by
    rw [← List.drop_drop, text, List.append_assoc, List.drop_left]
  have before := (boundary_of_ascii here (ascii b List.mem_cons_self)).1
  exact ⟨before, before.add here ascii, by rw [← List.drop_drop, here, List.drop_left]⟩

/-- From a boundary on, bytes that begin no longer character are passed to a boundary. -/
theorem Remainder.dropWhile {rest : List UInt8} (h : Remainder source rest) {kind : UInt8 → Bool}
    (low : ∀ b, kind b = true → b < 0xC0) : Remainder source (rest.dropWhile kind) := by
  obtain ⟨fs, cs, text, rfl⟩ := h
  induction cs generalizing fs with
  | nil => exact ⟨fs, [], text, rfl⟩
  | cons c cs ih =>
    obtain ⟨lead, more, encoded, first⟩ := (encoded_utf8EncodeChar c).lead
    have split : encodeUtf8 (c :: cs) = lead :: (more ++ encodeUtf8 cs) := by
      rw [encodeUtf8, List.flatMap_cons, encoded]
      rfl
    by_cases kept : kind lead = true
    · have bound : lead.toNat < 0xC0 := UInt8.lt_iff_toNat_lt.mp (low lead kept)
      have own : more = [] := by
        have mem : lead ∈ String.utf8EncodeChar c := encoded ▸ List.mem_cons_self
        have same := mem_utf8EncodeChar mem (by omega)
        rw [utf8EncodeChar_ascii (by omega)] at encoded
        exact (List.cons.inj encoded).2.symm
      rw [split, own, List.nil_append, List.dropWhile_cons_of_pos kept]
      exact ih (fs ++ [c]) (by simpa using text)
    · rw [split, List.dropWhile_cons_of_neg kept, ← split]
      exact ⟨fs, c :: cs, text, rfl⟩

end Text
end LiveTemplate
