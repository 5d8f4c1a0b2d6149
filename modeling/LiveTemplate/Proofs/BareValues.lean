import LiveTemplate.Proofs.Spelling

/-!
# LiveTemplate.Proofs.BareValues

Attribute values without quotes. The reader looks for the end of such a value byte by byte, and two
of the bytes that it takes for blanks, 85 and A0, also stand inside of characters beyond ASCII. A
value that has one of them is cut there, in the middle of a character; every other value is read as
it stands.

  * `Markup.Bare`                   a value that needs no quotes
  * `Text.replacement_of_cut`       a character that is cut off does not come back
  * `Markup.afterWord_bare`         where the reader ends such a value
  * `Markup.Reading.Leads`          the first element that is read, before and after its end
  * `Markup.parseFragment_bare`     the main result
-/

namespace LiveTemplate

/-! ## Characters that are cut off -/

namespace Text

/-- The bytes of a character do not start with a continuation, and only the first is ASCII. -/
theorem Encoded.lead {v : Nat} {bs : List UInt8} (h : Encoded v bs) :
    ∃ lead more, bs = lead :: more ∧ (lead.toNat < 0x80 ∨ 0xC0 ≤ lead.toNat) := by
  cases h with
  | one high => exact ⟨_, _, rfl, .inl (by rw [toNat_ofNat (by omega)]; omega)⟩
  | two low high => exact ⟨_, _, rfl, .inr (by rw [toNat_ofNat (by omega)]; omega)⟩
  | three low high => exact ⟨_, _, rfl, .inr (by rw [toNat_ofNat (by omega)]; omega)⟩
  | four low => exact ⟨_, _, rfl, .inr (by rw [toNat_ofNat (by omega)]; omega)⟩

/-- A part of the bytes of a character is read as a broken piece. -/
theorem replacement_of_cut {v : Nat} {bs : List UInt8} (h : Encoded v bs) (valid : v < 0x110000)
    {lead : UInt8} {more : List UInt8} (front : lead :: more <+: bs)
    (short : (lead :: more).length < bs.length) : (decodeChar lead more).1 = replacement := by
  cases h with
  | one high => simp at short
  | two low high =>
    obtain ⟨rfl, -⟩ := List.cons_prefix_cons.mp front
    obtain rfl : more = [] := List.length_eq_zero_iff.mp (by simpa using short)
    simp (disch := omega) only [decodeChar, UInt8.lt_iff_toNat_lt, UInt8.le_iff_toNat_le,
      toNat_ofNat, UInt8.reduceToNat]
    rw [if_neg (by omega), if_pos (by simp; omega)]
  | three low high =>
    obtain ⟨rfl, -⟩ := List.cons_prefix_cons.mp front
    simp (disch := omega) only [decodeChar, UInt8.lt_iff_toNat_lt, UInt8.le_iff_toNat_le,
      toNat_ofNat, UInt8.reduceToNat]
    rw [if_neg (by omega), if_neg (by simp), if_pos (by simp; omega)]
    simp only [List.length_cons, List.length_nil] at short
    rcases more with _ | ⟨b, _ | ⟨c, more⟩⟩
    · rfl
    · dsimp only
      split <;> rfl
    · simp only [List.length_cons] at short
      omega
  | four low =>
    obtain ⟨rfl, -⟩ := List.cons_prefix_cons.mp front
    simp (disch := omega) only [decodeChar, UInt8.lt_iff_toNat_lt, UInt8.le_iff_toNat_le,
      toNat_ofNat, UInt8.reduceToNat]
    rw [if_neg (by omega), if_neg (by simp), if_neg (by simp), if_pos (by simp; omega)]
    simp only [List.length_cons, List.length_nil] at short
    rcases more with _ | ⟨b, _ | ⟨c, _ | ⟨d, more⟩⟩⟩
    · rfl
    · dsimp only
      split <;> rfl
    · dsimp only
      split
      · split <;> rfl
      · rfl
    · simp only [List.length_cons] at short
      omega

/-- A character with an ASCII byte is that byte. -/
theorem eq_of_mem_utf8EncodeChar {c x : Char} (ascii : x.toNat < 0x80)
    (mem : UInt8.ofNat x.toNat ∈ String.utf8EncodeChar c) : c = x := by
  have back : (UInt8.ofNat x.toNat).toNat = x.toNat := toNat_ofNat (by omega)
  exact Char.toNat_inj.mp ((mem_utf8EncodeChar mem (by omega)).trans back)

/-- A text comes back from the bytes in front of the first one that is not kept only if all are
kept, as long as no character starts with such a byte, and the replacement has none. -/
theorem all_of_decodeUtf8_takeWhile {kept : UInt8 → Bool}
    (leads : ∀ b : UInt8, b.toNat < 0x80 ∨ 0xC0 ≤ b.toNat → kept b = true)
    (replaces : ∀ b ∈ String.utf8EncodeChar replacement, kept b = true) {cs : List Char}
    (back : decodeUtf8 ((encodeUtf8 cs).takeWhile kept) = cs) :
    ∀ b ∈ encodeUtf8 cs, kept b = true := by
  induction cs with
  | nil => exact fun b mem => (List.not_mem_nil mem).elim
  | cons c cs ih =>
    have split : encodeUtf8 (c :: cs) = String.utf8EncodeChar c ++ encodeUtf8 cs := rfl
    by_cases all : ∀ b ∈ String.utf8EncodeChar c, kept b = true
    · rw [split, List.takeWhile_append_of_pos all, decodeUtf8_char] at back
      intro b mem
      rcases List.mem_append.mp (split ▸ mem) with mem | mem
      · exact all b mem
      · exact ih (List.cons_eq_cons.mp back).2 b mem
    · -- What is left of the character is read as a replacement, and it was none.
      obtain ⟨lead, more, bytes, first⟩ := (encoded_utf8EncodeChar c).lead
      have front : (String.utf8EncodeChar c).takeWhile kept <+: String.utf8EncodeChar c :=
        List.takeWhile_prefix kept
      have short : ((String.utf8EncodeChar c).takeWhile kept).length <
          (String.utf8EncodeChar c).length := by
        refine Nat.lt_of_le_of_ne front.length_le fun same => all ?_
        exact List.takeWhile_eq_self_iff.mp (front.eq_of_length same)
      rw [split, List.takeWhile_append, if_neg (Nat.ne_of_lt short)] at back
      rw [bytes, List.takeWhile_cons_of_pos (leads lead first)] at back front short
      have valid : c.toNat < 0x110000 := by
        have valid : c.toNat < 0xD800 ∨ 0xDFFF < c.toNat ∧ c.toNat < 0x110000 := c.valid
        omega
      have cut := replacement_of_cut (encoded_utf8EncodeChar c) valid (bytes ▸ front) (bytes ▸ short)
      rw [decodeUtf8] at back
      have same : c = replacement := (List.cons_eq_cons.mp back).1.symm.trans cut
      exact absurd (same ▸ replaces) all

end Text

/-! ## Values without quotes -/

namespace Markup

/-- A value that needs no quotes: it has no blank, no `>`, no entity and no span, and it neither
starts with a quote nor ends with a slash. -/
structure Bare (value : String) : Prop where
  solid : value ≠ ""
  unparted : ∀ c ∈ value.toList, Text.isBlank c = false
  inside : '>' ∉ value.toList
  plain : '&' ∉ value.toList
  closed : ∀ kind : SpanMark, ¬kind.opening.toList <:+: value.toList
  unquoted : ∀ c ∈ value.toList.head?, c ≠ '"' ∧ c ≠ '\''
  ends : ∀ c ∈ value.toList.getLast?, c ≠ '/'

/-- A byte that is blank as a character of its own, and that other characters have in them. -/
def isCutting (b : UInt8) : Bool := b = 0x85 || b = 0xA0

/-- The value stops at the first blank byte, or else at the `>` behind it. -/
theorem afterWord_bare {bs : List UInt8} (alike : ∀ b ∈ bs, isBlankByte b = isCutting b)
    (inside : byteOf '>' ∉ bs) (ends : ∀ b ∈ bs.getLast?, b ≠ byteOf '/') (rest : List UInt8) :
    afterWord (bs ++ byteOf '>' :: rest) =
      bs.dropWhile (fun b => !isCutting b) ++ byteOf '>' :: rest := by
  induction bs with
  | nil => rfl
  | cons b bs ih =>
    obtain ⟨blank, alike⟩ := List.forall_mem_cons.mp alike
    obtain ⟨first, inside⟩ := not_or.mp (mt List.mem_cons.mpr inside)
    have slash : ¬(mark "/>").isPrefixOf (b :: (bs ++ byteOf '>' :: rest)) = true := by
      intro front
      obtain ⟨same, next⟩ := List.cons_prefix_cons.mp (List.isPrefixOf_iff_prefix.mp front)
      cases bs with
      | nil => exact ends b rfl same.symm
      | cons c bs => exact inside ((List.cons_prefix_cons.mp next).1 ▸ List.mem_cons_self)
    rw [List.cons_append, afterWord]
    cases cuts : isCutting b with
    | true =>
      rw [if_pos (by simp [blank, cuts]), List.dropWhile_cons_of_neg (by simp [cuts])]
      rfl
    | false =>
      rw [if_neg (by simpa [blank, cuts, Ne.symm first] using slash),
        List.dropWhile_cons_of_pos (by simp [cuts])]
      refine ih alike inside fun c last => ends c ?_
      cases bs with
      | nil => cases last
      | cons d bs => rwa [List.getLast?_cons_cons]

namespace Bare

variable {value : String}

theorem isBlankByte_eq (bare : Bare value) {b : UInt8} (mem : b ∈ Text.bytes value) :
    isBlankByte b = isCutting b := by
  have beyond : ∀ b : UInt8, 0x80 ≤ b → isBlankByte b = isCutting b := by decide +kernel
  by_cases ascii : b < 0x80
  · obtain ⟨c, held, mem⟩ := List.mem_flatMap.mp mem
    have low : b.toNat < 128 := UInt8.lt_iff_toNat_lt.mp ascii
    have same : b = byteOf c := by
      rw [byteOf, Text.mem_utf8EncodeChar mem low, UInt8.ofNat_toNat]
    have small : c.toNat < 128 := by
      rw [Text.mem_utf8EncodeChar mem low]
      exact low
    rw [same]
    refine ascii_induction (P := fun c => Text.isBlank c = false →
      isBlankByte (byteOf c) = isCutting (byteOf c)) ?_ small (bare.unparted c held)
    decide +kernel
  · exact beyond b (UInt8.not_lt.mp ascii)

/-- The first byte is the start of the first character. -/
theorem head (bare : Bare value) : ∃ b more, Text.bytes value = b :: more ∧
    isBlankByte b = false ∧ b ≠ byteOf '"' ∧ b ≠ byteOf '\'' := by
  have leads : ∀ b : UInt8, b.toNat < 0x80 ∨ 0xC0 ≤ b.toNat → isCutting b = false := by
    decide +kernel
  obtain ⟨c, cs, chars⟩ := List.exists_cons_of_ne_nil
    fun empty => bare.solid (String.toList_eq_nil_iff.mp empty)
  obtain ⟨lead, more, bytes, first⟩ := (Text.encoded_utf8EncodeChar c).lead
  have whole : Text.bytes value = lead :: (more ++ Text.encodeUtf8 cs) := by
    rw [Text.bytes, chars, Text.encodeUtf8, List.flatMap_cons, bytes]
    rfl
  have other (x : Char) (ascii : x.toNat < 0x80) (differs : c ≠ x) : lead ≠ byteOf x := by
    rintro rfl
    exact differs (Text.eq_of_mem_utf8EncodeChar ascii (bytes ▸ List.mem_cons_self))
  obtain ⟨double, single⟩ := bare.unquoted c (by rw [chars]; rfl)
  refine ⟨lead, _, whole, ?_, other '"' (by decide) double, other '\'' (by decide) single⟩
  rw [bare.isBlankByte_eq (whole ▸ List.mem_cons_self), leads lead first]

/-- No span opens at the start, also not with the `>` behind the value. -/
theorem closingMark?_eq (bare : Bare value) (rest : List UInt8) :
    closingMark? (Text.bytes value ++ byteOf '>' :: rest) = none := by
  obtain ⟨c, cs, chars⟩ := List.exists_cons_of_ne_nil
    fun empty => bare.solid (String.toList_eq_nil_iff.mp empty)
  obtain ⟨lead, more, bytes, -⟩ := (Text.encoded_utf8EncodeChar c).lead
  have whole : Text.bytes value ++ byteOf '>' :: rest =
      lead :: (more ++ Text.encodeUtf8 cs ++ byteOf '>' :: rest) := by
    rw [Text.bytes, chars, Text.encodeUtf8, List.flatMap_cons, bytes]
    rfl
  have shut (x : Char) (ascii : x.toNat < 0x80) (kind : SpanMark)
      (mark : kind.opening.toList = [x, '\x7b'])
      (next : (more ++ Text.encodeUtf8 cs ++ byteOf '>' :: rest).head? = some (byteOf '\x7b')) :
      lead ≠ byteOf x := by
    rintro rfl
    obtain rfl : c = x := Text.eq_of_mem_utf8EncodeChar ascii (bytes ▸ List.mem_cons_self)
    have alone : more = [] := by
      rw [Text.utf8EncodeChar_ascii ascii] at bytes
      exact (List.cons_eq_cons.mp bytes).2.symm
    rw [alone, List.nil_append] at next
    cases cs with
    | nil => cases next
    | cons d cs =>
      obtain ⟨second, others, bytes', -⟩ := (Text.encoded_utf8EncodeChar d).lead
      rw [Text.encodeUtf8, List.flatMap_cons, bytes'] at next
      obtain rfl : d = '\x7b' := by
        refine Text.eq_of_mem_utf8EncodeChar (by decide) ?_
        rw [bytes', ← byteOf, ← Option.some.inj next]
        exact List.mem_cons_self
      exact bare.closed kind ⟨[], cs, by rw [chars, mark]; rfl⟩
  rw [whole]
  exact closingMark?_eq_none fun next =>
    ⟨shut '$' (by decide) .dollar rfl next, shut '\x7b' (by decide) .braces rfl next⟩

theorem getLast_ne (bare : Bare value) : ∀ b ∈ (Text.bytes value).getLast?, b ≠ byteOf '/' := by
  rintro b last rfl
  obtain ⟨cs, c, chars⟩ : ∃ cs c, value.toList = cs ++ [c] := List.eq_nil_or_concat' _ |>.resolve_left
    fun empty => bare.solid (String.toList_eq_nil_iff.mp empty)
  obtain ⟨lead, more, bytes, -⟩ := (Text.encoded_utf8EncodeChar c).lead
  rw [Text.bytes, chars, Text.encodeUtf8_append, Text.encodeUtf8, Text.encodeUtf8,
    List.flatMap_singleton, bytes, List.getLast?_append_of_ne_nil _ (List.cons_ne_nil _ _)] at last
  have slash : c = '/' := by
    refine Text.eq_of_mem_utf8EncodeChar (by decide) ?_
    rw [bytes]
    exact List.mem_of_getLast? last
  exact bare.ends c (by rw [chars]; exact List.getLast?_concat ..) slash

/-- The value in its tag. -/
theorem readAttribute_eq (bare : Bare value) (total : Nat) (rest : List UInt8) :
    readAttribute total (byteOf '=' :: (Text.bytes value ++ byteOf '>' :: rest)) =
      .ok ((Text.bytes value).takeWhile (fun b => !isCutting b),
        (Text.bytes value).dropWhile (fun b => !isCutting b) ++ byteOf '>' :: rest) := by
  have inside : byteOf '>' ∉ Text.bytes value := by
    rw [Text.bytes, byteOf, Text.mem_encodeUtf8 (by decide)]
    exact bare.inside
  have span : afterSpan? (Text.bytes value ++ byteOf '>' :: rest) = none := by
    rw [afterSpan?, bare.closingMark?_eq]
    rfl
  have after : afterBare (Text.bytes value ++ byteOf '>' :: rest) =
      (Text.bytes value).dropWhile (fun b => !isCutting b) ++ byteOf '>' :: rest := by
    rw [afterBare, span, Option.getD_none]
    exact afterWord_bare (fun _ => bare.isBlankByte_eq) inside bare.getLast_ne rest
  obtain ⟨b, more, whole, solid, double, single⟩ := bare.head
  have front : upTo (Text.bytes value ++ byteOf '>' :: rest)
      ((Text.bytes value).dropWhile (fun b => !isCutting b) ++ byteOf '>' :: rest) =
      (Text.bytes value).takeWhile fun b => !isCutting b := by
    have parts : Text.bytes value ++ byteOf '>' :: rest =
        (Text.bytes value).takeWhile (fun b => !isCutting b) ++
          ((Text.bytes value).dropWhile (fun b => !isCutting b) ++ byteOf '>' :: rest) := by
      rw [← List.append_assoc, List.takeWhile_append_dropWhile]
    rw [parts]
    exact upTo_append _ _
  rw [readAttribute, skipBlank_cons (by decide)]
  dsimp only
  rw [if_pos rfl]
  rw [whole, List.cons_append] at after front ⊢
  rw [skipBlank_cons solid, readValue, if_neg (by simp [double, single])]
  dsimp only
  rw [after, front]

/-- An entity cannot come about where there is no ampersand. -/
theorem decoded_eq (bare : Bare value) :
    String.ofList (decodeEntities (Text.decodeUtf8
      ((Text.bytes value).takeWhile fun b => !isCutting b))) =
        Text.ofBytes ((Text.bytes value).takeWhile fun b => !isCutting b) := by
  have free : '&' ∉ Text.decodeUtf8 ((Text.bytes value).takeWhile fun b => !isCutting b) := by
    intro mem
    obtain ⟨front, back, split⟩ := List.append_of_mem mem
    have here : ['&'] <:+: Text.decodeUtf8 ((Text.bytes value).takeWhile fun b => !isCutting b) :=
      ⟨front, back, by rw [split, List.append_assoc]; rfl⟩
    have byte := (Text.infix_of_decodeUtf8 (by simp) here).subset List.mem_cons_self
    have held := (List.takeWhile_sublist _).subset byte
    exact bare.plain ((Text.mem_encodeUtf8 (by decide)).mp held)
  have same := decodeFrom_append isEntity_entities free []
  rw [List.append_nil] at same
  rw [decodeEntities_eq, same, decodeFrom, List.append_nil, Text.ofBytes]

end Bare

/-! ## The first element -/

/-- What is found in a tag is added to what was found before. -/
theorem readTagTail_front {total start : Nat} {attributes : List (String × String)}
    {selfClosing : Bool} {bs : List UInt8} {tail : TagTail}
    (h : readTagTail total start attributes selfClosing bs = .ok tail) :
    attributes <+: tail.attributes := by
  fun_induction readTagTail total start attributes selfClosing bs with
  | case1 => cases h
  | case2 _ _ _ _ _ ih => exact ih h
  | case3 => cases h; exact List.prefix_rfl
  | case4 => cases h
  | case5 attributes _ _ b rest _ _ _ named value after _ name _ ih =>
    exact (List.prefix_append _ _).trans (ih h)
  | case6 _ _ _ _ _ _ _ _ _ ih => exact ih h

/-- The first element has this tag and these attributes, whether it is closed or still open. -/
inductive Reading.Leads (tag : String) (attributes : List (String × String)) : Reading → Prop
  | closed {stack : List OpenElement} {kids others : List Markup} :
      Leads tag attributes ⟨stack, .element tag attributes kids :: others⟩
  | inside (stack : List OpenElement) {kids : List Markup} {offset : Nat} :
      Leads tag attributes ⟨stack ++ [⟨tag, attributes, kids, offset⟩], []⟩

namespace Reading.Leads

variable {tag : String} {attributes : List (String × String)} {state : Reading}

theorem add (h : state.Leads tag attributes) (m : Markup) : (state.add m).Leads tag attributes := by
  cases h with
  | @closed stack kids others =>
    cases stack with
    | nil => exact .closed
    | cons top outer => exact .closed
  | inside stack =>
    cases stack with
    | nil => exact .inside []
    | cons top outer => exact .inside ({ top with children := _ } :: outer)

theorem close (h : state.Leads tag attributes) {name : String} {offset : Nat} {state' : Reading}
    (ended : state.close name offset = .ok state') : state'.Leads tag attributes := by
  cases h with
  | @closed stack kids others =>
    unfold Reading.close at ended
    cases stack with
    | nil => cases ended
    | cons top outer =>
      dsimp only at ended
      split at ended
      · cases ended
        exact add .closed _
      · cases ended
  | inside stack =>
    unfold Reading.close at ended
    cases stack with
    | nil =>
      dsimp only [List.nil_append] at ended
      split at ended
      case isTrue same =>
        cases ended
        subst same
        exact .closed
      case isFalse => cases ended
    | cons top outer =>
      dsimp only [List.cons_append] at ended
      split at ended
      · cases ended
        exact add (.inside outer) _
      · cases ended

theorem next (h : state.Leads tag attributes) {b : UInt8} {rest : List UInt8} {state' : Reading}
    (step : state.Next b rest state') : state'.Leads tag attributes := by
  cases step with
  | pass => exact h
  | text => exact h.add _
  | leaf => exact h.add _
  | @opens top =>
    cases h with
    | closed => exact .closed
    | inside stack => exact .inside (top :: stack)
  | closes _ ended => exact h.close ended

/-- It stays the first to the end. -/
theorem readFrom {total : Nat} {bs : List UInt8} {nodes : List Markup}
    (h : state.Leads tag attributes) (read : Markup.readFrom total state bs = .ok nodes) :
    ∃ kids others, nodes = .element tag attributes kids :: others := by
  induction size : bs.length using Nat.strong_induction_on generalizing state bs with
  | _ n ih =>
    cases bs with
    | nil =>
      rw [Markup.readFrom, Reading.finish] at read
      cases h with
      | @closed stack kids others =>
        split at read
        · cases read
          exact ⟨kids, others, rfl⟩
        · cases read
      | inside stack =>
        split at read
        case h_1 none => cases List.append_ne_nil_of_right_ne_nil stack (List.cons_ne_nil _ _) none
        case h_2 => cases read
    | cons b rest =>
      obtain ⟨state', next, read⟩ := readFrom_step read
      exact ih _ (size ▸ length_afterPiece total b rest) (h.next next) read rfl

end Reading.Leads

/-! ## An element with such a value -/

/-- A tag with one attribute, whose value has no quotes, and its closing tag. -/
def bareTag (value : String) : String := "<p a=" ++ value ++ "></p>"

theorem bytes_bareTag (value : String) : Text.bytes (bareTag value) = byteOf '<' :: byteOf 'p' ::
    byteOf ' ' :: byteOf 'a' :: byteOf '=' :: (Text.bytes value ++ byteOf '>' :: mark "</p>") := by
  have opened : Text.bytes "<p a=" = mark "<p a=" := by decide +kernel
  have closed : Text.bytes "></p>" = byteOf '>' :: mark "</p>" := by decide +kernel
  rw [bareTag, Text.bytes_append, Text.bytes_append, opened, closed, List.append_assoc]
  rfl

/-- The element is opened, or added at once, with what its tag has. -/
theorem readFrom_start (total : Nat) (bs : List UInt8) :
    readFrom total {} (byteOf '<' :: byteOf 'p' :: byteOf ' ' :: bs) =
      (readTagTail total (total - (bs.length + 3)) [] false (byteOf ' ' :: bs)).bind fun tail =>
        if tail.selfClosing then readFrom total ⟨[], [.element "p" tail.attributes []]⟩ tail.rest
        else readFrom total ⟨[⟨"p", tail.attributes, [], total - (bs.length + 3)⟩], []⟩ tail.rest := by
  have taken : (byteOf 'p' :: byteOf ' ' :: bs).takeWhile isTagByte = [byteOf 'p'] := rfl
  have dropped : (byteOf 'p' :: byteOf ' ' :: bs).dropWhile isTagByte = byteOf ' ' :: bs := rfl
  have tag : Text.ofBytes [byteOf 'p'] = "p" := by decide +kernel
  have solid : voidTags.contains "p".toLower = false := by decide +kernel
  have comment : ¬(mark "!--").isPrefixOf (byteOf 'p' :: byteOf ' ' :: bs) = true :=
    Bool.false_ne_true
  have declaration : ¬(mark "!").isPrefixOf (byteOf 'p' :: byteOf ' ' :: bs) = true :=
    Bool.false_ne_true
  have closing : ¬(mark "/").isPrefixOf (byteOf 'p' :: byteOf ' ' :: bs) = true :=
    Bool.false_ne_true
  rw [readFrom, if_pos rfl, if_neg comment, if_neg declaration, if_neg closing]
  dsimp only
  rw [taken, tag, if_neg (by decide)]
  split
  case h_1 e failed =>
    rw [dropped] at failed
    rw [show readTagTail total (total - (bs.length + 3)) [] false (byteOf ' ' :: bs) = _ from failed]
    rfl
  case h_2 tail read =>
    rw [dropped] at read
    rw [show readTagTail total (total - (bs.length + 3)) [] false (byteOf ' ' :: bs) = _ from read]
    rw [solid, Bool.or_false]
    rfl

namespace Bare

variable {value : String}

/-- The tag goes on behind the value, wherever that was found to end. -/
theorem readTagTail_eq (bare : Bare value) (total start : Nat) (rest : List UInt8) :
    readTagTail total start [] false (byteOf ' ' :: byteOf 'a' :: byteOf '=' ::
      (Text.bytes value ++ byteOf '>' :: rest)) =
        readTagTail total start
          [("a", Text.ofBytes ((Text.bytes value).takeWhile fun b => !isCutting b))] false
          ((Text.bytes value).dropWhile (fun b => !isCutting b) ++ byteOf '>' :: rest) := by
  have word : IsWord isNameChar "a" := by
    refine ⟨by decide, fun c mem => ?_⟩
    obtain rfl : c = 'a' := by simpa using mem
    rfl
  have name : Text.bytes "a" = [byteOf 'a'] := by decide +kernel
  rw [readTagTail_attribute word (by decide) (by rw [name]; rfl) (bare.readAttribute_eq total rest),
    bare.decoded_eq]
  rfl

/-- The value is the first attribute of the first element, up to where it is cut. -/
theorem nodes_of_parse (bare : Bare value) {nodes : List Markup}
    (read : parseFragment (bareTag value) = .ok nodes) : ∃ attributes kids others,
      nodes = .element "p" (("a", Text.ofBytes ((Text.bytes value).takeWhile
        fun b => !isCutting b)) :: attributes) kids :: others := by
  rw [parseFragment, bytes_bareTag, readFrom_start, bare.readTagTail_eq] at read
  obtain ⟨tail, found, read⟩ := exists_of_bind_eq_ok read
  obtain ⟨more, front⟩ := readTagTail_front found
  have leads : ∃ kids others, nodes = .element "p" tail.attributes kids :: others := by
    split at read
    · exact Reading.Leads.closed.readFrom read
    · exact (Reading.Leads.inside []).readFrom read
  obtain ⟨kids, others, rfl⟩ := leads
  exact ⟨more, kids, others, by rw [← front]; rfl⟩

theorem parse_of_uncut (bare : Bare value) (uncut : ∀ b ∈ Text.bytes value, isCutting b = false) :
    parseFragment (bareTag value) = .ok [.element "p" [("a", value)] []] := by
  have kept : ∀ b ∈ Text.bytes value, (!isCutting b) = true :=
    fun b mem => by rw [uncut b mem]; rfl
  have word : IsWord isTagChar "p" := by
    refine ⟨by decide, fun c mem => ?_⟩
    obtain rfl : c = 'p' := by simpa using mem
    rfl
  have closing : mark "</p>" = Text.bytes ("</" ++ "p" ++ ">") ++ [] := by decide +kernel
  rw [parseFragment, bytes_bareTag, readFrom_start, bare.readTagTail_eq,
    List.takeWhile_eq_self_iff.mpr kept, List.dropWhile_eq_nil_iff.mpr kept, Text.ofBytes_bytes,
    readTagTail_end rfl, Except.bind, if_neg Bool.false_ne_true, closing]
  refine (readFrom_closingTag _ {} word []).trans ?_
  rw [readFrom]
  rfl

theorem uncut_of_back
    (back : Text.ofBytes ((Text.bytes value).takeWhile fun b => !isCutting b) = value) :
    ∀ b ∈ Text.bytes value, isCutting b = false := by
  have leads : ∀ b : UInt8, b.toNat < 0x80 ∨ 0xC0 ≤ b.toNat → (!isCutting b) = true := by
    decide +kernel
  have replaces : ∀ b ∈ String.utf8EncodeChar Text.replacement, (!isCutting b) = true := by
    decide +kernel
  have chars := congrArg String.toList back
  rw [Text.ofBytes, String.toList_ofList] at chars
  intro b mem
  simpa using Text.all_of_decodeUtf8_takeWhile leads replaces chars b mem

end Bare

theorem isCutting_eq_false_iff {b : UInt8} : isCutting b = false ↔ b ≠ 0x85 ∧ b ≠ 0xA0 := by
  simp [isCutting]

/-- A value without quotes is read as it stands exactly if none of its bytes is 85 or A0. Otherwise
it is cut at the first of these, and the character that has it is lost. -/
theorem parseFragment_bare {value : String} (bare : Bare value) :
    (parseFragment (bareTag value) = .ok [.element "p" [("a", value)] []] ↔
      ∀ b ∈ Text.bytes value, b ≠ 0x85 ∧ b ≠ 0xA0) ∧
    ∀ nodes, parseFragment (bareTag value) = .ok nodes → ∃ attributes kids others,
      nodes = .element "p" (("a", Text.ofBytes ((Text.bytes value).takeWhile
        fun b => !(b = 0x85 || b = 0xA0))) :: attributes) kids :: others := by
  refine ⟨⟨fun read b mem => ?_, fun whole => ?_⟩, fun nodes => bare.nodes_of_parse⟩
  · obtain ⟨attributes, kids, others, same⟩ := bare.nodes_of_parse read
    injection same with same
    injection same with _ same
    injection same with same
    injection same with _ back
    exact isCutting_eq_false_iff.mp (Bare.uncut_of_back back.symm b mem)
  · exact bare.parse_of_uncut fun b mem => isCutting_eq_false_iff.mpr (whole b mem)

/-- One character that no syntax uses is such a value. -/
theorem bare_singleton {value : String} {c : Char} (chars : value.toList = [c])
    (unparted : Text.isBlank c = false) (other : c ∉ ['>', '&', '"', '\'', '/']) :
    Bare value := by
  simp only [List.mem_cons, List.not_mem_nil, or_false, not_or] at other
  obtain ⟨inside, plain, double, single, slash⟩ := other
  refine ⟨?_, ?_, ?_, ?_, ?_, ?_, ?_⟩
  · exact fun empty => by rw [empty] at chars; cases chars
  · rw [chars]
    intro d mem
    rwa [List.mem_singleton.mp mem]
  · rw [chars]
    exact fun mem => inside (List.mem_singleton.mp mem).symm
  · rw [chars]
    exact fun mem => plain (List.mem_singleton.mp mem).symm
  · rw [chars]
    rintro (_ | _) found
    · cases Nat.le_of_succ_le_succ found.length_le
    · cases Nat.le_of_succ_le_succ found.length_le
  · rw [chars]
    rintro d ⟨⟩
    exact ⟨double, single⟩
  · rw [chars]
    rintro d ⟨⟩
    exact slash

/-- The bytes of `ü` are C3 and BC. -/
theorem parseFragment_bare_umlaut : Bare "ü" ∧
    parseFragment (bareTag "ü") = .ok [.element "p" [("a", "ü")] []] := by
  have bare : Bare "ü" :=
    bare_singleton (show "ü".toList = ['ü'] by simp) (by decide) (by decide)
  exact ⟨bare, (parseFragment_bare bare).1.mpr (by decide +kernel)⟩

/-- The bytes of `à` are C3 and A0. -/
theorem parseFragment_cuts_grave : Bare "à" ∧
    parseFragment (bareTag "à") = .ok [.element "p" [("a", "\ufffd")] []] ∧
    parseFragment (bareTag "à") ≠ .ok [.element "p" [("a", "à")] []] := by
  have bare : Bare "à" :=
    bare_singleton (show "à".toList = ['à'] by simp) (by decide) (by decide)
  have read : parseFragment (bareTag "à") = .ok [.element "p" [("a", "\ufffd")] []] := by
    decide +kernel
  refine ⟨bare, read, ?_⟩
  rw [read]
  decide +kernel

end Markup
end LiveTemplate
