import LiveTemplate.Interpolation
import LiveTemplate.Markup.Reader
import LiveTemplate.Proofs.Entities

/-!
# LiveTemplate.Proofs.Pieces

Reading the pieces of written markup. What a word, a value, a tag, a comment or a text is written
as is read to its end and not beyond.

  * `readTagTail_written`    the attributes of a tag
  * `breakOn?_comment`       a comment
  * `afterText_written`      a text whose expression spans are closed
-/

namespace LiveTemplate
namespace Markup

/-! ## Words -/

/-- The characters of tags: ASCII letters and digits, and three more. -/
def isTagChar (c : Char) : Bool := c.isAlphanum || c = '_' || c = '-' || c = ':'

/-- The characters of attribute names. -/
def isNameChar (c : Char) : Bool := isTagChar c || c = '@' || c = '.'

/-- Some characters, all of one kind. -/
structure IsWord (kind : Char → Bool) (s : String) : Prop where
  solid : s ≠ ""
  each : ∀ c ∈ s.toList, kind c = true

theorem ascii_of_isNameChar {c : Char} (h : isNameChar c = true) : c.toNat < 128 := by
  simp only [isNameChar, isTagChar, Bool.or_eq_true, decide_eq_true_eq] at h
  rcases h with ((((h | rfl) | rfl) | rfl) | rfl) | rfl
  · simp only [Char.isAlphanum, Char.isAlpha, Char.isUpper, Char.isLower, Char.isDigit,
      Bool.or_eq_true, Bool.and_eq_true, decide_eq_true_eq, UInt32.le_iff_toNat_le, ge_iff_le] at h
    change ((65 ≤ c.toNat ∧ c.toNat ≤ 90) ∨ (97 ≤ c.toNat ∧ c.toNat ≤ 122)) ∨
      (48 ≤ c.toNat ∧ c.toNat ≤ 57) at h
    omega
  all_goals decide

theorem isNameChar_of_isTagChar {c : Char} (h : isTagChar c = true) : isNameChar c = true := by
  simp only [isNameChar, h, Bool.true_or]

theorem ascii_induction {P : Char → Prop} (h : ∀ n < 128, P (Char.ofNat n)) {c : Char}
    (ascii : c.toNat < 128) : P c := by
  have here := h c.toNat ascii
  rwa [Char.ofNat_toNat] at here

theorem isTagByte_byteOf {c : Char} (ascii : c.toNat < 128) :
    isTagByte (byteOf c) = isTagChar c := by
  refine ascii_induction (P := fun c => isTagByte (byteOf c) = isTagChar c) ?_ ascii
  decide +kernel

theorem isNameByte_byteOf {c : Char} (ascii : c.toNat < 128) :
    isNameByte (byteOf c) = isNameChar c := by
  refine ascii_induction (P := fun c => isNameByte (byteOf c) = isNameChar c) ?_ ascii
  decide +kernel

theorem isBlankByte_byteOf {c : Char} (name : isNameChar c = true) :
    isBlankByte (byteOf c) = false := by
  refine ascii_induction (P := fun c => isNameChar c = true → isBlankByte (byteOf c) = false) ?_
    (ascii_of_isNameChar name) name
  decide +kernel

theorem bytes_ascii {cs : List Char} (ascii : ∀ c ∈ cs, c.toNat < 128) :
    Text.encodeUtf8 cs = cs.map byteOf := by
  induction cs with
  | nil => rfl
  | cons c cs ih =>
    obtain ⟨first, others⟩ := List.forall_mem_cons.mp ascii
    rw [Text.encodeUtf8, List.flatMap_cons, Text.utf8EncodeChar_ascii first, List.map_cons]
    exact congrArg (byteOf c :: ·) (ih others)

/-- A word of one kind ends where a byte of another kind comes. -/
theorem span_word {kind : Char → Bool} {kindByte : UInt8 → Bool} {word : String}
    (ascii : ∀ c, kind c = true → c.toNat < 128)
    (agree : ∀ {c : Char}, c.toNat < 128 → kindByte (byteOf c) = kind c)
    (each : ∀ c ∈ word.toList, kind c = true) {b : UInt8} (stop : kindByte b = false)
    (rest : List UInt8) :
    (Text.bytes word ++ b :: rest).takeWhile kindByte = Text.bytes word ∧
      (Text.bytes word ++ b :: rest).dropWhile kindByte = b :: rest := by
  have small : ∀ c ∈ word.toList, c.toNat < 128 := fun c mem => ascii c (each c mem)
  have all : ∀ x ∈ Text.bytes word, kindByte x = true := by
    rw [Text.bytes, bytes_ascii small]
    intro x mem
    obtain ⟨c, held, rfl⟩ := List.mem_map.mp mem
    rw [agree (small c held), each c held]
  rw [List.takeWhile_append_of_pos all, List.dropWhile_append_of_pos all]
  simp [stop]

/-- A word starts with a byte of its kind. -/
theorem IsWord.head {kind : Char → Bool} {word : String} (h : IsWord kind word)
    (ascii : ∀ c, kind c = true → c.toNat < 128) :
    ∃ c more, kind c = true ∧ Text.bytes word = byteOf c :: more := by
  have small : ∀ c ∈ word.toList, c.toNat < 128 := fun c mem => ascii c (h.each c mem)
  have solid : word.toList ≠ [] := fun empty => h.solid (String.toList_eq_nil_iff.mp empty)
  obtain ⟨c, cs, same⟩ := List.exists_cons_of_ne_nil solid
  refine ⟨c, cs.map byteOf, h.each c (by rw [same]; exact List.mem_cons_self), ?_⟩
  rw [Text.bytes, bytes_ascii small, same, List.map_cons]

/-- A word does not start with anything of another kind. -/
theorem IsWord.not_front {kind : Char → Bool} {kindByte : UInt8 → Bool} {word : String}
    (h : IsWord kind word) (ascii : ∀ c, kind c = true → c.toNat < 128)
    (agree : ∀ {c : Char}, c.toNat < 128 → kindByte (byteOf c) = kind c) {b : UInt8}
    (other : kindByte b = false) (bs rest : List UInt8) :
    ¬(b :: bs).isPrefixOf (Text.bytes word ++ rest) = true := by
  obtain ⟨c, more, head, same⟩ := h.head ascii
  rw [same, List.cons_append]
  intro front
  have first : b = byteOf c := (List.cons_prefix_cons.mp (List.isPrefixOf_iff_prefix.mp front)).1
  rw [first, agree (ascii c head), head] at other
  cases other

/-! ## Attributes -/

theorem skipBlank_cons {b : UInt8} (h : isBlankByte b = false) (bs : List UInt8) :
    skipBlank (b :: bs) = b :: bs :=
  List.dropWhile_cons_of_neg (by simp [h])

theorem quote_not_mem (value : String) :
    byteOf '"' ∉ Text.bytes (Document.escapeWith Document.escapeValue value) := by
  rw [Text.bytes, byteOf, Text.mem_encodeUtf8 (by decide), toList_escapeWith, List.mem_flatMap]
  rintro ⟨c, _, mem⟩
  unfold Document.escapeValue Document.escapeText at mem
  split_ifs at mem with quote amp less greater
  · exact absurd mem (by decide +kernel)
  · exact absurd mem (by decide +kernel)
  · exact absurd mem (by decide +kernel)
  · exact absurd mem (by decide +kernel)
  · rw [String.toList_singleton, List.mem_singleton] at mem
    exact quote mem.symm

/-- The bytes of an attribute. -/
theorem bytes_attributeMarkup (entry : String × String) :
    Text.bytes (Document.attributeMarkup entry) =
      byteOf ' ' :: (Text.bytes entry.1 ++ byteOf '=' :: byteOf '"' ::
        (Text.bytes (Document.escapeWith Document.escapeValue entry.2) ++ [byteOf '"'])) := by
  have blank : Text.bytes " " = [byteOf ' '] := by decide +kernel
  have opened : Text.bytes "=\"" = [byteOf '=', byteOf '"'] := by decide +kernel
  have closed : Text.bytes "\"" = [byteOf '"'] := by decide +kernel
  simp only [Document.attributeMarkup, Text.bytes_append, blank, opened, closed, List.append_assoc,
    List.cons_append, List.nil_append]

/-- The value of an attribute, from behind its name. -/
theorem readAttribute_written (total : Nat) (value : String) (rest : List UInt8) :
    readAttribute total (byteOf '=' :: byteOf '"' ::
      (Text.bytes (Document.escapeWith Document.escapeValue value) ++ byteOf '"' :: rest)) =
        .ok (Text.bytes (Document.escapeWith Document.escapeValue value), rest) := by
  have found := Text.breakOn?_append_of_not_mem (quote_not_mem value) [] (byteOf '"' :: rest)
  have quote : Text.breakOn? [byteOf '"'] (byteOf '"' :: rest) = some ([], rest) := by
    simp [Text.breakOn?]
  rw [quote, Option.map_some, List.append_nil] at found
  rw [readAttribute, skipBlank_cons (by decide)]
  dsimp only
  rw [if_pos rfl, skipBlank_cons (by decide), readValue, if_pos (by decide), found]

theorem decodeEntities_written {escape : Char → String} (undoes : Undoes escape) (s : String) :
    String.ofList (decodeEntities (Text.decodeUtf8
      (Text.bytes (Document.escapeWith escape s)))) = s := by
  rw [Text.bytes, Text.decodeUtf8_encodeUtf8, decodeEntities_escape undoes, String.ofList_toList]

theorem readTagTail_end {total start : Nat} {attributes : List (String × String)}
    {selfClosing : Bool} {bs rest : List UInt8} (next : skipBlank bs = byteOf '>' :: rest) :
    readTagTail total start attributes selfClosing bs = .ok ⟨attributes, selfClosing, rest⟩ := by
  rw [readTagTail]
  split
  case h_1 none => rw [next] at none; cases none
  case h_2 b more same =>
    rw [next] at same
    cases same
    rw [if_neg (by decide), if_pos rfl]

theorem readTagTail_attribute {total start : Nat} {attributes : List (String × String)}
    {selfClosing : Bool} {bs value after rest : List UInt8} {name : String} {b : UInt8}
    (word : IsWord isNameChar name) (stop : isNameByte b = false)
    (next : skipBlank bs = Text.bytes name ++ b :: rest)
    (read : readAttribute total (b :: rest) = .ok (value, after)) :
    readTagTail total start attributes selfClosing bs =
      readTagTail total start (attributes ++
        [(name, String.ofList (decodeEntities (Text.decodeUtf8 value)))]) selfClosing after := by
  obtain ⟨c, more, head, same⟩ := word.head fun _ => ascii_of_isNameChar
  have kind : isNameByte (byteOf c) = true := by
    rw [isNameByte_byteOf (ascii_of_isNameChar head), head]
  obtain ⟨taken, dropped⟩ := span_word (fun _ => ascii_of_isNameChar) isNameByte_byteOf word.each
    stop rest
  have other (d : Char) (no : isNameByte (byteOf d) = false) : byteOf c ≠ byteOf d := by
    intro same
    rw [same, no] at kind
    cases kind
  rw [same, List.cons_append] at next
  rw [same, List.cons_append, List.takeWhile_cons_of_pos kind] at taken
  rw [same, List.cons_append, List.dropWhile_cons_of_pos kind] at dropped
  rw [readTagTail]
  split
  case h_1 none => rw [next] at none; cases none
  case h_2 first tail found =>
    rw [next] at found
    cases found
    rw [if_neg (other '/' (by decide)), if_neg (other '>' (by decide)), if_pos kind]
    split
    case h_1 e failed => rw [dropped, read] at failed; cases failed
    case h_2 v t done =>
      rw [dropped, read] at done
      cases done
      rw [taken, ← same, Text.ofBytes_bytes]

/-- The attributes of a tag are read up to its end. -/
theorem readTagTail_written (total start : Nat) (attributes : List (String × String))
    (names : ∀ entry ∈ attributes, IsWord isNameChar entry.1)
    (before : List (String × String)) (rest : List UInt8) :
    readTagTail total start before false
      (attributes.flatMap (fun entry => Text.bytes (Document.attributeMarkup entry)) ++
        byteOf '>' :: rest) = .ok ⟨before ++ attributes, false, rest⟩ := by
  induction attributes generalizing before with
  | nil =>
    rw [List.append_nil]
    exact readTagTail_end rfl
  | cons entry attributes ih =>
    obtain ⟨first, others⟩ := List.forall_mem_cons.mp names
    obtain ⟨c, more, head, same⟩ := first.head fun _ => ascii_of_isNameChar
    have next (tail : List UInt8) : skipBlank (byteOf ' ' :: (Text.bytes entry.1 ++ tail)) =
        Text.bytes entry.1 ++ tail := by
      rw [skipBlank, List.dropWhile_cons_of_pos (by decide), same, List.cons_append]
      exact skipBlank_cons (isBlankByte_byteOf head) _
    rw [List.flatMap_cons, bytes_attributeMarkup]
    simp only [List.cons_append, List.append_assoc, List.nil_append]
    rw [readTagTail_attribute first (by decide) (next _) (readAttribute_written total _ _),
      decodeEntities_written undoes_escapeValue, ih others, List.append_assoc,
      List.singleton_append]

/-! ## Comments -/

theorem breakOn?_append_comment {content : List Char}
    (free : ¬ ['-', '-', '>'] <:+: content) :
    Text.breakOn? ['-', '-', '>'] (content ++ ['-', '-', '>']) = some (content, []) := by
  induction content with
  | nil => rfl
  | cons c content ih =>
    have later : ¬ ['-', '-', '>'] <:+: content := fun h =>
      free (h.trans (List.suffix_cons c content).isInfix)
    -- The mark is no start of itself, so it cannot begin inside and end outside.
    have front : ¬ ['-', '-', '>'] <+: c :: (content ++ ['-', '-', '>']) := by
      intro h
      match content, h with
      | [], h => simp at h
      | [d], h => simp at h
      | d :: e :: more, h =>
        refine free (List.IsPrefix.isInfix ?_)
        simpa using h
    rw [List.cons_append, Text.breakOn?, if_neg (by simpa using front), ih later]
    rfl

theorem faithful_utf8EncodeChar {c : Char} (ascii : c.toNat < 128) :
    Text.Faithful String.utf8EncodeChar c (byteOf c) := by
  refine ⟨Text.utf8EncodeChar_ascii ascii, fun x mem => ?_⟩
  have back : (byteOf c).toNat = c.toNat := Text.toNat_ofNat (by omega)
  exact Char.toNat_inj.mp ((Text.mem_utf8EncodeChar mem (by omega)).trans back)

theorem utf8EncodeChar_ne_nil (c : Char) : String.utf8EncodeChar c ≠ [] := by
  obtain ⟨lead, more, same, _⟩ :=
    Text.decodeChar_encoded (Text.encoded_utf8EncodeChar c) c.valid
  rw [same]
  exact List.cons_ne_nil lead more

/-- A comment ends where its content does. -/
theorem breakOn?_comment {content : String} (free : ¬ "-->".toList <:+: content.toList)
    (rest : List UInt8) :
    Text.breakOn? (mark "-->") (Text.bytes content ++ (mark "-->" ++ rest)) =
      some (Text.bytes content, rest) := by
  have found := Text.breakOn?_flatMap utf8EncodeChar_ne_nil
    (faithful_utf8EncodeChar (c := '-') (by decide))
    (.cons (faithful_utf8EncodeChar (c := '-') (by decide))
      (.cons (faithful_utf8EncodeChar (c := '>') (by decide)) .nil))
    (breakOn?_append_comment free) rest
  rw [List.flatMap_append, List.append_assoc] at found
  exact found

/-! ## Text -/

/-- The bytes of a character in a written text. -/
def textBytes (c : Char) : List UInt8 := Text.bytes (Document.escapeText c)

theorem bytes_escapeText (s : String) :
    Text.bytes (Document.escapeWith Document.escapeText s) = s.toList.flatMap textBytes := by
  rw [Text.bytes, Text.encodeUtf8, toList_escapeWith, List.flatMap_assoc]
  rfl

/-- No escape has a character in it that matters to the reader of texts. -/
theorem eq_of_mem_escapeText {a c : Char} (special : a ∈ ['<', '$', '\x7b', '\x7d'])
    (mem : a ∈ (Document.escapeText c).toList) : c = a ∧ a ≠ '<' := by
  unfold Document.escapeText at mem
  split_ifs at mem with amp less greater
  case neg =>
    rw [String.toList_singleton, List.mem_singleton] at mem
    exact ⟨mem.symm, mem ▸ less⟩
  all_goals
    simp only [List.mem_cons, List.not_mem_nil, or_false] at special
    rcases special with rfl | rfl | rfl | rfl <;> exact absurd mem (by decide +kernel)

theorem eq_of_mem_textBytes {a c : Char} (special : a ∈ ['<', '$', '\x7b', '\x7d'])
    (mem : byteOf a ∈ textBytes c) : c = a ∧ a ≠ '<' := by
  have ascii : a.toNat < 128 := by
    simp only [List.mem_cons, List.not_mem_nil, or_false] at special
    rcases special with rfl | rfl | rfl | rfl <;> decide
  exact eq_of_mem_escapeText special ((Text.mem_encodeUtf8 ascii).mp mem)

theorem textBytes_ne_nil (c : Char) : textBytes c ≠ [] := by
  unfold textBytes Document.escapeText
  split_ifs
  case neg =>
    rw [Text.bytes, String.toList_singleton, Text.encodeUtf8, List.flatMap_singleton]
    exact utf8EncodeChar_ne_nil c
  all_goals exact List.cons_ne_nil _ _

/-- The marks of spans are written as themselves. -/
theorem faithful_textBytes {a : Char} (special : a ∈ ['$', '\x7b', '\x7d']) :
    Text.Faithful textBytes a (byteOf a) := by
  refine ⟨?_, fun x mem => (eq_of_mem_textBytes (List.mem_cons_of_mem _ special) mem).1⟩
  simp only [List.mem_cons, List.not_mem_nil, or_false] at special
  rcases special with rfl | rfl | rfl <;> decide +kernel

/-- No span opens where the second byte is no brace. -/
theorem closingMark?_eq_none {b : UInt8} {bs : List UInt8}
    (h : bs.head? = some (byteOf '\x7b') → b ≠ byteOf '$' ∧ b ≠ byteOf '\x7b') :
    closingMark? (b :: bs) = none := by
  have second (x : UInt8) (same : b = x) : [byteOf '\x7b'].isPrefixOf bs = true →
      x ≠ byteOf '$' ∧ x ≠ byteOf '\x7b' := by
    intro front
    obtain ⟨more, rfl⟩ := List.isPrefixOf_iff_prefix.mp front
    exact same ▸ h rfl
  have dollar : ¬ (mark "$\x7b").isPrefixOf (b :: bs) = true := by
    intro front
    obtain ⟨same, front⟩ := Bool.and_eq_true_iff.mp front
    exact (second (byteOf '$') (beq_iff_eq.mp same).symm front).1 rfl
  have braces : ¬ (mark "\x7b\x7b").isPrefixOf (b :: bs) = true := by
    intro front
    obtain ⟨same, front⟩ := Bool.and_eq_true_iff.mp front
    exact (second (byteOf '\x7b') (beq_iff_eq.mp same).symm front).2 rfl
  rw [closingMark?, if_neg dollar, if_neg braces]

theorem afterText_cons {b : UInt8} {bs : List UInt8} (other : b ≠ byteOf '<')
    (none : closingMark? (b :: bs) = none) : afterText (b :: bs) = afterText bs := by
  rw [afterText, if_neg other]
  split
  case h_1 after span => rw [afterSpan?, none] at span; cases span
  case h_2 => rfl

theorem afterText_append {xs : List UInt8}
    (plain : ∀ x ∈ xs, x ≠ byteOf '<' ∧ x ≠ byteOf '$' ∧ x ≠ byteOf '\x7b') (bs : List UInt8) :
    afterText (xs ++ bs) = afterText bs := by
  induction xs with
  | nil => rfl
  | cons x xs ih =>
    obtain ⟨⟨tag, span⟩, others⟩ := List.forall_mem_cons.mp plain
    rw [List.cons_append, afterText_cons tag (closingMark?_eq_none fun _ => span), ih others]

/-- A character that opens no span is passed over. -/
theorem afterText_textBytes {c : Char} {bs : List UInt8}
    (h : bs.head? = some (byteOf '\x7b') → c ≠ '$' ∧ c ≠ '\x7b') :
    afterText (textBytes c ++ bs) = afterText bs := by
  by_cases special : c = '$' ∨ c = '\x7b'
  · have own : textBytes c = [byteOf c] := by
      rcases special with rfl | rfl <;> exact (faithful_textBytes (by simp)).own
    have tag : byteOf c ≠ byteOf '<' := by
      rcases special with rfl | rfl <;> decide
    rw [own, List.singleton_append]
    refine afterText_cons tag (closingMark?_eq_none fun brace => ?_)
    obtain ⟨dollar, brace⟩ := h brace
    rcases special with same | same
    · exact absurd same dollar
    · exact absurd same brace
  · obtain ⟨dollar, brace⟩ := not_or.mp special
    refine afterText_append (fun x mem => ⟨?_, ?_, ?_⟩) bs
    · rintro rfl
      exact (eq_of_mem_textBytes (by simp) mem).2 rfl
    · rintro rfl
      exact dollar (eq_of_mem_textBytes (by simp) mem).1
    · rintro rfl
      exact brace (eq_of_mem_textBytes (by simp) mem).1

/-- What comes behind a written text: the end, or a tag. -/
def Stops (rest : List UInt8) : Prop := ∀ b ∈ rest.head?, b = byteOf '<'

theorem afterText_of_stops {rest : List UInt8} (stops : Stops rest) : afterText rest = rest := by
  cases rest with
  | nil => rw [afterText]
  | cons b rest => rw [afterText, if_pos (stops b rfl)]

/-- A brace in front of a written text is a brace in front of the text. -/
theorem head?_written {cs : List Char} {rest : List UInt8} (stops : Stops rest)
    (h : (cs.flatMap textBytes ++ rest).head? = some (byteOf '\x7b')) : cs.head? = some '\x7b' := by
  cases cs with
  | nil => exact absurd (stops _ h) (by decide)
  | cons c cs =>
    obtain ⟨b, more, same⟩ := List.exists_cons_of_ne_nil (textBytes_ne_nil c)
    rw [List.flatMap_cons, same] at h
    cases h
    have own := (eq_of_mem_textBytes (a := '\x7b') (by simp) (same ▸ List.mem_cons_self)).1
    rw [own, List.head?_cons]

/-- A character that opens no span is passed over. -/
theorem afterText_flatMap_cons {c : Char} {cs : List Char} {rest : List UInt8}
    (stops : Stops rest) (dollar : ∀ more, c = '$' → cs = '\x7b' :: more → False)
    (braces : ∀ more, c = '\x7b' → cs = '\x7b' :: more → False) :
    afterText ((c :: cs).flatMap textBytes ++ rest) = afterText (cs.flatMap textBytes ++ rest) := by
  rw [List.flatMap_cons, List.append_assoc]
  refine afterText_textBytes fun brace => ?_
  obtain ⟨more, same⟩ := List.head?_eq_some_iff.mp (head?_written stops brace)
  exact ⟨fun c => dollar more c same, fun c => braces more c same⟩

/-- A text without spans is passed over. -/
theorem afterText_of_none {cs : List Char} {rest : List UInt8} (stops : Stops rest)
    (h : nextSpan? cs = none) : afterText (cs.flatMap textBytes ++ rest) = rest := by
  fun_induction nextSpan? cs with
  | case1 => exact afterText_of_stops stops
  | case2 => cases h
  | case3 => cases h
  | case4 c cs dollar braces ih =>
    rw [afterText_flatMap_cons stops dollar braces, ih (Option.map_eq_none_iff.mp h)]

/-- What stands before the first span is passed over. -/
theorem afterText_nextSpan? {cs before after : List Char} {kind : SpanMark} {rest : List UInt8}
    (stops : Stops rest) (h : nextSpan? cs = some (before, kind, after)) :
    afterText (cs.flatMap textBytes ++ rest) =
      afterText (mark kind.opening ++ (after.flatMap textBytes ++ rest)) := by
  have dollar := (faithful_textBytes (a := '$') (by simp)).own
  have brace := (faithful_textBytes (a := '\x7b') (by simp)).own
  fun_induction nextSpan? cs generalizing before with
  | case1 => cases h
  | case2 cs =>
    cases h
    rw [List.flatMap_cons, List.flatMap_cons, dollar, brace]
    rfl
  | case3 cs =>
    cases h
    rw [List.flatMap_cons, List.flatMap_cons, brace]
    rfl
  | case4 c cs dollar braces ih =>
    obtain ⟨⟨front, found, back⟩, there, same⟩ := Option.map_eq_some_iff.mp h
    cases same
    rw [afterText_flatMap_cons stops dollar braces, ih there]

theorem afterSpan?_opening {kind : SpanMark} {bs body after : List UInt8}
    (found : Text.breakOn? (mark kind.closing) bs = some (body, after)) :
    afterSpan? (mark kind.opening ++ bs) = some after := by
  have close : closingMark? (mark kind.opening ++ bs) = some (mark kind.closing) := by
    cases kind <;> rfl
  have inner : (mark kind.opening ++ bs).drop 2 = bs := by cases kind <;> rfl
  rw [afterSpan?, close, Option.map_some, inner, found]

theorem afterText_opening {kind : SpanMark} {bs body after : List UInt8}
    (found : Text.breakOn? (mark kind.closing) bs = some (body, after)) :
    afterText (mark kind.opening ++ bs) = afterText after := by
  have span := afterSpan?_opening found
  obtain ⟨b, more, same, other⟩ : ∃ b more, mark kind.opening ++ bs = b :: more ∧
      b ≠ byteOf '<' := by
    cases kind <;> exact ⟨_, _, rfl, by decide⟩
  rw [same] at span ⊢
  rw [afterText, if_neg other]
  split
  case h_1 rest here => rw [span] at here; cases here; rfl
  case h_2 none => rw [span] at none; cases none

/-- A span is passed over up to its closing mark. -/
theorem afterText_span {kind : SpanMark} {cs body after : List Char} (rest : List UInt8)
    (h : Text.breakOn? kind.closing.toList cs = some (body, after)) :
    afterText (mark kind.opening ++ (cs.flatMap textBytes ++ rest)) =
      afterText (after.flatMap textBytes ++ rest) := by
  have close := faithful_textBytes (a := '\x7d') (by simp)
  have found : Text.breakOn? (mark kind.closing) (cs.flatMap textBytes ++ rest) =
      some (body.flatMap textBytes, after.flatMap textBytes ++ rest) := by
    cases kind with
    | dollar => exact Text.breakOn?_flatMap textBytes_ne_nil close .nil h rest
    | braces => exact Text.breakOn?_flatMap textBytes_ne_nil close (.cons close .nil) h rest
  exact afterText_opening found

/-- A written text whose spans are closed is passed over as a whole. -/
theorem afterText_written {cs : List Char} {split : Split} (closed : splitSpans cs = .ok split)
    {rest : List UInt8} (stops : Stops rest) :
    afterText (cs.flatMap textBytes ++ rest) = rest := by
  fun_induction splitSpans cs generalizing split with
  | case1 cs none => exact afterText_of_none stops none
  | case2 => cases closed
  | case3 => cases closed
  | case4 cs before kind after next body remaining close split' more ih =>
    rw [afterText_nextSpan? stops next, afterText_span rest close, ih more]

end Markup
end LiveTemplate
