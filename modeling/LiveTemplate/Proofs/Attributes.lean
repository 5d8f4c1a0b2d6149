import LiveTemplate.Proofs.Passages

/-!
# LiveTemplate.Proofs.Attributes

The loop over the attributes of a tag, turn by turn. Bytes that start no attribute are passed over
one at a time, also in the middle of a character; still every turn takes something away, and the
loop ends right behind a `>` or at one of two errors.

  * `TagTail.turn`        one turn
  * `readTagTail_turn`    the loop is made of turns
  * `TagTail.Turned`      what a turn can do
  * `readTagTail_cases`   what the loop can come to
-/

namespace LiveTemplate
namespace Markup

/-! ## The pieces of an attribute -/

theorem skipBlank_suffix (bs : List UInt8) : skipBlank bs <:+ bs := List.dropWhile_suffix _

theorem afterWord_suffix (bs : List UInt8) : afterWord bs <:+ bs := by
  induction bs with
  | nil => exact List.suffix_rfl
  | cons b rest ih =>
    rw [afterWord]
    split
    · exact List.suffix_rfl
    · exact ih.trans (List.suffix_cons b rest)

theorem afterBare_suffix (bs : List UInt8) : afterBare bs <:+ bs := by
  rw [afterBare]
  cases span : afterSpan? bs with
  | none => exact afterWord_suffix bs
  | some after => exact (afterWord_suffix after).trans ⟨_, upTo_afterSpan? span⟩

/-- The quote `q` between `front` and `back` opens the value of an attribute and has no
counterpart. -/
structure Opens (front : List UInt8) (q : UInt8) (back : List UInt8) : Prop where
  quote : q = byteOf '"' ∨ q = byteOf '\''
  value : ∃ before blanks, front = before ++ byteOf '=' :: blanks ∧
    ∀ b ∈ blanks, isBlankByte b = true
  unclosed : q ∉ back

theorem Opens.append {front back : List UInt8} {q : UInt8} (h : Opens front q back)
    (before : List UInt8) : Opens (before ++ front) q back := by
  obtain ⟨first, blanks, rfl, blank⟩ := h.value
  exact ⟨h.quote, ⟨before ++ first, blanks, by simp, blank⟩, h.unclosed⟩

theorem not_mem_of_breakOn? {q : UInt8} {bs : List UInt8} (h : Text.breakOn? [q] bs = none) :
    q ∉ bs := by
  intro mem
  obtain ⟨front, back, rfl, free⟩ := List.eq_append_cons_of_mem mem
  rw [Text.breakOn?_append_of_not_mem free, Text.breakOn?, if_pos (by simp)] at h
  cases h

theorem readValue_cases (total : Nat) (bs : List UInt8) :
    (∃ value after, readValue total bs = .ok (value, after) ∧ after <:+ bs) ∨
      ∃ q back, bs = q :: back ∧ (q = byteOf '"' ∨ q = byteOf '\'') ∧ q ∉ back ∧
        readValue total bs = .error (.unterminated .attributeValue (total - bs.length)) := by
  cases bs with
  | nil => exact .inl ⟨[], [], rfl, List.suffix_rfl⟩
  | cons b rest =>
    rw [readValue]
    split
    case isTrue quote =>
      cases found : Text.breakOn? [b] rest with
      | none => exact .inr ⟨b, rest, rfl, by simpa using quote, not_mem_of_breakOn? found, rfl⟩
      | some parts =>
        refine .inl ⟨parts.1, parts.2, rfl, ⟨b :: (parts.1 ++ [b]), ?_⟩⟩
        rw [List.cons_append, ← Text.breakOn?_eq_append found]
    case isFalse => exact .inl ⟨_, _, rfl, afterBare_suffix _⟩

theorem readAttribute_cases (total : Nat) (bs : List UInt8) :
    (∃ value after, readAttribute total bs = .ok (value, after) ∧ after <:+ bs) ∨
      ∃ front q back, bs = front ++ q :: back ∧ Opens front q back ∧ readAttribute total bs =
        .error (.unterminated .attributeValue (total - (q :: back).length)) := by
  have skipped := skipBlank_suffix bs
  rw [readAttribute]
  split
  case h_1 => exact .inl ⟨[], [], rfl, List.nil_suffix⟩
  case h_2 b rest next =>
    rw [next] at skipped
    split
    case isFalse => exact .inl ⟨[], b :: rest, rfl, skipped⟩
    case isTrue equals =>
      subst equals
      rcases readValue_cases total (skipBlank rest) with
        ⟨value, after, read, suffix⟩ | ⟨q, back, text, quote, unclosed, read⟩
      · refine .inl ⟨value, after, read, suffix.trans ((skipBlank_suffix rest).trans ?_)⟩
        exact (List.suffix_cons _ rest).trans skipped
      · obtain ⟨before, whole⟩ := skipped
        have inner : rest = rest.takeWhile isBlankByte ++ q :: back := by
          rw [← text, skipBlank, List.takeWhile_append_dropWhile]
        refine .inr ⟨before ++ byteOf '=' :: rest.takeWhile isBlankByte, q, back, ?_, ⟨quote,
          ⟨before, _, rfl, fun _ mem => List.mem_takeWhile_imp mem⟩, unclosed⟩, ?_⟩
        · rw [← whole, List.append_assoc, List.cons_append, ← inner]
        · rw [read, text]

/-! ## Turns -/

/-- One turn of reading a tag: whether its end was met, and what is found by then. -/
def TagTail.turn (total start : Nat) (tail : TagTail) : Except MarkupError (Bool × TagTail) :=
  match skipBlank tail.rest with
  | [] => .error (.unterminated .tag start)
  | b :: rest =>
    if b = byteOf '/' then .ok (false, ⟨tail.attributes, true, rest⟩)
    else if b = byteOf '>' then .ok (true, ⟨tail.attributes, tail.selfClosing, rest⟩)
    else if isNameByte b then
      (readAttribute total (rest.dropWhile isNameByte)).map fun found =>
        let name := Text.ofBytes (b :: rest.takeWhile isNameByte)
        let value := String.ofList (decodeEntities (Text.decodeUtf8 found.1))
        (false, ⟨tail.attributes ++ [(name, value)], tail.selfClosing, found.2⟩)
    else .ok (false, ⟨tail.attributes, tail.selfClosing, rest⟩)

/-- The loop takes one turn, and goes on unless that met the end of the tag. -/
theorem readTagTail_turn (total start : Nat) (tail : TagTail) :
    readTagTail total start tail.attributes tail.selfClosing tail.rest =
      (tail.turn total start).bind fun next =>
        if next.1 then .ok next.2
        else readTagTail total start next.2.attributes next.2.selfClosing next.2.rest := by
  rw [readTagTail, TagTail.turn]
  split
  case h_1 next => rw [next]; rfl
  case h_2 b rest next =>
    rw [next]
    dsimp only
    split
    · rfl
    split
    · rfl
    split
    · split
      case h_1 e failed => rw [failed]; rfl
      case h_2 value after read => rw [read]; rfl
    · rfl

/-- What a turn can do: fail at the start of the tag or at a quote, meet the end of the tag, or take
something away. -/
inductive TagTail.Turned (total start : Nat) (tail : TagTail) :
    Except MarkupError (Bool × TagTail) → Prop
  | unended : Turned total start tail (.error (.unterminated .tag start))
  | unclosed {front back : List UInt8} {q : UInt8} (text : tail.rest = front ++ q :: back)
      (opens : Opens front q back) : Turned total start tail
        (.error (.unterminated .attributeValue (total - (q :: back).length)))
  | ended {front : List UInt8} {next : TagTail}
      (text : tail.rest = front ++ byteOf '>' :: next.rest) :
      Turned total start tail (.ok (true, next))
  | goesOn {front : List UInt8} {b : UInt8} {next : TagTail}
      (text : tail.rest = front ++ b :: next.rest) : Turned total start tail (.ok (false, next))

theorem TagTail.turned (total start : Nat) (tail : TagTail) :
    tail.Turned total start (tail.turn total start) := by
  obtain ⟨blanks, skipped⟩ := skipBlank_suffix tail.rest
  rw [TagTail.turn]
  split
  case h_1 => exact .unended
  case h_2 b rest next =>
    rw [next] at skipped
    split
    · exact .goesOn skipped.symm
    split
    case isTrue _ ends => exact .ended (ends ▸ skipped.symm)
    split
    · have named : rest = rest.takeWhile isNameByte ++ rest.dropWhile isNameByte :=
        List.takeWhile_append_dropWhile.symm
      rcases readAttribute_cases total (rest.dropWhile isNameByte) with
        ⟨value, after, read, passed, behind⟩ | ⟨front, q, back, text, opens, read⟩
      · rw [read]
        -- The last byte that was taken: of the attribute, or of its name if that is all there is.
        obtain ⟨front, last, parts⟩ : ∃ front last, b :: rest.takeWhile isNameByte ++ passed =
            front ++ [last] := ⟨_, _, (List.dropLast_append_getLast (by simp)).symm⟩
        have text : tail.rest = blanks ++ front ++ last :: after :=
          calc tail.rest = blanks ++ (b :: rest.takeWhile isNameByte ++ passed ++ after) := by
                rw [← skipped, List.append_assoc, behind, List.cons_append, ← named]
            _ = blanks ++ front ++ last :: after := by rw [parts]; simp
        exact .goesOn text
      · rw [read]
        have whole : tail.rest =
            blanks ++ b :: rest.takeWhile isNameByte ++ front ++ q :: back := by
          rw [List.append_assoc, ← text, List.append_assoc, List.cons_append, ← named, skipped]
        exact .unclosed whole (opens.append _)
    · exact .goesOn skipped.symm

/-- Every turn takes something away. -/
theorem TagTail.turn_advances {total start : Nat} {tail : TagTail} {next : Bool × TagTail}
    (turn : tail.turn total start = .ok next) :
    next.2.rest <:+ tail.rest ∧ next.2.rest.length < tail.rest.length := by
  have shorter {front rest bs : List UInt8} {b : UInt8} (text : bs = front ++ b :: rest) :
      rest <:+ bs ∧ rest.length < bs.length := by
    refine ⟨⟨front ++ [b], by simp [text]⟩, ?_⟩
    rw [text, List.length_append, List.length_cons]
    omega
  have turned := tail.turned total start
  rw [turn] at turned
  cases turned with
  | ended text => exact shorter text
  | goesOn text => exact shorter text

/-! ## The whole loop -/

/-- The loop ends behind a `>`, or it fails as one of its turns does. -/
theorem readTagTail_cases (total start : Nat) (tail : TagTail) :
    (∃ front found, tail.rest = front ++ byteOf '>' :: found.rest ∧
      readTagTail total start tail.attributes tail.selfClosing tail.rest = .ok found) ∨
    readTagTail total start tail.attributes tail.selfClosing tail.rest =
      .error (.unterminated .tag start) ∨
    ∃ front q back, tail.rest = front ++ q :: back ∧ Opens front q back ∧
      readTagTail total start tail.attributes tail.selfClosing tail.rest =
        .error (.unterminated .attributeValue (total - (q :: back).length)) := by
  induction size : tail.rest.length using Nat.strong_induction_on generalizing tail with
  | _ n ih =>
  have turned := tail.turned total start
  rw [readTagTail_turn]
  generalize outcome : tail.turn total start = result at turned
  cases turned with
  | unended => exact .inr (.inl rfl)
  | unclosed text opens => exact .inr (.inr ⟨_, _, _, text, opens, rfl⟩)
  | ended text => exact .inl ⟨_, _, text, rfl⟩
  | @goesOn front b next text =>
    rcases ih _ (size ▸ (TagTail.turn_advances outcome).2) next rfl with
      ⟨passed, found, more, read⟩ | read | ⟨passed, q, back, more, opens, read⟩
    · exact .inl ⟨front ++ b :: passed, found, by rw [text, more]; simp, read⟩
    · exact .inr (.inl read)
    · exact .inr (.inr ⟨front ++ [b] ++ passed, q, back, by rw [text, more]; simp,
        opens.append _, read⟩)

end Markup
end LiveTemplate
