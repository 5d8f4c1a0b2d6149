import LiveTemplate.Proofs.Spelling

/-!
# LiveTemplate.Proofs.Decoding

Decoding around the marks of expression spans. The bytes of a text may be broken, and they may
spell entities; but `$`, `{` and `}` stand for themselves, nothing else is decoded to them, and what
stands before one of them is decoded apart from what stands behind it. So a mark is found in the
decoded text where it is found in the bytes.

  * `Markup.decoded`               the text that bytes of markup stand for
  * `Markup.decoded_append_cons`   it falls apart at the characters of marks
  * `Markup.breakOn?_decoded`      the first occurrence of a mark
  * `Markup.nextSpan?_decoded`     text in which no span opens
-/

namespace LiveTemplate

/-! ## Bytes -/

namespace Text

theorem not_isContinuation {b : UInt8} (ascii : b < 0x80) : isContinuation b = false := by
  simp only [isContinuation, UInt8.lt_iff_toNat_lt, UInt8.le_iff_toNat_le, UInt8.reduceToNat,
    Bool.and_eq_false_iff, decide_eq_false_iff_not] at *
  omega

theorem not_isSecond {b : UInt8} (ascii : b < 0x80) (lead : UInt8) : isSecond lead b = false := by
  have other := not_isContinuation ascii
  unfold isSecond
  simp only [isContinuation, UInt8.lt_iff_toNat_lt, UInt8.le_iff_toNat_le, UInt8.reduceToNat] at *
  split_ifs <;> simp <;> omega

/-- An ASCII byte continues no character that was begun before it. -/
theorem decodeChar_append {b : UInt8} (ascii : b < 0x80) (lead : UInt8) (xs ys : List UInt8) :
    decodeChar lead (xs ++ b :: ys) =
      ((decodeChar lead xs).1, (decodeChar lead xs).2 ++ b :: ys) := by
  have continuation := not_isContinuation ascii
  have second := not_isSecond ascii lead
  unfold decodeChar
  split_ifs
  · rfl
  · rcases xs with _ | ⟨x, xs⟩
    · simp [continuation]
    · dsimp only [List.cons_append]
      split_ifs <;> rfl
  · rcases xs with _ | ⟨x, _ | ⟨y, xs⟩⟩
    · cases ys <;> simp [second]
    · simp only [List.cons_append, List.nil_append, continuation, Bool.false_eq_true, if_false]
      split_ifs <;> rfl
    · dsimp only [List.cons_append]
      split_ifs <;> rfl
  · rcases xs with _ | ⟨x, _ | ⟨y, _ | ⟨z, xs⟩⟩⟩
    · rcases ys with _ | ⟨_, _ | _⟩ <;> simp [second]
    · cases ys <;>
        simp only [List.cons_append, List.nil_append, continuation, Bool.false_eq_true, if_false] <;>
        split_ifs <;> rfl
    · simp only [List.cons_append, List.nil_append, continuation, Bool.false_eq_true, if_false]
      split_ifs <;> rfl
    · dsimp only [List.cons_append]
      split_ifs <;> rfl
  · rfl

theorem decodeUtf8_append_cons {b : UInt8} (ascii : b < 0x80) (xs ys : List UInt8) :
    decodeUtf8 (xs ++ b :: ys) = decodeUtf8 xs ++ Char.ofNat b.toNat :: decodeUtf8 ys := by
  fun_induction decodeUtf8 xs with
  | case1 =>
    have step : decodeChar b ys = (Char.ofNat b.toNat, ys) := by
      unfold decodeChar
      exact if_pos ascii
    rw [List.nil_append, decodeUtf8, step]
    rfl
  | case2 lead rest step ih =>
    rw [List.cons_append, decodeUtf8, decodeChar_append ascii]
    exact congrArg (step.1 :: ·) ih

/-- The first occurrence of a mark does not depend on what follows it. -/
theorem breakOn?_append_mark {α : Type} [BEq α] [LawfulBEq α] {mark body after : List α}
    (h : breakOn? mark (body ++ mark ++ after) = some (body, after)) (other : List α) :
    breakOn? mark (body ++ mark ++ other) = some (body, other) := by
  induction body with
  | nil =>
    cases mark with
    | nil => cases other <;> simp [breakOn?]
    | cons m mark => simp [breakOn?]
  | cons a body ih =>
    have front (rest : List α) : mark.isPrefixOf (a :: (body ++ mark ++ rest)) =
        mark.isPrefixOf (a :: (body ++ mark)) := by
      rw [Bool.eq_iff_iff, List.isPrefixOf_iff_prefix, List.isPrefixOf_iff_prefix]
      constructor
      · intro front
        refine List.prefix_of_prefix_length_le front ⟨rest, rfl⟩ ?_
        simp only [List.length_cons, List.length_append]
        omega
      · exact fun front => front.trans ⟨rest, rfl⟩
    rw [List.cons_append, List.cons_append, breakOn?, front] at h ⊢
    split at h
    case isTrue => cases h
    case isFalse missed =>
      obtain ⟨⟨before, behind⟩, found, same⟩ := Option.map_eq_some_iff.mp h
      cases same
      rw [if_neg missed, ih found]
      rfl

end Text

/-! ## Entities -/

namespace Markup

theorem isPrefixOf_append_cons {α : Type} [BEq α] [LawfulBEq α] {a : α} {word : List α}
    (free : a ∉ word) (xs ys : List α) :
    word.isPrefixOf (xs ++ a :: ys) = word.isPrefixOf xs := by
  induction word generalizing xs with
  | nil => simp
  | cons w word ih =>
    obtain ⟨other, free⟩ := not_or.mp (mt List.mem_cons.mpr free)
    cases xs with
    | nil => simp [List.isPrefixOf, beq_false_of_ne (Ne.symm other)]
    | cons x xs => rw [List.cons_append, List.isPrefixOf, List.isPrefixOf, ih free]

section

variable {es : List (String × Char)}

/-- No entity reaches across a character that is part of none. -/
theorem decodeFrom_append_cons (shape : ∀ e ∈ es, IsEntity e) {a : Char} (plain : a ≠ '&')
    (free : ∀ e ∈ es, a ∉ e.1.toList) (us vs : List Char) :
    decodeFrom es 0 (us ++ a :: vs) = decodeFrom es 0 us ++ a :: decodeFrom es 0 vs := by
  induction size : us.length using Nat.strong_induction_on generalizing us with
  | _ n ih =>
  cases us with
  | nil => rw [List.nil_append, decodeFrom_cons shape plain, decodeFrom, List.nil_append]
  | cons c us =>
    have same : entityInFront? es (c :: us ++ a :: vs) = entityInFront? es (c :: us) := by
      unfold entityInFront?
      exact List.find?_congr fun e mem => isPrefixOf_append_cons (free e mem) _ _
    cases found : entityInFront? es (c :: us) with
    | some e =>
      obtain ⟨mem, rest, front⟩ := entityInFront?_eq_some found
      have shorter := (shape e mem).length_lt front
      have front' : c :: us ++ a :: vs = e.1.toList ++ (rest ++ a :: vs) := by
        rw [front, List.append_assoc]
      rw [decodeFrom_of_front shape found front,
        decodeFrom_of_front shape (same.trans found) front', ih rest.length (size ▸ shorter) rest rfl,
        List.cons_append]
    | none =>
      have next := ih us.length (size ▸ Nat.lt_succ_self _) us rfl
      rw [List.cons_append] at same ⊢
      rw [decodeFrom, same, found, decodeFrom, found]
      exact congrArg (c :: ·) next

theorem mem_of_mem_decodeFrom {a : Char} (other : ∀ e ∈ es, e.2 ≠ a) {skip : Nat} {cs : List Char}
    (mem : a ∈ decodeFrom es skip cs) : a ∈ cs := by
  fun_induction decodeFrom es skip cs with
  | case1 => exact mem
  | case2 skip c rest ih => exact List.mem_cons_of_mem _ (ih mem)
  | case3 c rest e found ih =>
    rcases List.mem_cons.mp mem with same | mem
    · exact absurd same.symm (other e (List.mem_of_find?_eq_some found))
    · exact List.mem_cons_of_mem _ (ih mem)
  | case4 c rest none ih =>
    rcases List.mem_cons.mp mem with rfl | mem
    · exact List.mem_cons_self
    · exact List.mem_cons_of_mem _ (ih mem)

end

/-! ## The characters of marks -/

/-- The text that bytes of markup stand for. -/
def decoded (bs : List UInt8) : List Char := decodeEntities (Text.decodeUtf8 bs)

/-- A character of the marks that open and close spans. -/
def IsMark (a : Char) : Prop := a = '$' ∨ a = '\x7b' ∨ a = '\x7d'

theorem IsMark.ascii {a : Char} (h : IsMark a) : 0 < a.toNat ∧ a.toNat < 128 := by
  rcases h with rfl | rfl | rfl <;> decide

theorem IsMark.byte {a : Char} (h : IsMark a) :
    byteOf a < 0x80 ∧ Char.ofNat (byteOf a).toNat = a := by
  rcases h with rfl | rfl | rfl <;> decide

theorem IsMark.apart {a : Char} (h : IsMark a) :
    a ≠ '&' ∧ (∀ e ∈ entities, a ∉ e.1.toList) ∧ ∀ e ∈ entities, e.2 ≠ a := by
  rcases h with rfl | rfl | rfl <;> decide

theorem decoded_nil : decoded [] = [] := by
  rw [decoded, Text.decodeUtf8, decodeEntities_eq, decodeFrom]

/-- What stands before a mark is decoded apart from what stands behind it. -/
theorem decoded_append_cons {a : Char} (h : IsMark a) (xs ys : List UInt8) :
    decoded (xs ++ byteOf a :: ys) = decoded xs ++ a :: decoded ys := by
  obtain ⟨plain, free, _⟩ := h.apart
  simp only [decoded, decodeEntities_eq]
  rw [Text.decodeUtf8_append_cons h.byte.1, h.byte.2,
    decodeFrom_append_cons isEntity_entities plain free]

theorem decoded_cons {a : Char} (h : IsMark a) (ys : List UInt8) :
    decoded (byteOf a :: ys) = a :: decoded ys := by
  have apart := decoded_append_cons h [] ys
  rwa [List.nil_append, decoded_nil, List.nil_append] at apart

theorem decoded_marks {ms : List Char} (all : ∀ a ∈ ms, IsMark a) (ys : List UInt8) :
    decoded (ms.map byteOf ++ ys) = ms ++ decoded ys := by
  induction ms with
  | nil => rfl
  | cons m ms ih =>
    obtain ⟨first, others⟩ := List.forall_mem_cons.mp all
    rw [List.map_cons, List.cons_append, decoded_cons first, ih others, List.cons_append]

theorem not_mem_decoded {a : Char} (h : IsMark a) {bs : List UInt8} (free : byteOf a ∉ bs) :
    a ∉ decoded bs := by
  intro mem
  rw [decoded, decodeEntities_eq] at mem
  have held := mem_of_mem_decodeFrom h.apart.2.2 mem
  have ascii : ∀ c ∈ [a], 0 < c.toNat ∧ c.toNat < 128 := by
    intro c mem
    rw [List.mem_singleton.mp mem]
    exact h.ascii
  have inside := Text.infix_of_decodeUtf8 ascii (List.singleton_infix_iff a _ |>.mpr held)
  exact free ((List.singleton_infix_iff _ _).mp inside)

/-- Marks stand in front of the decoded text where they stand in front of the bytes. -/
theorem isPrefixOf_decoded {ms : List Char} (all : ∀ a ∈ ms, IsMark a) (bs : List UInt8) :
    ms.isPrefixOf (decoded bs) = (ms.map byteOf).isPrefixOf bs := by
  rw [Bool.eq_iff_iff, List.isPrefixOf_iff_prefix, List.isPrefixOf_iff_prefix]
  constructor
  · intro front
    rw [decoded, decodeEntities_eq] at front
    refine Text.prefix_of_decodeUtf8 (fun c mem => (all c mem).ascii) (prefix_of_decodeFrom ?_ front)
    exact fun e mem held => (all e.2 held).apart.2.2 e mem rfl
  · rintro ⟨ys, rfl⟩
    rw [decoded_marks all]
    exact List.prefix_append _ _

/-! ## Searching -/

/-- Bytes without marks. -/
def Unmarked (bs : List UInt8) : Prop := ∀ a, IsMark a → byteOf a ∉ bs

/-- Every text has no marks, or a first one. -/
theorem mark_induction {P : List UInt8 → Prop} (unmarked : ∀ xs, Unmarked xs → P xs)
    (marked : ∀ xs a ys, Unmarked xs → IsMark a → P ys → P (xs ++ byteOf a :: ys))
    (bs : List UInt8) : P bs := by
  have first (bs : List UInt8) : Unmarked bs ∨
      ∃ xs a ys, Unmarked xs ∧ IsMark a ∧ bs = xs ++ byteOf a :: ys := by
    induction bs with
    | nil => exact .inl fun _ _ => List.not_mem_nil
    | cons b bs ih =>
      by_cases here : ∃ a, IsMark a ∧ b = byteOf a
      · obtain ⟨a, mark, rfl⟩ := here
        exact .inr ⟨[], a, bs, fun _ _ => List.not_mem_nil, mark, rfl⟩
      · have plain (xs : List UInt8) (unmarked : Unmarked xs) : Unmarked (b :: xs) := by
          intro a mark mem
          rcases List.mem_cons.mp mem with same | mem
          · exact here ⟨a, mark, same.symm⟩
          · exact unmarked a mark mem
        rcases ih with unmarked | ⟨xs, a, ys, unmarked, mark, rfl⟩
        · exact .inl (plain bs unmarked)
        · exact .inr ⟨b :: xs, a, ys, plain xs unmarked, mark, rfl⟩
  induction size : bs.length using Nat.strong_induction_on generalizing bs with
  | _ n ih =>
    rcases first bs with none | ⟨xs, a, ys, none, mark, rfl⟩
    · exact unmarked bs none
    · refine marked xs a ys none mark (ih ys.length ?_ ys rfl)
      rw [← size, List.length_append, List.length_cons]
      omega

/-- The first occurrence of a mark in the decoded text is the one in the bytes. -/
theorem breakOn?_decoded {m : Char} {ms : List Char} (all : ∀ a ∈ m :: ms, IsMark a)
    (bs : List UInt8) : Text.breakOn? (m :: ms) (decoded bs) =
      (Text.breakOn? ((m :: ms).map byteOf) bs).map fun found =>
        (decoded found.1, decoded found.2) := by
  have mark := all m List.mem_cons_self
  induction bs using mark_induction with
  | unmarked xs unmarked =>
    have chars := Text.breakOn?_append_of_not_mem (not_mem_decoded mark (unmarked m mark)) ms []
    have bytes := Text.breakOn?_append_of_not_mem (unmarked m mark) (ms.map byteOf) []
    rw [List.append_nil] at chars bytes
    rw [chars, List.map_cons, bytes]
    rfl
  | marked xs a ys unmarked here ih =>
    rw [decoded_append_cons here, List.map_cons,
      Text.breakOn?_append_of_not_mem (not_mem_decoded mark (unmarked m mark)),
      Text.breakOn?_append_of_not_mem (unmarked m mark), ← List.map_cons, Option.map_map,
      Text.breakOn?, Text.breakOn?, ← isPrefixOf_decoded all, decoded_cons here]
    split
    case isTrue front =>
      rw [← decoded_cons here, isPrefixOf_decoded all] at front
      obtain ⟨zs, same⟩ := List.isPrefixOf_iff_prefix.mp front
      have split : a :: decoded ys = m :: ms ++ decoded zs := by
        rw [← decoded_cons here, ← same, decoded_marks all]
      simp [split, ← same]
    case isFalse =>
      rw [ih, Option.map_map, Option.map_map, Option.map_map]
      congr 1
      funext found
      simp [decoded_append_cons here]

/-! ## Text in which no span opens -/

theorem isMark_opening (kind : SpanMark) : ∀ a ∈ kind.opening.toList, IsMark a := by
  cases kind <;> simp [SpanMark.opening, IsMark]

theorem isMark_closing (kind : SpanMark) : ∀ a ∈ kind.closing.toList, IsMark a := by
  cases kind <;> simp [SpanMark.closing, IsMark]

theorem nextSpan?_opening (kind : SpanMark) (cs : List Char) :
    nextSpan? (kind.opening.toList ++ cs) = some ([], kind, cs) := by
  cases kind <;> rfl

theorem nextSpan?_cons {c : Char} {cs : List Char}
    (closed : ∀ kind : SpanMark, ¬kind.opening.toList <+: c :: cs) :
    nextSpan? (c :: cs) = (nextSpan? cs).map fun found => (c :: found.1, found.2) := by
  rw [nextSpan?]
  · rintro rest rfl rfl
    exact closed .dollar ⟨rest, rfl⟩
  · rintro rest rfl rfl
    exact closed .braces ⟨rest, rfl⟩

theorem nextSpan?_append_of_not_mem {xs : List Char} (dollar : '$' ∉ xs) (brace : '\x7b' ∉ xs)
    (cs : List Char) :
    nextSpan? (xs ++ cs) = (nextSpan? cs).map fun found => (xs ++ found.1, found.2) := by
  induction xs with
  | nil => simp
  | cons x xs ih =>
    obtain ⟨first, dollar⟩ := not_or.mp (mt List.mem_cons.mpr dollar)
    obtain ⟨first', brace⟩ := not_or.mp (mt List.mem_cons.mpr brace)
    rw [List.cons_append, nextSpan?_cons, ih dollar brace, Option.map_map]
    · rfl
    · rintro ⟨⟩ front
      · exact first (List.cons_prefix_cons.mp front).1
      · exact first' (List.cons_prefix_cons.mp front).1

/-- No span opens in `bs`, also not with what follows it. -/
def Unopened (tail : List UInt8) : List UInt8 → Prop
  | [] => True
  | b :: bs => (∀ kind : SpanMark, ¬mark kind.opening <+: b :: (bs ++ tail)) ∧ Unopened tail bs

theorem Unopened.of_append {tail : List UInt8} {xs ys : List UInt8}
    (h : Unopened tail (xs ++ ys)) : Unopened tail ys := by
  induction xs with
  | nil => exact h
  | cons x xs ih => exact ih h.2

theorem Unopened.take {tail after : List UInt8} {bs : List UInt8}
    (h : Unopened (tail ++ after) bs) : Unopened tail bs := by
  induction bs with
  | nil => trivial
  | cons b bs ih =>
    refine ⟨fun kind front => h.1 kind (front.trans ?_), ih h.2⟩
    rw [← List.append_assoc]
    exact List.prefix_append (b :: (bs ++ tail)) after

/-- Decoding keeps apart what stands before these bytes: there are none, or a mark is in front. -/
def Parted (bs : List UInt8) : Prop := bs = [] ∨ ∃ a rest, IsMark a ∧ bs = byteOf a :: rest

theorem Parted.decoded_append {tail : List UInt8} (h : Parted tail) (bs : List UInt8) :
    decoded (bs ++ tail) = decoded bs ++ decoded tail := by
  rcases h with rfl | ⟨a, rest, here, rfl⟩
  · rw [decoded_nil, List.append_nil, List.append_nil]
  · rw [decoded_append_cons here, decoded_cons here]

theorem nextSpan?_decoded {tail : List UInt8} (parted : Parted tail) {bs : List UInt8}
    (unopened : Unopened tail bs) :
    nextSpan? (decoded bs ++ decoded tail) =
      (nextSpan? (decoded tail)).map fun found => (decoded bs ++ found.1, found.2) := by
  have plain {xs : List UInt8} (unmarked : Unmarked xs) (cs : List Char) :
      nextSpan? (decoded xs ++ cs) =
        (nextSpan? cs).map fun found => (decoded xs ++ found.1, found.2) := by
    have dollar : IsMark '$' := by simp [IsMark]
    have brace : IsMark '\x7b' := by simp [IsMark]
    exact nextSpan?_append_of_not_mem (not_mem_decoded dollar (unmarked _ dollar))
      (not_mem_decoded brace (unmarked _ brace)) cs
  induction bs using mark_induction with
  | unmarked xs unmarked => exact plain unmarked _
  | marked xs a ys unmarked here ih =>
    obtain ⟨closed, later⟩ := unopened.of_append
    have front (kind : SpanMark) : ¬kind.opening.toList <+: a :: (decoded ys ++ decoded tail) := by
      rw [← parted.decoded_append, ← decoded_cons here, ← List.isPrefixOf_iff_prefix,
        isPrefixOf_decoded (isMark_opening kind), List.isPrefixOf_iff_prefix]
      exact closed kind
    rw [decoded_append_cons here, List.append_assoc, List.cons_append, plain unmarked,
      nextSpan?_cons front, ih later, Option.map_map, Option.map_map]
    congr 1
    funext found
    simp

end Markup
end LiveTemplate
