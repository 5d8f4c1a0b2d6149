import LiveTemplate.Proofs.Attributes
import LiveTemplate.Proofs.Boundaries

/-!
# LiveTemplate.Proofs.Cuts

Reading by offsets. The reader goes by what is left of the bytes; here it keeps an offset instead
and takes its text out of the source in cuts, each of which has to go from one boundary between
characters to a later one. Names and values are passed byte by byte and may end inside a character,
but wherever a cut is made the offset is at a boundary again, so both readers give the same result
on every text. What is refused is refused at a place that is there: at a `<`, or at the quote that
opens a value without end.

  * `cut`                      a checked cut
  * `turnAt`, `readAt`         the reader by offsets, with checked cuts
  * `Turned`                   what one turn can do
  * `Agrees`                   one turn of both readers
  * `Placed`                   where an error is
  * `parseFragment_by_offsets` the main result
-/

namespace LiveTemplate

/-! ## Where errors are -/

/-- The offset that an error names, if it names one. -/
def MarkupError.offset? : MarkupError → Option Nat
  | .unclosedTag _ offset | .mismatchedTag _ _ offset | .unexpectedClosingTag _ offset
  | .unterminated _ offset | .missingTagName offset => some offset
  | .empty | .rootCount _ => none

namespace Markup

/-- The error names a place in the source: a value without end the quote that opens it, everything
else a `<`. -/
inductive Placed (bs : List UInt8) : MarkupError → Prop
  | tag {e : MarkupError} {front back : List UInt8} (text : bs = front ++ byteOf '<' :: back)
      (offset : e.offset? = some front.length)
      (other : ∀ offset, e ≠ .unterminated .attributeValue offset) : Placed bs e
  | value {front back : List UInt8} {q : UInt8} (text : bs = front ++ q :: back)
      (opens : Opens front q back) : Placed bs (.unterminated .attributeValue front.length)

/-! ## Reading by offsets -/

/-- Why reading by offsets stops early. -/
inductive Stop where
  /-- A cut that is not from one boundary to a later one. -/
  | badCut (first last : Nat)
  | refused (e : MarkupError)
  deriving DecidableEq, Repr

/-- The part of the source from one offset to another. Both have to be boundaries. -/
def cut (source : String) (first last : Nat) : Except Stop (List UInt8) :=
  if first ≤ last ∧ Text.Boundary source first ∧ Text.Boundary source last then
    .ok (((Text.bytes source).drop first).take (last - first))
  else .error (.badCut first last)

/-- Takes in an opening tag. -/
def Reading.enter (state : Reading) (tag : String) (offset : Nat) (tail : TagTail) : Reading :=
  if tail.selfClosing || voidTags.contains tag.toLower then
    state.add (.element tag tail.attributes [])
  else { state with stack := ⟨tag, tail.attributes, [], offset⟩ :: state.stack }

/-- One turn of reading at the offset `i`. Single bytes are looked at anywhere, but text is searched
and taken out in cuts. -/
def turnAt (source : String) (state : Reading) (i : Nat) : Except Stop (Reading × Nat) :=
  let bs := Text.bytes source
  if bs[i]? = some (byteOf '<') then do
    let here ← cut source i bs.length
    if (mark "<!--").isPrefixOf here then
      let inner ← cut source (i + 4) bs.length
      match Text.breakOn? (mark "-->") inner with
      | none => .error (.refused (.unterminated .comment i))
      | some found =>
        let content ← cut source (i + 4) (i + 4 + found.1.length)
        .ok (state.add (.comment (Text.ofBytes content)), i + 4 + found.1.length + 3)
    else if (mark "<!").isPrefixOf here then
      match Text.breakOn? (mark ">") here with
      | none => .error (.refused (.unterminated .declaration i))
      | some found => .ok (state, i + found.1.length + 1)
    else if bs[i + 1]? = some (byteOf '/') then
      let closing := readClosing (bs.drop (i + 2))
      let state ← (state.close closing.1 i).mapError .refused
      .ok (state, bs.length - closing.2.length)
    else
      let rest := bs.drop (i + 1)
      let tag := Text.ofBytes (rest.takeWhile isTagByte)
      if tag = "" then .error (.refused (.missingTagName i))
      else
        let tail ← (readTagTail bs.length i [] false (rest.dropWhile isTagByte)).mapError .refused
        .ok (state.enter tag i tail, bs.length - tail.rest.length)
  else do
    let stop := bs.length - (afterText (bs.drop i)).length
    let content ← cut source i stop
    .ok (state.add (.text (String.ofList (decodeEntities (Text.decodeUtf8 content)))), stop)

section

variable {source : String} {state : Reading} {i : Nat}

/-! ## What a turn can do -/

theorem cut_ok {first last : Nat} {text : List UInt8} (h : cut source first last = .ok text) :
    last ≤ (Text.bytes source).length ∧ text.length = last - first ∧ first ≤ last := by
  rw [cut] at h
  split at h
  case isTrue ordered =>
    cases h
    have inside := ordered.2.2.le
    refine ⟨inside, ?_, ordered.1⟩
    rw [List.length_take, List.length_drop]
    omega
  case isFalse => cases h

/-- The places of the elements that are open. -/
def Reading.offsets (state : Reading) : List Nat := state.stack.map OpenElement.offset

theorem Reading.offsets_add (state : Reading) (m : Markup) :
    (state.add m).offsets = state.offsets := by
  obtain ⟨_ | ⟨top, outer⟩, roots⟩ := state <;> rfl

theorem Reading.offsets_close {state' : Reading} {tag : String} {offset : Nat}
    (closed : state.close tag offset = .ok state') : state'.offsets ⊆ state.offsets := by
  obtain ⟨_ | ⟨top, outer⟩, roots⟩ := state
  · cases closed
  · dsimp only [Reading.close] at closed
    split at closed
    · cases closed
      rw [Reading.offsets_add]
      exact List.subset_cons_self _ _
    · cases closed

theorem Reading.offsets_enter (state : Reading) (tag : String) (offset : Nat) (tail : TagTail) :
    (state.enter tag offset tail).offsets ⊆ offset :: state.offsets := by
  rw [Reading.enter]
  split
  · rw [Reading.offsets_add]
    exact List.subset_cons_self _ _
  · exact List.Subset.refl _

/-- A turn stops at a bad cut or with an error that is placed, or it goes on at a later offset; what
it opens is placed too. -/
inductive Turned (source : String) (state : Reading) (i : Nat) : Except Stop (Reading × Nat) → Prop
  | bad {first last : Nat} : Turned source state i (.error (.badCut first last))
  | refused {e : MarkupError} (placed : Placed (Text.bytes source) e) :
      Turned source state i (.error (.refused e))
  | on {state' : Reading} {j : Nat} (later : i < j) (inside : j ≤ (Text.bytes source).length)
      (opened : ∀ offset ∈ state'.offsets, offset ∈ state.offsets ∨
        offset = i ∧ (Text.bytes source)[i]? = some (byteOf '<')) :
      Turned source state i (.ok (state', j))

theorem Turned.bind_cut {first last : Nat} {f : List UInt8 → Except Stop (Reading × Nat)}
    (next : ∀ text, cut source first last = .ok text → Turned source state i (f text)) :
    Turned source state i (cut source first last >>= f) := by
  cases outcome : cut source first last with
  | ok text => exact next text outcome
  | error stop =>
    rw [cut] at outcome
    split at outcome
    · cases outcome
    · cases outcome
      exact .bad

theorem Turned.bind_refused {α : Type} {m : Except MarkupError α}
    {f : α → Except Stop (Reading × Nat)}
    (failed : ∀ e, m = .error e → Placed (Text.bytes source) e)
    (next : ∀ a, m = .ok a → Turned source state i (f a)) :
    Turned source state i (m.mapError .refused >>= f) := by
  cases m with
  | ok a => exact next a rfl
  | error e => exact .refused (failed e rfl)

theorem eq_take_append_cons {bs : List UInt8} {b : UInt8} (here : bs[i]? = some b) :
    bs = bs.take i ++ b :: bs.drop (i + 1) ∧ (bs.take i).length = i := by
  obtain ⟨inside, same⟩ := List.getElem?_eq_some_iff.mp here
  refine ⟨?_, by rw [List.length_take]; omega⟩
  rw [← same, ← List.drop_eq_getElem_cons inside, List.take_append_drop]

theorem placed_here {bs : List UInt8} (here : bs[i]? = some (byteOf '<')) {e : MarkupError}
    (offset : e.offset? = some i) (other : ∀ offset, e ≠ .unterminated .attributeValue offset) :
    Placed bs e := by
  obtain ⟨text, length⟩ := eq_take_append_cons here
  exact .tag text (length.symm ▸ offset) other

theorem placed_of_close {bs : List UInt8} (here : bs[i]? = some (byteOf '<')) {tag : String}
    {e : MarkupError} (failed : state.close tag i = .error e) : Placed bs e := by
  rw [Reading.close] at failed
  split at failed
  · cases failed
    exact placed_here here rfl (by simp)
  · split at failed
    · cases failed
    · cases failed
      exact placed_here here rfl (by simp)

theorem placed_of_readTagTail {bs rest : List UInt8} (suffix : rest <:+ bs)
    (here : bs[i]? = some (byteOf '<')) {attributes : List (String × String)} {selfClosing : Bool}
    {e : MarkupError} (failed : readTagTail bs.length i attributes selfClosing rest = .error e) :
    Placed bs e := by
  rcases readTagTail_cases bs.length i ⟨attributes, selfClosing, rest⟩ with
    ⟨_, found, _, read⟩ | read | ⟨passed, q, back, text, opens, read⟩
  · rw [failed] at read
    cases read
  · rw [failed] at read
    cases read
    exact placed_here here rfl (by simp)
  · rw [failed] at read
    cases read
    obtain ⟨front, whole⟩ := suffix
    have parts : bs = front ++ passed ++ q :: back := by
      rw [← whole, List.append_assoc]
      exact congrArg (front ++ ·) text
    have offset : bs.length - (q :: back).length = (front ++ passed).length := by
      rw [parts, List.length_append]
      omega
    rw [offset]
    exact .value parts (opens.append front)

theorem length_of_breakOn? {mark bs : List UInt8} {parts : List UInt8 × List UInt8}
    (found : Text.breakOn? mark bs = some parts) : parts.1.length + mark.length ≤ bs.length := by
  rw [Text.breakOn?_eq_append found, List.length_append, List.length_append]
  omega

theorem turned (inside : i < (Text.bytes source).length) :
    Turned source state i (turnAt source state i) := by
  have same : ∀ offset ∈ state.offsets, offset ∈ state.offsets ∨
      offset = i ∧ (Text.bytes source)[i]? = some (byteOf '<') := fun _ mem => .inl mem
  rw [turnAt]
  dsimp only
  split
  case isTrue here =>
    refine .bind_cut fun text whole => ?_
    obtain ⟨-, length, -⟩ := cut_ok whole
    split
    · refine .bind_cut fun inner rest => ?_
      obtain ⟨-, length, order⟩ := cut_ok rest
      cases found : Text.breakOn? (mark "-->") inner with
      | none => exact .refused (placed_here here rfl (by simp))
      | some parts =>
        have room : parts.1.length + 3 ≤ inner.length := length_of_breakOn? found
        exact .bind_cut fun content _ => .on (by omega) (by omega) (by rwa [Reading.offsets_add])
    split
    · cases found : Text.breakOn? (mark ">") text with
      | none => exact .refused (placed_here here rfl (by simp))
      | some parts =>
        have room : parts.1.length + 1 ≤ text.length := length_of_breakOn? found
        exact .on (by omega) (by omega) same
    split
    case isTrue slash =>
      have beyond : i + 1 < (Text.bytes source).length :=
        (List.getElem?_eq_some_iff.mp slash).1
      have shorter := length_readClosing ((Text.bytes source).drop (i + 2))
      rw [List.length_drop] at shorter
      refine .bind_refused (fun e => placed_of_close here) fun state' closed => ?_
      refine .on (by omega) (by omega) fun offset mem => .inl ?_
      exact Reading.offsets_close closed mem
    split
    · exact .refused (placed_here here rfl (by simp))
    · have dropped := List.dropWhile_suffix isTagByte (l := (Text.bytes source).drop (i + 1))
      have suffix := dropped.trans (List.drop_suffix (i + 1) (Text.bytes source))
      refine .bind_refused (fun e => placed_of_readTagTail suffix here) fun tail read => ?_
      have shorter := (length_readTagTail read).trans dropped.length_le
      rw [List.length_drop] at shorter
      refine .on (by omega) (by omega) fun offset mem => ?_
      rcases List.mem_cons.mp (Reading.offsets_enter _ _ _ _ mem) with rfl | mem
      · exact .inr ⟨rfl, here⟩
      · exact .inl mem
  case isFalse other =>
    refine .bind_cut fun content _ => .on ?_ (by omega) (by rwa [Reading.offsets_add])
    have shorter : (afterText ((Text.bytes source).drop i)).length <
        ((Text.bytes source).drop i).length := by
      rw [List.getElem?_eq_getElem inside] at other
      rw [List.drop_eq_getElem_cons inside]
      exact length_afterText_lt _ fun less => other (congrArg some less)
    rw [List.length_drop] at shorter
    omega

theorem turnAt_advances {next : Reading × Nat} (inside : i < (Text.bytes source).length)
    (turn : turnAt source state i = .ok next) :
    i < next.2 ∧ next.2 ≤ (Text.bytes source).length := by
  have outcome : Turned source state i (turnAt source state i) := turned inside
  rw [turn] at outcome
  cases outcome with
  | on later bounded _ => exact ⟨later, bounded⟩

end

/-- Reads on from the offset `i`. -/
def readAt (source : String) (state : Reading) (i : Nat) : Except Stop (List Markup) :=
  if _inside : i < (Text.bytes source).length then
    match _turn : turnAt source state i with
    | .error stop => .error stop
    | .ok next => readAt source next.1 next.2
  else state.finish.mapError .refused
  termination_by (Text.bytes source).length - i
  decreasing_by
    have := turnAt_advances _inside _turn
    omega

/-! ## Every cut is good -/

section

variable {source : String} {state : Reading} {i : Nat}

theorem cut_eq {first last : Nat} (order : first ≤ last) (start : Text.Boundary source first)
    (stop : Text.Boundary source last) :
    cut source first last = .ok (((Text.bytes source).drop first).take (last - first)) :=
  if_pos ⟨order, start, stop⟩

theorem cut_end (start : Text.Boundary source i) :
    cut source i (Text.bytes source).length = .ok ((Text.bytes source).drop i) := by
  rw [cut_eq start.le start Text.boundary_length, ← List.length_drop, List.take_length]

/-- Both ways of reading take the same turn, and it ends at a boundary. -/
inductive Agrees (source : String) (state : Reading) (i : Nat) : Prop
  | on {state' : Reading} {j : Nat} (turn : turnAt source state i = .ok (state', j))
      (whole : Text.Boundary source j)
      (read : readFrom (Text.bytes source).length state ((Text.bytes source).drop i) =
        readFrom (Text.bytes source).length state' ((Text.bytes source).drop j)) :
      Agrees source state i
  | refused {e : MarkupError} (turn : turnAt source state i = .error (.refused e))
      (read : readFrom (Text.bytes source).length state ((Text.bytes source).drop i) = .error e) :
      Agrees source state i

theorem Agrees.rest {state' : Reading} {rest : List UInt8} (left : Text.Remainder source rest)
    (turn : turnAt source state i = .ok (state', (Text.bytes source).length - rest.length))
    (read : readFrom (Text.bytes source).length state ((Text.bytes source).drop i) =
      readFrom (Text.bytes source).length state' rest) : Agrees source state i :=
  .on turn left.boundary (read.trans (congrArg _ left.drop_eq.symm))

theorem drop_of_getElem? {bs : List UInt8} {b : UInt8} (here : bs[i]? = some b) :
    bs.drop i = b :: bs.drop (i + 1) ∧ bs.length - (b :: bs.drop (i + 1)).length = i := by
  obtain ⟨inside, rfl⟩ := List.getElem?_eq_some_iff.mp here
  refine ⟨List.drop_eq_getElem_cons inside, ?_⟩
  rw [List.length_cons, List.length_drop]
  omega

theorem slash_iff {bs : List UInt8} :
    (mark "/").isPrefixOf (bs.drop i) = true ↔ bs[i]? = some (byteOf '/') := by
  rw [← List.head?_drop, show mark "/" = [byteOf '/'] from rfl]
  cases bs.drop i with
  | nil => simp
  | cons b rest => simpa using (eq_comm : byteOf '/' = b ↔ b = byteOf '/')

theorem agrees_comment (here : (Text.bytes source)[i]? = some (byteOf '<'))
    (opened : (mark "!--").isPrefixOf ((Text.bytes source).drop (i + 1)) = true) :
    Agrees source state i := by
  obtain ⟨rest, offset⟩ := drop_of_getElem? here
  have start := (Text.boundary_of_ascii rest (by decide)).1
  have opening : (mark "<!--").isPrefixOf ((Text.bytes source).drop i) = true := by
    rw [rest]
    exact opened
  obtain ⟨inner, text⟩ := List.isPrefixOf_iff_prefix.mp opening
  have inside : Text.Boundary source (i + 4) := start.add text.symm (by decide +kernel)
  have drop : ((Text.bytes source).drop (i + 1)).drop 3 = (Text.bytes source).drop (i + 4) := by
    rw [List.drop_drop]
  cases found : Text.breakOn? (mark "-->") ((Text.bytes source).drop (i + 4)) with
  | none =>
    refine .refused (e := .unterminated .comment i) ?_ ?_
    · simp only [turnAt, if_pos here, cut_end start, cut_end inside, if_pos opening, found, bind,
        Except.bind]
    · rw [rest, readFrom, if_pos rfl, if_pos opened]
      split
      case h_1 => rw [offset]
      case h_2 same => rw [drop, found] at same; cases same
  | some parts =>
    obtain ⟨content, after⟩ := parts
    obtain ⟨stop, behind, left⟩ := Text.boundary_of_breakOn? (by decide +kernel) found
    have taken : ((Text.bytes source).drop (i + 4)).take (i + 4 + content.length - (i + 4)) =
        content := by
      rw [Nat.add_sub_cancel_left, Text.breakOn?_eq_append found, List.append_assoc,
        List.take_left]
    have turn : turnAt source state i = .ok (state.add (.comment (Text.ofBytes content)),
        i + 4 + content.length + 3) := by
      simp only [turnAt, if_pos here, cut_end start, cut_end inside, if_pos opening, found, bind,
        Except.bind, cut_eq (Nat.le_add_right _ _) inside stop, taken]
    refine .on turn behind ?_
    rw [rest, readFrom, if_pos rfl, if_pos opened]
    split
    case h_1 same => rw [drop, found] at same; cases same
    case h_2 same =>
      rw [drop, found] at same
      cases same
      exact congrArg _ left.symm

theorem agrees_declaration (here : (Text.bytes source)[i]? = some (byteOf '<'))
    (other : ¬(mark "!--").isPrefixOf ((Text.bytes source).drop (i + 1)) = true)
    (opened : (mark "!").isPrefixOf ((Text.bytes source).drop (i + 1)) = true) :
    Agrees source state i := by
  obtain ⟨rest, offset⟩ := drop_of_getElem? here
  have start := (Text.boundary_of_ascii rest (by decide)).1
  have comment : ¬(mark "<!--").isPrefixOf ((Text.bytes source).drop i) = true := by
    rw [rest]
    exact other
  have opening : (mark "<!").isPrefixOf ((Text.bytes source).drop i) = true := by
    rw [rest]
    exact opened
  -- The search may start at the `<` or behind it.
  have search : Text.breakOn? (mark ">") ((Text.bytes source).drop i) =
      (Text.breakOn? (mark ">") ((Text.bytes source).drop (i + 1))).map fun found =>
        (byteOf '<' :: found.1, found.2) := by
    have apart : byteOf '>' ∉ [byteOf '<'] := by decide
    rw [rest]
    exact Text.breakOn?_append_of_not_mem apart [] _
  cases found : Text.breakOn? (mark ">") ((Text.bytes source).drop (i + 1)) with
  | none =>
    rw [found] at search
    refine .refused (e := .unterminated .declaration i) ?_ ?_
    · simp only [turnAt, if_pos here, cut_end start, if_neg comment, if_pos opening, search, bind,
        Except.bind, Option.map_none]
    · rw [rest, readFrom, if_pos rfl, if_neg other, if_pos opened]
      split
      case h_1 => rw [offset]
      case h_2 same => rw [found] at same; cases same
  | some parts =>
    rw [found] at search
    obtain ⟨-, behind, left⟩ := Text.boundary_of_breakOn? (by decide +kernel) search
    have turn : turnAt source state i =
        .ok (state, i + (byteOf '<' :: parts.1).length + 1) := by
      simp only [turnAt, if_pos here, cut_end start, if_neg comment, if_pos opening, search, bind,
        Except.bind, Option.map_some]
    refine .on turn behind ?_
    rw [rest, readFrom, if_pos rfl, if_neg other, if_pos opened]
    split
    case h_1 same => rw [found] at same; cases same
    case h_2 same =>
      rw [found] at same
      cases same
      exact congrArg _ left.symm

theorem not_comment {bs : List UInt8} (plain : ¬(mark "!").isPrefixOf bs = true) :
    ¬(mark "!--").isPrefixOf bs = true := by
  have longer : mark "!" <+: mark "!--" := ⟨mark "--", rfl⟩
  rw [List.isPrefixOf_iff_prefix] at *
  exact fun opened => plain (longer.trans opened)

theorem not_opening {bs rest : List UInt8} (text : bs = byteOf '<' :: rest)
    (plain : ¬(mark "!").isPrefixOf rest = true) :
    ¬(mark "<!--").isPrefixOf bs = true ∧ ¬(mark "<!").isPrefixOf bs = true := by
  rw [text]
  exact ⟨not_comment plain, plain⟩

theorem isBlankByte_low {b : UInt8} (blank : isBlankByte b = true) : b < 0xC0 := by
  simp only [isBlankByte, Bool.or_eq_true, Bool.and_eq_true, decide_eq_true_eq] at blank
  rcases blank with ((⟨-, low⟩ | rfl) | rfl) | rfl
  · exact UInt8.lt_of_le_of_lt low (by decide)
  all_goals decide

theorem remainder_readClosing {bs : List UInt8} (h : Text.Remainder source bs)
    (suffix : bs <:+ Text.bytes source) : Text.Remainder source (readClosing bs).2 := by
  have tags (b : UInt8) (tag : isTagByte b = true) : b < 0xC0 :=
    UInt8.lt_trans (isNameByte_ascii (isNameByte_of_isTagByte tag)) (by decide)
  have skipped : Text.Remainder source (skipBlank (bs.dropWhile isTagByte)) :=
    (h.dropWhile tags).dropWhile fun b => isBlankByte_low
  have inside := ((skipBlank_suffix _).trans (List.dropWhile_suffix isTagByte)).trans suffix
  rw [readClosing]
  split
  case h_1 => exact Text.remainder_nil
  case h_2 b rest next =>
    rw [next] at skipped inside
    dsimp only
    split
    case isTrue ending => exact (Text.remainder_of_ascii inside (ending ▸ by decide)).2
    case isFalse => exact skipped

theorem agrees_closing (here : (Text.bytes source)[i]? = some (byteOf '<'))
    (plain : ¬(mark "!").isPrefixOf ((Text.bytes source).drop (i + 1)) = true)
    (slash : (Text.bytes source)[i + 1]? = some (byteOf '/')) : Agrees source state i := by
  obtain ⟨rest, offset⟩ := drop_of_getElem? here
  have start := (Text.boundary_of_ascii rest (by decide)).1
  obtain ⟨comment, declaration⟩ := not_opening rest plain
  have name := (Text.boundary_of_ascii (drop_of_getElem? slash).1 (by decide)).2
  have left := remainder_readClosing name.remainder (List.drop_suffix _ _)
  have read : readFrom (Text.bytes source).length state ((Text.bytes source).drop i) =
      (state.close (readClosing ((Text.bytes source).drop (i + 2))).1 i).bind fun state' =>
        readFrom (Text.bytes source).length state'
          (readClosing ((Text.bytes source).drop (i + 2))).2 := by
    have name : ((Text.bytes source).drop (i + 1)).drop 1 = (Text.bytes source).drop (i + 2) := by
      rw [List.drop_drop]
    rw [rest, readFrom, if_pos rfl, if_neg (not_comment plain), if_neg plain,
      if_pos (slash_iff.mpr slash), offset, name]
    dsimp only
    cases state.close (readClosing ((Text.bytes source).drop (i + 2))).1 i <;> rfl
  cases closed : state.close (readClosing ((Text.bytes source).drop (i + 2))).1 i with
  | error e =>
    rw [closed] at read
    refine .refused ?_ read
    simp only [turnAt, if_pos here, cut_end start, if_neg comment, if_neg declaration,
      if_pos slash, closed, bind, Except.bind, Except.mapError]
  | ok state' =>
    rw [closed] at read
    refine .rest left ?_ read
    simp only [turnAt, if_pos here, cut_end start, if_neg comment, if_neg declaration,
      if_pos slash, closed, bind, Except.bind, Except.mapError]

theorem remainder_readTagTail {total start : Nat} {attributes : List (String × String)}
    {selfClosing : Bool} {bs : List UInt8} (suffix : bs <:+ Text.bytes source) {tail : TagTail}
    (read : readTagTail total start attributes selfClosing bs = .ok tail) :
    Text.Remainder source tail.rest := by
  rcases readTagTail_cases total start ⟨attributes, selfClosing, bs⟩ with
    ⟨front, found, text, outcome⟩ | outcome | ⟨_, _, _, _, _, outcome⟩
  · rw [read] at outcome
    cases outcome
    have inside : byteOf '>' :: tail.rest <:+ Text.bytes source :=
      List.IsSuffix.trans ⟨front, text.symm⟩ suffix
    exact (Text.remainder_of_ascii inside (by decide)).2
  all_goals
    rw [read] at outcome
    cases outcome

theorem agrees_opening (here : (Text.bytes source)[i]? = some (byteOf '<'))
    (plain : ¬(mark "!").isPrefixOf ((Text.bytes source).drop (i + 1)) = true)
    (other : ¬(Text.bytes source)[i + 1]? = some (byteOf '/')) : Agrees source state i := by
  obtain ⟨rest, offset⟩ := drop_of_getElem? here
  have start := (Text.boundary_of_ascii rest (by decide)).1
  obtain ⟨comment, declaration⟩ := not_opening rest plain
  have read : readFrom (Text.bytes source).length state ((Text.bytes source).drop i) =
      if Text.ofBytes (((Text.bytes source).drop (i + 1)).takeWhile isTagByte) = "" then
        .error (.missingTagName i)
      else (readTagTail (Text.bytes source).length i [] false
          (((Text.bytes source).drop (i + 1)).dropWhile isTagByte)).bind fun tail =>
        readFrom (Text.bytes source).length (state.enter
          (Text.ofBytes (((Text.bytes source).drop (i + 1)).takeWhile isTagByte)) i tail)
          tail.rest := by
    rw [rest, readFrom, if_pos rfl, if_neg (not_comment plain), if_neg plain,
      if_neg (mt slash_iff.mp other)]
    dsimp only
    refine if_congr Iff.rfl (by rw [offset]) ?_
    split
    case h_1 failed =>
      rw [offset] at failed
      rw [failed]
      rfl
    case h_2 tail read =>
      rw [offset] at read ⊢
      rw [read, Except.bind, Reading.enter]
      split <;> rfl
  by_cases nameless : Text.ofBytes (((Text.bytes source).drop (i + 1)).takeWhile isTagByte) = ""
  · refine .refused ?_ (read.trans (if_pos nameless))
    simp only [turnAt, if_pos here, cut_end start, if_neg comment, if_neg declaration,
      if_neg other, if_pos nameless, bind, Except.bind]
  · rw [if_neg nameless] at read
    cases tail : readTagTail (Text.bytes source).length i [] false
        (((Text.bytes source).drop (i + 1)).dropWhile isTagByte) with
    | error e =>
      rw [tail] at read
      refine .refused ?_ read
      simp only [turnAt, if_pos here, cut_end start, if_neg comment, if_neg declaration,
        if_neg other, if_neg nameless, tail, bind, Except.bind, Except.mapError]
    | ok found =>
      rw [tail] at read
      have suffix := (List.dropWhile_suffix isTagByte).trans
        (List.drop_suffix (i + 1) (Text.bytes source))
      refine .rest (remainder_readTagTail suffix tail) ?_ read
      simp only [turnAt, if_pos here, cut_end start, if_neg comment, if_neg declaration,
        if_neg other, if_neg nameless, tail, bind, Except.bind, Except.mapError]

theorem stops_afterText (bs : List UInt8) : Stops (afterText bs) := by
  fun_induction afterText bs with
  | case1 => simp [Stops]
  | case2 => simp [Stops]
  | case3 _ _ _ _ _ ih => exact ih
  | case4 _ _ _ _ ih => exact ih

theorem afterText_suffix (bs : List UInt8) : afterText bs <:+ bs :=
  ⟨(passText bs).source, by rw [← after_passText, source_passText]⟩

theorem remainder_afterText {bs : List UInt8} (suffix : bs <:+ Text.bytes source) :
    Text.Remainder source (afterText bs) := by
  have inside := (afterText_suffix bs).trans suffix
  have stops := stops_afterText bs
  cases after : afterText bs with
  | nil => exact Text.remainder_nil
  | cons b rest =>
    rw [after] at inside stops
    exact (Text.remainder_of_ascii inside (stops b rfl ▸ by decide)).1

theorem agrees_text (start : Text.Boundary source i) (inside : i < (Text.bytes source).length)
    (other : ¬(Text.bytes source)[i]? = some (byteOf '<')) : Agrees source state i := by
  have left : Text.Remainder source (afterText ((Text.bytes source).drop i)) :=
    remainder_afterText (List.drop_suffix _ _)
  have shorter := length_afterText ((Text.bytes source).drop i)
  rw [List.length_drop] at shorter
  have content : cut source i
      ((Text.bytes source).length - (afterText ((Text.bytes source).drop i)).length) =
        .ok (upTo ((Text.bytes source).drop i) (afterText ((Text.bytes source).drop i))) := by
    rw [cut_eq (by omega) start left.boundary, upTo, List.length_drop, Nat.sub_right_comm]
  have turn : turnAt source state i = .ok (state.add (.text (String.ofList (decodeEntities
      (Text.decodeUtf8 (upTo ((Text.bytes source).drop i)
        (afterText ((Text.bytes source).drop i))))))),
      (Text.bytes source).length - (afterText ((Text.bytes source).drop i)).length) := by
    simp only [turnAt, if_neg other, content, bind, Except.bind]
  refine .rest left turn ?_
  have first := List.drop_eq_getElem_cons inside
  rw [List.getElem?_eq_getElem inside] at other
  rw [first, readFrom, if_neg fun less => other (congrArg some less)]

theorem agrees (start : Text.Boundary source i) (inside : i < (Text.bytes source).length) :
    Agrees source state i := by
  by_cases here : (Text.bytes source)[i]? = some (byteOf '<')
  · by_cases comment : (mark "!--").isPrefixOf ((Text.bytes source).drop (i + 1)) = true
    · exact agrees_comment here comment
    by_cases declaration : (mark "!").isPrefixOf ((Text.bytes source).drop (i + 1)) = true
    · exact agrees_declaration here comment declaration
    by_cases slash : (Text.bytes source)[i + 1]? = some (byteOf '/')
    · exact agrees_closing here declaration slash
    · exact agrees_opening here declaration slash
  -- A `<` has boundaries around it; only a text starts where the turn before it ended.
  · exact agrees_text start inside here

theorem readAt_eq (start : Text.Boundary source i) : readAt source state i =
    (readFrom (Text.bytes source).length state ((Text.bytes source).drop i)).mapError .refused := by
  fun_induction readAt source state i with
  | case1 state i inside stop turn =>
    have both : Agrees source state i := agrees start inside
    cases both with
    | on same => rw [turn] at same; cases same
    | refused same read =>
      rw [turn] at same
      cases same
      rw [read]
      rfl
  | case2 state i inside next turn ih =>
    have both : Agrees source state i := agrees start inside
    cases both with
    | on same whole read =>
      rw [turn] at same
      cases same
      rw [read]
      exact ih whole
    | refused same => rw [turn] at same; cases same
  | case3 state i outside =>
    rw [List.drop_eq_nil_of_le (Nat.le_of_not_lt outside), readFrom]

/-! ## Every error is placed -/

/-- What is open was opened at a `<`, and so the last error is placed as those of the turns are. -/
theorem readAt_placed {e : MarkupError}
    (opened : ∀ offset ∈ state.offsets, (Text.bytes source)[offset]? = some (byteOf '<'))
    (failed : readAt source state i = .error (.refused e)) : Placed (Text.bytes source) e := by
  fun_induction readAt source state i with
  | case1 state i inside stop turn =>
    have outcome : Turned source state i (turnAt source state i) := turned inside
    rw [turn] at outcome
    cases failed
    cases outcome with
    | refused placed => exact placed
  | case2 state i inside next turn ih =>
    have outcome : Turned source state i (turnAt source state i) := turned inside
    rw [turn] at outcome
    cases outcome with
    | on _ _ offsets =>
      refine ih (fun offset mem => ?_) failed
      rcases offsets offset mem with before | ⟨rfl, here⟩
      · exact opened offset before
      · exact here
  | case3 state i outside =>
    obtain ⟨_ | ⟨top, outer⟩, roots⟩ := state
    · cases failed
    · cases failed
      exact placed_here (opened top.offset List.mem_cons_self) rfl (by simp)

end

/-- Reading by offsets with checked cuts is reading, so no cut is ever bad. Every turn moves on, in
the text and among the attributes of a tag, and every error is placed. -/
theorem parseFragment_by_offsets (source : String) :
    readAt source {} 0 = (parseFragment source).mapError .refused ∧
    (∀ state i next, i < (Text.bytes source).length → turnAt source state i = .ok next →
      i < next.2 ∧ next.2 ≤ (Text.bytes source).length) ∧
    (∀ total start (tail : TagTail),
      readTagTail total start tail.attributes tail.selfClosing tail.rest =
        ((tail.turn total start).bind fun next =>
          if next.1 then .ok next.2
          else readTagTail total start next.2.attributes next.2.selfClosing next.2.rest) ∧
      ∀ next, tail.turn total start = .ok next →
        next.2.rest <:+ tail.rest ∧ next.2.rest.length < tail.rest.length) ∧
    ∀ e, parseFragment source = .error e → Placed (Text.bytes source) e := by
  have same : readAt source {} 0 = (parseFragment source).mapError .refused :=
    readAt_eq Text.boundary_zero
  refine ⟨same, fun state i next => turnAt_advances,
    fun total start tail => ⟨readTagTail_turn total start tail, fun next => tail.turn_advances⟩,
    fun e failed => ?_⟩
  rw [failed] at same
  exact readAt_placed (by simp [Reading.offsets]) same

-- The first value ends inside a no-break space, whose second byte is blank by itself; the reader
-- goes on there and still names the place of the quote.
example : parseFragment "<p a=\u00a0 b='x" = .error (.unterminated .attributeValue 10) := by
  decide +kernel

example : cut "\u00a0" 0 1 = .error (.badCut 0 1) := by decide +kernel

end Markup
end LiveTemplate
