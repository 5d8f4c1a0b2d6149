import LiveTemplate.Proofs.Passages

/-!
# LiveTemplate.Proofs.Extraction

A text and its spans. Splitting a text takes it apart exactly: the literals and the spans with their
marks make up the text again, no span opens inside of a literal, and a span ends where its closing
mark first comes. There is only one way to take a text apart so, and splitting fails only if it
comes to a span that nothing closes.

  * `Clear`                    no span opens inside of a text
  * `SpanMark.Closes`          a body right behind which its span ends, and no earlier
  * `Decomposition.Exact`      a text taken apart as it should be
  * `Unfinished`               a text with a span that is not closed
  * `splitText_decomposes`     the main result
-/

namespace LiveTemplate

/-! ## First occurrences -/

namespace Text

variable {α : Type} [BEq α] [LawfulBEq α] {mark as before after : List α}

/-- The first occurrence is the one with no other to the left of it. -/
theorem breakOn?_iff_first (solid : mark ≠ []) : breakOn? mark as = some (before, after) ↔
    as = before ++ mark ++ after ∧ ∀ n < before.length, ¬mark <+: as.drop n := by
  induction as generalizing before with
  | nil =>
    constructor
    · intro found
      have whole := (List.append_eq_nil_iff.mp (breakOn?_eq_append found).symm).1
      exact absurd (List.append_eq_nil_iff.mp whole).2 solid
    · rintro ⟨whole, -⟩
      exact absurd (List.append_eq_nil_iff.mp (List.append_eq_nil_iff.mp whole.symm).1).2 solid
  | cons a as ih =>
    rw [breakOn?]
    split
    case isTrue here =>
      have here := List.isPrefixOf_iff_prefix.mp here
      constructor
      · rintro ⟨⟩
        exact ⟨List.prefix_append_drop here, fun n lt => absurd lt (Nat.not_lt_zero n)⟩
      · rintro ⟨whole, first⟩
        cases before with
        | cons b before => exact absurd here (first 0 (Nat.zero_lt_succ _))
        | nil => rw [whole, List.nil_append, List.drop_left]
    case isFalse missed =>
      have missed : ¬mark <+: a :: as := fun here => missed (List.isPrefixOf_iff_prefix.mpr here)
      constructor
      · intro found
        obtain ⟨⟨front, back⟩, found, same⟩ := Option.map_eq_some_iff.mp found
        cases same
        obtain ⟨whole, first⟩ := ih.mp found
        refine ⟨by rw [whole]; rfl, fun n lt => ?_⟩
        cases n with
        | zero => exact missed
        | succ n => exact first n (Nat.lt_of_succ_lt_succ lt)
      · rintro ⟨whole, first⟩
        cases before with
        | nil => exact absurd ⟨after, whole.symm⟩ missed
        | cons b before =>
          obtain ⟨rfl, rest⟩ := List.cons_eq_cons.mp whole
          have found := ih.mpr ⟨rest, fun n lt => first (n + 1) (Nat.succ_lt_succ lt)⟩
          rw [found]
          rfl

theorem breakOn?_eq_none_iff (solid : mark ≠ []) : breakOn? mark as = none ↔ ¬mark <:+: as := by
  induction as with
  | nil =>
    rw [breakOn?, if_neg (by simpa using solid), List.infix_nil]
    exact ⟨fun _ => solid, fun _ => rfl⟩
  | cons a as ih =>
    rw [breakOn?, List.infix_cons_iff, not_or, ← ih]
    split
    case isTrue here =>
      exact ⟨fun none => (by cases none), fun none => absurd (List.isPrefixOf_iff_prefix.mp here) none.1⟩
    case isFalse missed =>
      rw [Option.map_eq_none_iff]
      exact ⟨fun none => ⟨fun here => missed (List.isPrefixOf_iff_prefix.mpr here), none⟩, And.right⟩

end Text

/-! ## Where spans open -/

/-- No span opens inside of `front`, also not together with what follows. -/
def Clear (front back : List Char) : Prop :=
  ∀ n < front.length, ∀ kind : SpanMark, ¬kind.opening.toList <+: (front ++ back).drop n

theorem clear_nil (back : List Char) : Clear [] back :=
  fun n lt => absurd lt (Nat.not_lt_zero n)

theorem clear_cons {c : Char} {front back : List Char} : Clear (c :: front) back ↔
    (∀ kind : SpanMark, ¬kind.opening.toList <+: c :: (front ++ back)) ∧ Clear front back := by
  constructor
  · intro clear
    exact ⟨clear 0 (Nat.zero_lt_succ _), fun n lt => clear (n + 1) (Nat.succ_lt_succ lt)⟩
  · rintro ⟨here, clear⟩ n lt
    cases n with
    | zero => exact here
    | succ n => exact clear n (Nat.lt_of_succ_lt_succ lt)

theorem Clear.nextSpan?_append {front back : List Char} (clear : Clear front back) :
    nextSpan? (front ++ back) = (nextSpan? back).map fun found => (front ++ found.1, found.2) := by
  induction front with
  | nil => simp
  | cons c front ih =>
    obtain ⟨here, clear⟩ := clear_cons.mp clear
    rw [List.cons_append, Markup.nextSpan?_cons here, ih clear, Option.map_map]
    rfl

/-- The first span opens where none opens to the left of it. -/
theorem nextSpan?_iff_clear {cs before after : List Char} {kind : SpanMark} :
    nextSpan? cs = some (before, kind, after) ↔
      cs = before ++ (kind.opening.toList ++ after) ∧
        Clear before (kind.opening.toList ++ after) := by
  constructor
  · intro found
    induction cs generalizing before with
    | nil => cases found
    | cons c cs ih =>
      by_cases opens : ∃ kind : SpanMark, kind.opening.toList <+: c :: cs
      · obtain ⟨kind', rest, whole⟩ := opens
        rw [← whole, Markup.nextSpan?_opening] at found
        cases found
        exact ⟨whole.symm, clear_nil _⟩
      · have shut : ∀ kind : SpanMark, ¬kind.opening.toList <+: c :: cs := fun kind here =>
          opens ⟨kind, here⟩
        rw [Markup.nextSpan?_cons shut] at found
        obtain ⟨⟨front, kind', back⟩, later, same⟩ := Option.map_eq_some_iff.mp found
        cases same
        obtain ⟨whole, clear⟩ := ih later
        exact ⟨by rw [whole]; rfl, clear_cons.mpr ⟨whole ▸ shut, clear⟩⟩
  · rintro ⟨rfl, clear⟩
    rw [clear.nextSpan?_append, Markup.nextSpan?_opening, Option.map_some, List.append_nil]

theorem nextSpan?_eq_none_iff {cs : List Char} : nextSpan? cs = none ↔ Clear cs [] := by
  constructor
  · intro none
    induction cs with
    | nil => exact clear_nil []
    | cons c cs ih =>
      have shut (kind : SpanMark) : ¬kind.opening.toList <+: c :: cs := by
        rintro ⟨rest, whole⟩
        rw [← whole, Markup.nextSpan?_opening] at none
        cases none
      rw [Markup.nextSpan?_cons shut, Option.map_eq_none_iff] at none
      exact clear_cons.mpr ⟨(List.append_nil cs).symm ▸ shut, ih none⟩
  · intro clear
    rw [← List.append_nil cs, clear.nextSpan?_append]
    rfl

/-! ## Where they close -/

namespace SpanMark

/-- The closing mark is not found in the body, nor does it start with the body's last brace. -/
def Closes (kind : SpanMark) (body : List Char) : Prop :=
  ¬kind.closing.toList <:+: body ∧ (kind = .braces → ¬['\x7d'] <:+ body)

theorem closing_ne_nil (kind : SpanMark) : kind.closing.toList ≠ [] := by
  cases kind <;> simp [closing]

theorem breakOn?_closing_iff {kind : SpanMark} {cs body rest : List Char} :
    Text.breakOn? kind.closing.toList cs = some (body, rest) ↔
      cs = body ++ kind.closing.toList ++ rest ∧ kind.Closes body := by
  rw [Text.breakOn?_iff_first kind.closing_ne_nil]
  refine and_congr_right ?_
  rintro rfl
  constructor
  · intro first
    refine ⟨?_, ?_⟩
    · rintro ⟨front, back, rfl⟩
      refine first front.length ?_ ?_
      · have := List.length_pos_iff.mpr kind.closing_ne_nil
        simp only [List.length_append]
        omega
      · simp only [List.append_assoc, List.drop_left]
        exact List.prefix_append _ _
    · rintro rfl ⟨front, rfl⟩
      refine first front.length (by simp) ?_
      simp only [List.append_assoc, List.drop_left]
      exact ⟨['\x7d'] ++ rest, rfl⟩
  · rintro ⟨free, ends⟩ n lt here
    -- The body from there on starts with the mark, or is the first half of two braces.
    obtain ⟨c, back, split⟩ := List.exists_cons_of_ne_nil (List.ne_nil_of_length_pos
      (show 0 < (body.drop n).length by rw [List.length_drop]; omega))
    have whole : body = body.take n ++ c :: back := by rw [← split, List.take_append_drop]
    rw [List.append_assoc, List.drop_append_of_le_length (Nat.le_of_lt lt), split] at here
    cases kind with
    | dollar =>
      obtain ⟨rfl, -⟩ := List.cons_prefix_cons.mp (show ['\x7d'] <+: c :: _ from here)
      exact free ⟨body.take n, back, by rw [List.append_assoc]; exact whole.symm⟩
    | braces =>
      obtain ⟨rfl, next⟩ := List.cons_prefix_cons.mp (show ['\x7d', '\x7d'] <+: c :: _ from here)
      cases back with
      | nil => exact ends rfl ⟨body.take n, whole.symm⟩
      | cons d back =>
        obtain ⟨rfl, -⟩ := List.cons_prefix_cons.mp next
        exact free ⟨body.take n, back, by rw [List.append_assoc]; exact whole.symm⟩

end SpanMark

/-! ## Texts taken apart -/

/-- Where the first span opens and where it closes is settled, then where the next one does. -/
theorem Scans.unique {cs first first' : List Char}
    {spans spans' : List (SpanMark × List Char × List Char)} (h : Scans cs first spans)
    (h' : Scans cs first' spans') : first = first' ∧ spans = spans' := by
  induction h generalizing first' spans' with
  | done next =>
    cases h' with
    | done => exact ⟨rfl, rfl⟩
    | span next' => rw [next] at next'; cases next'
  | span next close _ ih =>
    cases h' with
    | done next' => rw [next] at next'; cases next'
    | span next' close' more' =>
      rw [next] at next'
      cases next'
      rw [close] at close'
      cases close'
      obtain ⟨rfl, rfl⟩ := ih more'
      exact ⟨rfl, rfl⟩

/-- A span with the literal that follows it. -/
structure Piece where
  kind : SpanMark
  body : List Char
  literal : List Char
  deriving DecidableEq

/-- The span as it is written. -/
def Piece.source (p : Piece) : List Char :=
  p.kind.opening.toList ++ p.body ++ p.kind.closing.toList

/-- Spans and literals in turns. -/
def Piece.joined (pieces : List Piece) : List Char :=
  pieces.flatMap fun p => p.source ++ p.literal

theorem Piece.joined_cons (p : Piece) (pieces : List Piece) : joined (p :: pieces) =
    p.kind.opening.toList ++
      (p.body ++ p.kind.closing.toList ++ (p.literal ++ joined pieces)) := by
  simp only [joined, source, List.flatMap_cons, List.append_assoc]

/-- A literal, then spans with the literals that follow them. -/
structure Decomposition where
  first : List Char
  pieces : List Piece
  deriving DecidableEq

namespace Decomposition

/-- There is one more than there are spans. -/
def literals (d : Decomposition) : List (List Char) := d.first :: d.pieces.map Piece.literal

def bodies (d : Decomposition) : List (List Char) := d.pieces.map Piece.body

def split (d : Decomposition) : Split := ⟨d.first, d.pieces.map fun p => (p.body, p.literal)⟩

/-- The literals and the spans make up the text, no span opens inside of a literal, and no body
holds the mark that closes it. -/
structure Fits (text : List Char) (d : Decomposition) : Prop where
  whole : d.first ++ Piece.joined d.pieces = text
  start : Clear d.first (Piece.joined d.pieces)
  between : ∀ front p back, d.pieces = front ++ p :: back → Clear p.literal (Piece.joined back)
  free : ∀ p ∈ d.pieces, ¬p.kind.closing.toList <:+: p.body

/-- Moreover no body between two braces ends with a brace, which would be the first of three. -/
structure Exact (text : List Char) (d : Decomposition) : Prop extends Fits text d where
  ends : ∀ p ∈ d.pieces, p.kind = .braces → ¬['\x7d'] <:+ p.body

theorem exact_nil_iff {text first : List Char} :
    Exact text ⟨first, []⟩ ↔ first = text ∧ Clear first [] := by
  constructor
  · intro exact
    exact ⟨(List.append_nil first).symm.trans exact.whole, exact.start⟩
  · rintro ⟨rfl, clear⟩
    refine ⟨⟨List.append_nil first, clear, fun front p back same => ?_, fun p mem => ?_⟩,
      fun p mem => ?_⟩
    · cases List.append_ne_nil_of_right_ne_nil front (List.cons_ne_nil p back) same.symm
    · cases mem
    · cases mem

theorem exact_cons_iff {text first : List Char} {p : Piece} {pieces : List Piece} :
    Exact text ⟨first, p :: pieces⟩ ↔ ∃ rest,
      text = first ++ (p.kind.opening.toList ++ (p.body ++ p.kind.closing.toList ++ rest)) ∧
        Clear first (p.kind.opening.toList ++ (p.body ++ p.kind.closing.toList ++ rest)) ∧
        p.kind.Closes p.body ∧ Exact rest ⟨p.literal, pieces⟩ := by
  constructor
  · rintro ⟨⟨whole, start, between, free⟩, ends⟩
    rw [Piece.joined_cons] at whole start
    refine ⟨_, whole.symm, start, ⟨free p List.mem_cons_self, ends p List.mem_cons_self⟩,
      ⟨rfl, between [] p pieces rfl, fun front q back same => ?_,
        fun q mem => free q (List.mem_cons_of_mem p mem)⟩,
      fun q mem => ends q (List.mem_cons_of_mem p mem)⟩
    exact between (p :: front) q back (congrArg (p :: ·) same)
  · rintro ⟨rest, rfl, start, ⟨free, ends⟩, ⟨rfl, next, between, frees⟩, all⟩
    rw [← Piece.joined_cons p pieces] at start
    refine ⟨⟨congrArg (first ++ ·) (Piece.joined_cons p pieces), start, ?_, ?_⟩, ?_⟩
    · rintro (_ | ⟨f, front⟩) q back same
      · obtain ⟨rfl, rfl⟩ := List.cons_eq_cons.mp same
        exact next
      · exact between front q back (List.cons_eq_cons.mp same).2
    · rintro q (_ | ⟨_, mem⟩)
      · exact free
      · exact frees q mem
    · rintro q (_ | ⟨_, mem⟩)
      · exact ends
      · exact all q mem

/-- The splitter goes through a text as it is taken apart. -/
theorem Exact.scans {text : List Char} : ∀ {pieces : List Piece} {first : List Char},
    Exact text ⟨first, pieces⟩ → Scans text first (pieces.map fun p => (p.kind, p.body, p.literal))
  | [], first, exact => by
    obtain ⟨rfl, clear⟩ := exact_nil_iff.mp exact
    exact .done (nextSpan?_eq_none_iff.mpr clear)
  | p :: pieces, first, exact => by
    obtain ⟨rest, rfl, clear, closes, more⟩ := exact_cons_iff.mp exact
    exact .span (nextSpan?_iff_clear.mpr ⟨rfl, clear⟩)
      (SpanMark.breakOn?_closing_iff.mpr ⟨rfl, closes⟩) more.scans

theorem Exact.splitSpans_eq {text : List Char} {d : Decomposition} (exact : d.Exact text) :
    splitSpans text = .ok d.split := by
  rw [exact.scans.splitSpans_eq, List.map_map]
  rfl

theorem Exact.unique {text : List Char} {d d' : Decomposition} (exact : d.Exact text)
    (exact' : d'.Exact text) : d = d' := by
  obtain ⟨first, pieces⟩ := d
  obtain ⟨first', pieces'⟩ := d'
  obtain ⟨rfl, same⟩ := exact.scans.unique exact'.scans
  have same : pieces = pieces' := List.map_injective_iff.mpr
    (fun p q eq => by obtain ⟨⟩ := p; obtain ⟨⟩ := q; cases eq; rfl) same
  rw [same]

/-- Without the last condition a text can be taken apart in two ways. -/
theorem fits_two_ways :
    Fits "\x7b\x7ba\x7d\x7d\x7d".toList ⟨[], [⟨.braces, ['a'], ['\x7d']⟩]⟩ ∧
      Fits "\x7b\x7ba\x7d\x7d\x7d".toList ⟨[], [⟨.braces, ['a', '\x7d'], []⟩]⟩ ∧
      (⟨[], [⟨.braces, ['a'], ['\x7d']⟩]⟩ : Decomposition) ≠
        ⟨[], [⟨.braces, ['a', '\x7d'], []⟩]⟩ := by
  have only {p q : Piece} {front back : List Piece} (same : [p] = front ++ q :: back) :
      q = p ∧ back = [] := by
    cases front with
    | nil => cases same; exact ⟨rfl, rfl⟩
    | cons f front =>
      cases List.append_ne_nil_of_right_ne_nil front (List.cons_ne_nil q back)
        (List.cons_eq_cons.mp same).2.symm
  refine ⟨⟨rfl, clear_nil _, fun front q back same => ?_, fun q mem => ?_⟩,
    ⟨rfl, clear_nil _, fun front q back same => ?_, fun q mem => ?_⟩, by decide⟩
  · obtain ⟨rfl, rfl⟩ := only same
    refine clear_cons.mpr ⟨?_, clear_nil _⟩
    rintro ⟨⟩ <;> decide
  · rw [List.mem_singleton.mp mem]
    decide
  · obtain ⟨rfl, rfl⟩ := only same
    exact clear_nil _
  · rw [List.mem_singleton.mp mem]
    decide

end Decomposition

/-! ## Texts with a span that is not closed -/

/-- What is left of a text behind some of its spans, each of them the leftmost of what was left
before and read up to its first closing mark. -/
inductive Remains (text : List Char) : List Char → Prop
  | all : Remains text text
  | behind {literal body rest : List Char} {kind : SpanMark}
      (before : Remains text
        (literal ++ (kind.opening.toList ++ (body ++ kind.closing.toList ++ rest))))
      (clear : Clear literal (kind.opening.toList ++ (body ++ kind.closing.toList ++ rest)))
      (closes : kind.Closes body) : Remains text rest

/-- The leftmost span of what is left opens with this mark, and nothing closes it. -/
def Unfinished (text : List Char) (kind : SpanMark) : Prop :=
  ∃ literal after, Remains text (literal ++ (kind.opening.toList ++ after)) ∧
    Clear literal (kind.opening.toList ++ after) ∧ ¬kind.closing.toList <:+: after

theorem Remains.trans {text middle rest : List Char} (h : Remains text middle)
    (h' : Remains middle rest) : Remains text rest := by
  induction h' with
  | all => exact h
  | behind _ clear closes ih => exact .behind ih clear closes

/-! ## Splitting -/

theorem splitSpans_unclosed {cs before after : List Char} {kind : SpanMark}
    (next : nextSpan? cs = some (before, kind, after))
    (close : Text.breakOn? kind.closing.toList after = none) : splitSpans cs = .error kind := by
  rw [splitSpans]
  split
  case h_1 found => rw [next] at found; cases found
  case h_2 found =>
    rw [next] at found
    cases found
    split
    case h_1 => rfl
    case h_2 closed => rw [close] at closed; cases closed

theorem splitSpans_span {cs before after body rest : List Char} {kind : SpanMark}
    (next : nextSpan? cs = some (before, kind, after))
    (close : Text.breakOn? kind.closing.toList after = some (body, rest)) : splitSpans cs =
      (splitSpans rest).map fun split => ⟨before, (body, split.first) :: split.rest⟩ := by
  rw [splitSpans]
  split
  case h_1 found => rw [next] at found; cases found
  case h_2 found =>
    rw [next] at found
    cases found
    split
    case h_1 open' => rw [close] at open'; cases open'
    case h_2 closed =>
      rw [close] at closed
      cases closed
      cases splitSpans rest <;> rfl

theorem Remains.splitSpans_error {text rest : List Char} (h : Remains text rest) {kind : SpanMark}
    (failed : splitSpans rest = .error kind) : splitSpans text = .error kind := by
  induction h with
  | all => exact failed
  | behind before clear closes ih =>
    refine ih ?_
    rw [splitSpans_span (nextSpan?_iff_clear.mpr ⟨rfl, clear⟩)
      (SpanMark.breakOn?_closing_iff.mpr ⟨rfl, closes⟩), failed]
    rfl

theorem Unfinished.splitSpans_error {text : List Char} {kind : SpanMark} (h : Unfinished text kind) :
    splitSpans text = .error kind := by
  obtain ⟨literal, after, remains, clear, unclosed⟩ := h
  exact remains.splitSpans_error (splitSpans_unclosed (nextSpan?_iff_clear.mpr ⟨rfl, clear⟩)
    ((Text.breakOn?_eq_none_iff kind.closing_ne_nil).mpr unclosed))

/-- One of the two always holds. -/
theorem exact_or_unfinished (text : List Char) :
    (∃ d : Decomposition, d.Exact text) ∨ ∃ kind, Unfinished text kind := by
  cases next : nextSpan? text with
  | none =>
    exact .inl ⟨⟨text, []⟩, Decomposition.exact_nil_iff.mpr ⟨rfl, nextSpan?_eq_none_iff.mp next⟩⟩
  | some found =>
    obtain ⟨before, kind, after⟩ := found
    have opened := length_nextSpan? next
    obtain ⟨whole, clear⟩ := nextSpan?_iff_clear.mp next
    cases close : Text.breakOn? kind.closing.toList after with
    | none =>
      refine .inr ⟨kind, before, after, whole ▸ .all, clear, ?_⟩
      exact (Text.breakOn?_eq_none_iff kind.closing_ne_nil).mp close
    | some found =>
      obtain ⟨body, rest⟩ := found
      have closed := Text.length_breakOn? close
      obtain ⟨rfl, closes⟩ := SpanMark.breakOn?_closing_iff.mp close
      have passed : Remains text rest := .behind (whole ▸ .all) clear closes
      rcases exact_or_unfinished rest with ⟨⟨first, pieces⟩, exact⟩ | ⟨kind', literal, after, open'⟩
      · exact .inl ⟨⟨before, ⟨kind, body, first⟩ :: pieces⟩,
          Decomposition.exact_cons_iff.mpr ⟨rest, whole, clear, closes, exact⟩⟩
      · exact .inr ⟨kind', literal, after, passed.trans open'.1, open'.2⟩
  termination_by text.length

theorem splitSpans_eq_error_iff {text : List Char} {kind : SpanMark} :
    splitSpans text = .error kind ↔ Unfinished text kind := by
  refine ⟨fun failed => ?_, Unfinished.splitSpans_error⟩
  rcases exact_or_unfinished text with ⟨d, exact⟩ | ⟨kind', unfinished⟩
  · rw [exact.splitSpans_eq] at failed
    cases failed
  · rw [unfinished.splitSpans_error] at failed
    cases failed
    exact unfinished

theorem splitSpans_eq_ok_iff {text : List Char} {split : Split} :
    splitSpans text = .ok split ↔ ∃ d : Decomposition, d.Exact text ∧ d.split = split := by
  constructor
  · intro ended
    rcases exact_or_unfinished text with ⟨d, exact⟩ | ⟨kind, unfinished⟩
    · rw [exact.splitSpans_eq] at ended
      cases ended
      exact ⟨d, exact, rfl⟩
    · rw [unfinished.splitSpans_error] at ended
      cases ended
  · rintro ⟨d, exact, rfl⟩
    exact exact.splitSpans_eq

/-! ## Reading what stands in the spans -/

theorem map_of_mapM {α β γ : Type} {f : α → Except CompileError β} {g : α → γ} {h : β → γ}
    (each : ∀ a b, f a = .ok b → h b = g a) {as : List α} {bs : List β}
    (ended : as.mapM f = .ok bs) : bs.map h = as.map g := by
  have matched := forall₂_of_mapM ended
  clear ended
  induction matched with
  | nil => rfl
  | cons first _ ih => rw [List.map_cons, List.map_cons, each _ _ first, ih]

namespace Interpolation

theorem source_of_parseSpan {text : String} {body : List Char} {span : Span}
    (ended : parseSpan text body = .ok span) :
    span.source = String.ofList (Text.trimChars body) := by
  unfold parseSpan at ended
  dsimp only at ended
  split at ended
  · cases ended
  · obtain ⟨expr, -, ended⟩ := exists_of_bind_eq_ok ended
    cases ended
    rfl

/-- The spans and the literals of a text that is read are those it is split into. -/
theorem splits_of_parse {text : String} {i : Interpolation} (ended : parse text = .ok i) :
    ∃ split, splitText text = .ok split ∧
      i.literals = String.ofList split.first :: split.rest.map (fun part => String.ofList part.2) ∧
      i.sources = split.rest.map fun part => String.ofList (Text.trimChars part.1) := by
  unfold parse at ended
  obtain ⟨split, opened, ended⟩ := exists_of_bind_eq_ok ended
  obtain ⟨rest, read, ended⟩ := exists_of_bind_eq_ok ended
  cases ended
  refine ⟨split, opened, ?_, ?_⟩
  · refine congrArg (String.ofList split.first :: ·) (map_of_mapM (fun part result ended => ?_) read)
    obtain ⟨span, -, ended⟩ := exists_of_bind_eq_ok ended
    cases ended
    rfl
  · rw [sources, spans, List.map_map]
    refine map_of_mapM (fun part result ended => ?_) read
    obtain ⟨span, read, ended⟩ := exists_of_bind_eq_ok ended
    cases ended
    exact source_of_parseSpan read

end Interpolation

theorem splitText_eq_ok_iff {text : String} {split : Split} :
    splitText text = .ok split ↔ splitSpans text.toList = .ok split := by
  unfold splitText
  cases splitSpans text.toList <;> simp

theorem splitText_eq_error_iff {text : String} {e : CompileError} : splitText text = .error e ↔
    ∃ kind, splitSpans text.toList = .error kind ∧ e = .unterminatedExpression kind text := by
  unfold splitText
  cases splitSpans text.toList <;> simp [eq_comm]

/-- Splitting fails exactly if a span is not closed, and names its mark. Otherwise it gives the only
way to take the text apart exactly. So does reading the text, if what stands in the spans can be
read. -/
theorem splitText_decomposes (text : String) :
    (∀ e, splitText text = .error e ↔
      ∃ kind, Unfinished text.toList kind ∧ e = .unterminatedExpression kind text) ∧
    (∀ split, splitText text = .ok split ↔
      ∃ d : Decomposition, d.Exact text.toList ∧ d.split = split) ∧
    (∀ d d' : Decomposition, d.Exact text.toList → d'.Exact text.toList → d = d') ∧
    ∀ i, Interpolation.parse text = .ok i → i.literals.length = i.spans.length + 1 ∧
      ∃ d : Decomposition, d.Exact text.toList ∧ i.literals = d.literals.map String.ofList ∧
        i.sources = d.bodies.map fun body => String.ofList (Text.trimChars body) := by
  refine ⟨fun e => ?_, fun split => splitText_eq_ok_iff.trans splitSpans_eq_ok_iff,
    fun d d' exact exact' => exact.unique exact', fun i ended => ⟨?_, ?_⟩⟩
  · simp only [splitText_eq_error_iff, splitSpans_eq_error_iff]
  · simp [Interpolation.literals, Interpolation.spans]
  · obtain ⟨split, opened, literals, sources⟩ := Interpolation.splits_of_parse ended
    obtain ⟨d, exact, rfl⟩ := splitSpans_eq_ok_iff.mp (splitText_eq_ok_iff.mp opened)
    rw [Decomposition.split, List.map_map] at literals sources
    refine ⟨d, exact, ?_, ?_⟩
    · rw [literals, Decomposition.literals, List.map_cons, List.map_map]
      rfl
    · rw [sources, Decomposition.bodies, List.map_map]
      rfl

end LiveTemplate
