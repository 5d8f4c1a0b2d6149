import LiveTemplate.Proofs.Decoding

/-!
# LiveTemplate.Proofs.Passages

The reader of markup and the splitter of texts agree on where spans are. The reader jumps over them
byte by byte, before anything is decoded, so that a `<` inside of them opens no tag; the splitter
searches the decoded text. Still every text of a tree that was read has the spans that were jumped
over when it was read, in the same order and with the same marks, and what stands in them and
between them is decoded from its own bytes.

  * `Markup.passText`            what the reader passes in a text, span by span
  * `Markup.passages`            the texts that the reader passes in a whole source
  * `Scans`                      how the splitter goes through a text
  * `Markup.passText_splits`     both ways through one text
  * `Markup.texts_split_as_read` the main result, for all texts of a tree
-/

namespace LiveTemplate

/-! ## What the splitter finds -/

/-- The way of the splitter through a text: the literal up to the first span, then the spans, each
with its kind, its body and the literal behind it. -/
inductive Scans : List Char → List Char → List (SpanMark × List Char × List Char) → Prop
  | done {cs : List Char} (next : nextSpan? cs = none) : Scans cs cs []
  | span {cs before after body remaining literal : List Char} {kind : SpanMark}
      {spans : List (SpanMark × List Char × List Char)}
      (next : nextSpan? cs = some (before, kind, after))
      (close : Text.breakOn? kind.closing.toList after = some (body, remaining))
      (more : Scans remaining literal spans) : Scans cs before ((kind, body, literal) :: spans)

theorem Scans.splitSpans_eq {cs first : List Char} {spans : List (SpanMark × List Char × List Char)}
    (h : Scans cs first spans) : splitSpans cs = .ok ⟨first, spans.map Prod.snd⟩ := by
  induction h with
  | done next =>
    rw [splitSpans]
    split
    case h_1 => rfl
    case h_2 found => rw [next] at found; cases found
  | span next close _ ih =>
    rw [splitSpans]
    split
    case h_1 found => rw [next] at found; cases found
    case h_2 found =>
      rw [next] at found
      cases found
      split
      case h_1 open' => rw [close] at open'; cases open'
      case h_2 closed =>
        rw [close] at closed
        cases closed
        rw [ih]
        rfl

namespace Markup

/-! ## What the reader passes -/

/-- A text as the reader passes it: literal bytes up to the first span, then the spans with their
marks, each with the literal bytes behind it, and what follows the text. -/
structure Passage where
  first : List UInt8
  spans : List (List UInt8 × List UInt8)
  after : List UInt8

def Passage.source (p : Passage) : List UInt8 :=
  p.first ++ p.spans.flatMap fun span => span.1 ++ span.2

/-- The way of `afterText` through a text. -/
def passText : List UInt8 → Passage
  | [] => ⟨[], [], []⟩
  | b :: rest =>
    if b = byteOf '<' then ⟨[], [], b :: rest⟩
    else
      match _span : afterSpan? (b :: rest) with
      | some after =>
        let later := passText after
        ⟨[], (upTo (b :: rest) after, later.first) :: later.spans, later.after⟩
      | none =>
        let later := passText rest
        { later with first := b :: later.first }
  termination_by bs => bs.length
  decreasing_by
    · exact length_afterSpan? _span
    · simp

theorem after_passText (bs : List UInt8) : (passText bs).after = afterText bs := by
  fun_induction passText bs with
  | case1 => rw [afterText]
  | case2 rest => rw [afterText, if_pos rfl]
  | case3 b rest other after span later ih =>
    rw [afterText, if_neg other]
    split
    case h_1 found =>
      rw [span] at found
      cases found
      exact ih
    case h_2 none => rw [span] at none; cases none
  | case4 b rest other none later ih =>
    rw [afterText, if_neg other]
    split
    case h_1 found => rw [none] at found; cases found
    case h_2 => exact ih

/-- A span in front: its marks, and its end unless there is none. -/
theorem afterSpan?_eq_some {bs after : List UInt8} (h : afterSpan? bs = some after) :
    ∃ kind inner, bs = mark (SpanMark.opening kind) ++ inner ∧
      ((∃ body, Text.breakOn? (mark kind.closing) inner = some (body, after)) ∨ after = []) := by
  obtain ⟨kind, inner, rfl, close⟩ : ∃ kind inner, bs = mark (SpanMark.opening kind) ++ inner ∧
      closingMark? bs = some (mark kind.closing) := by
    unfold afterSpan? closingMark? at h
    unfold closingMark?
    split at h
    case isTrue dollar =>
      obtain ⟨inner, rfl⟩ := List.isPrefixOf_iff_prefix.mp dollar
      exact ⟨.dollar, inner, rfl, if_pos dollar⟩
    case isFalse dollar =>
      split at h
      case isTrue braces =>
        obtain ⟨inner, rfl⟩ := List.isPrefixOf_iff_prefix.mp braces
        exact ⟨.braces, inner, rfl, (if_neg dollar).trans (if_pos braces)⟩
      case isFalse => cases h
  have inside : (mark kind.opening ++ inner).drop 2 = inner := by cases kind <;> rfl
  rw [afterSpan?, close, Option.map_some, inside] at h
  refine ⟨kind, inner, rfl, ?_⟩
  cases found : Text.breakOn? (mark kind.closing) inner with
  | none =>
    rw [found] at h
    exact .inr (Option.some.inj h).symm
  | some parts =>
    rw [found] at h
    cases h
    exact .inl ⟨parts.1, rfl⟩

theorem afterSpan?_eq_none {bs : List UInt8} (h : afterSpan? bs = none) (kind : SpanMark) :
    ¬mark kind.opening <+: bs := by
  rintro ⟨inner, rfl⟩
  have close : closingMark? (mark kind.opening ++ inner) = some (mark kind.closing) := by
    cases kind <;> rfl
  rw [afterSpan?, close] at h
  cases h

theorem upTo_afterSpan? {bs after : List UInt8} (h : afterSpan? bs = some after) :
    upTo bs after ++ after = bs := by
  obtain ⟨kind, inner, rfl, ⟨body, found⟩ | rfl⟩ := afterSpan?_eq_some h
  · rw [Text.breakOn?_eq_append found, ← List.append_assoc, upTo_append]
  · simp [upTo]

theorem source_passText (bs : List UInt8) :
    (passText bs).source ++ (passText bs).after = bs := by
  fun_induction passText bs with
  | case1 => rfl
  | case2 rest => rfl
  | case3 b rest other after span later ih =>
    calc Passage.source ⟨[], (upTo (b :: rest) after, later.first) :: later.spans, later.after⟩ ++
          later.after
        = upTo (b :: rest) after ++ (later.source ++ later.after) := by simp [Passage.source]
      _ = b :: rest := by rw [ih, upTo_afterSpan? span]
  | case4 b rest other none later ih => exact congrArg (b :: ·) ih

theorem upTo_afterText (bs : List UInt8) : upTo bs (afterText bs) = (passText bs).source := by
  have apart := upTo_append (passText bs).source (passText bs).after
  rwa [source_passText, after_passText] at apart

/-- A text is literal, or it has a first span and goes on behind it. -/
theorem passText_cases (bs : List UInt8) :
    ((passText bs).spans = [] ∧ Unopened [] (passText bs).first) ∨
      ∃ skipped rest, afterSpan? (skipped ++ rest) = some rest ∧ rest.length < bs.length ∧
        (passText bs).spans = (skipped, (passText rest).first) :: (passText rest).spans ∧
        (passText bs).after = (passText rest).after ∧
        Unopened (skipped ++ rest) (passText bs).first := by
  fun_induction passText bs with
  | case1 => exact .inl ⟨rfl, trivial⟩
  | case2 rest => exact .inl ⟨rfl, trivial⟩
  | case3 b rest other after span later ih =>
    refine .inr ⟨upTo (b :: rest) after, after, ?_, length_afterSpan? span, rfl, rfl, trivial⟩
    rw [upTo_afterSpan? span, span]
  | case4 b rest other none later ih =>
    have whole := source_passText rest
    rcases ih with ⟨literal, unopened⟩ | ⟨skipped, behind, span, shorter, spans, after, unopened⟩
    · refine .inl ⟨literal, fun kind front => afterSpan?_eq_none none kind ?_, unopened⟩
      rw [Passage.source, literal, List.flatMap_nil] at whole
      rw [List.append_nil] at front
      refine front.trans ⟨later.after, ?_⟩
      rw [← whole, List.append_nil, List.cons_append]
    · refine .inr ⟨skipped, behind, span, Nat.lt_succ_of_lt shorter, spans, after,
        fun kind front => afterSpan?_eq_none none kind ?_, unopened⟩
      have parts : later.first ++ (skipped ++ behind) = rest := by
        calc later.first ++ (skipped ++ behind)
            = later.first ++ (skipped ++ ((passText behind).source ++ (passText behind).after)) := by
              rw [source_passText behind]
          _ = later.source ++ later.after := by simp [later, Passage.source, spans, after]
          _ = rest := whole
      rwa [parts] at front

/-! ## Both ways through one text -/

/-- A span as the reader jumps over it, without its marks, and the literal bytes behind it. -/
structure Skip where
  kind : SpanMark
  body : List UInt8
  literal : List UInt8

def Skip.bytes (s : Skip) : List UInt8 := mark s.kind.opening ++ s.body ++ mark s.kind.closing

/-- A text is split as it was read: it is decoded from a passage, the splitter finds in it the spans
of the passage, with the same marks, and each body and each literal is decoded from its own bytes. -/
def Passage.Splits (p : Passage) (content : String) : Prop :=
  content = String.ofList (decoded p.source) ∧
    ∃ skips : List Skip, p.spans = skips.map (fun s => (s.bytes, s.literal)) ∧
      Scans content.toList (decoded p.first)
        (skips.map fun s => (s.kind, decoded s.body, decoded s.literal)) ∧
      splitText content =
        .ok ⟨decoded p.first, skips.map fun s => (decoded s.body, decoded s.literal)⟩

theorem parted_opening (kind : SpanMark) (bs : List UInt8) : Parted (mark kind.opening ++ bs) := by
  refine .inr ?_
  cases kind
  · exact ⟨'$', _, .inl rfl, rfl⟩
  · exact ⟨'\x7b', _, .inr (.inl rfl), rfl⟩

/-- A closed span in front of bytes, found again in the decoded text. -/
theorem scans_span {first body rest literal : List UInt8} {kind : SpanMark} {after : List UInt8}
    {spans : List (SpanMark × List Char × List Char)}
    (unopened : Unopened (mark kind.opening ++ body ++ mark kind.closing ++ rest) first)
    (closed : Text.breakOn? (mark kind.closing) (body ++ mark kind.closing ++ after) =
      some (body, after))
    (more : Scans (decoded rest) (decoded literal) spans) :
    Scans (decoded (first ++ (mark kind.opening ++ body ++ mark kind.closing ++ rest)))
      (decoded first) ((kind, decoded body, decoded literal) :: spans) := by
  have grouped : mark kind.opening ++ body ++ mark kind.closing ++ rest =
      mark kind.opening ++ (body ++ mark kind.closing ++ rest) := by simp
  rw [grouped] at unopened ⊢
  have opened : decoded (mark kind.opening ++ (body ++ mark kind.closing ++ rest)) =
      kind.opening.toList ++ decoded (body ++ mark kind.closing ++ rest) :=
    decoded_marks (isMark_opening kind) _
  have found : Text.breakOn? kind.closing.toList (decoded (body ++ mark kind.closing ++ rest)) =
      some (decoded body, decoded rest) := by
    obtain ⟨m, ms, same⟩ : ∃ m ms, kind.closing.toList = m :: ms := by
      cases kind <;> exact ⟨_, _, rfl⟩
    have search := breakOn?_decoded (same ▸ isMark_closing kind) (body ++ mark kind.closing ++ rest)
    rw [← same] at search
    exact search.trans (congrArg _ (Text.breakOn?_append_mark closed rest))
  refine .span ?_ found more
  have parted := parted_opening kind (body ++ mark kind.closing ++ rest)
  rw [parted.decoded_append, nextSpan?_decoded parted unopened, opened, nextSpan?_opening]
  simp

/-- The splitter goes through a decoded text as the reader went through its bytes. If something
follows the text then all its spans are closed. -/
theorem passText_scans {bs : List UInt8} (more : (passText bs).after ≠ []) :
    ∃ skips : List Skip, (passText bs).spans = skips.map (fun s => (s.bytes, s.literal)) ∧
      Scans (decoded (passText bs).source) (decoded (passText bs).first)
        (skips.map fun s => (s.kind, decoded s.body, decoded s.literal)) := by
  induction size : bs.length using Nat.strong_induction_on generalizing bs with
  | _ n ih =>
  rcases passText_cases bs with ⟨literal, unopened⟩ |
    ⟨skipped, rest, span, shorter, spans, after, unopened⟩
  · refine ⟨[], literal, ?_⟩
    have next := nextSpan?_decoded (.inl rfl) unopened
    rw [decoded_nil, List.append_nil] at next
    rw [Passage.source, literal, List.flatMap_nil, List.append_nil]
    exact .done next
  · rw [after] at more
    obtain ⟨skips, later, scans⟩ := ih rest.length (size ▸ shorter) more rfl
    obtain ⟨kind, inner, whole, ⟨body, closed⟩ | rfl⟩ := afterSpan?_eq_some span
    · have inner' := Text.breakOn?_eq_append closed
      have bytes : skipped = mark kind.opening ++ body ++ mark kind.closing := by
        rw [inner'] at whole
        exact List.append_cancel_right (whole.trans (by simp))
      refine ⟨⟨kind, body, (passText rest).first⟩ :: skips, ?_, ?_⟩
      · rw [spans, later, bytes]
        rfl
      · have source : (passText bs).source = (passText bs).first ++
            (mark kind.opening ++ body ++ mark kind.closing ++ (passText rest).source) := by
          simp [Passage.source, spans, bytes]
        rw [source]
        refine scans_span ?_ (inner' ▸ closed) scans
        rw [← source_passText rest, ← List.append_assoc, bytes] at unopened
        exact unopened.take
    · -- A span without end takes all there is.
      rw [passText] at more
      exact absurd rfl more

theorem passText_splits {bs : List UInt8} (more : (passText bs).after ≠ []) :
    (passText bs).Splits (String.ofList (decoded (passText bs).source)) := by
  obtain ⟨skips, spans, scans⟩ := passText_scans more
  refine ⟨rfl, skips, spans, by rwa [String.toList_ofList], ?_⟩
  rw [splitText, String.toList_ofList, scans.splitSpans_eq, List.map_map]
  rfl

/-! ## Whole sources -/

/-- The texts that the reader passes from `bs` on, in order. -/
def passages (total : Nat) : List UInt8 → List Passage
  | [] => []
  | b :: rest =>
    let later := passages total (afterPiece total b rest)
    if b = byteOf '<' then later else passText (b :: rest) :: later
  termination_by bs => bs.length
  decreasing_by exact length_afterPiece total b rest

mutual

/-- The texts of a tree, in order. -/
def texts : Markup → List String
  | .element _ _ kids => textsOfAll kids
  | .text content => [content]
  | .comment _ => []

def textsOfAll : List Markup → List String
  | [] => []
  | m :: rest => m.texts ++ textsOfAll rest

end

theorem textsOfAll_append (ms ns : List Markup) :
    textsOfAll (ms ++ ns) = textsOfAll ms ++ textsOfAll ns := by
  induction ms with
  | nil => rfl
  | cons m ms ih => rw [List.cons_append, textsOfAll, ih, textsOfAll, List.append_assoc]

theorem textsOfAll_singleton (m : Markup) : textsOfAll [m] = m.texts := by
  rw [textsOfAll, textsOfAll, List.append_nil]

/-- The texts in open elements, in order. -/
def openTexts : List OpenElement → List String
  | [] => []
  | top :: outer => openTexts outer ++ textsOfAll top.children

/-- The passages that the texts of an element were read from. Text outside of elements may lack the
end of a span. -/
def ReadFrom (ps : List Passage) (m : Markup) : Prop :=
  m.isElement = true → List.Forall₂ Passage.Splits ps m.texts

/-- The passages so far are those of what is finished, and then those of what is open. -/
def Reading.Passed (state : Reading) (ps : List Passage) : Prop :=
  ∃ done inner, ps = done.flatten ++ inner ∧ List.Forall₂ ReadFrom done state.roots ∧
    List.Forall₂ Passage.Splits inner (openTexts state.stack)

theorem Reading.Passed.add {state : Reading} {ps qs : List Passage} (h : state.Passed ps)
    {m : Markup} (outside : state.stack = [] → ReadFrom qs m)
    (inside : state.stack ≠ [] → List.Forall₂ Passage.Splits qs m.texts) :
    (state.add m).Passed (ps ++ qs) := by
  obtain ⟨done, inner, rfl, roots, open'⟩ := h
  obtain ⟨stack, finished⟩ := state
  cases stack with
  | nil =>
    cases open'
    refine ⟨done ++ [qs], [], by simp, ?_, .nil⟩
    exact List.rel_append roots (.cons (outside rfl) .nil)
  | cons top outer =>
    refine ⟨done, inner ++ qs, by simp, roots, ?_⟩
    rw [Reading.add, openTexts, textsOfAll_append, textsOfAll_singleton, ← List.append_assoc]
    exact List.rel_append open' (inside (List.cons_ne_nil top outer))

theorem Reading.Passed.close {state state' : Reading} {ps : List Passage} (h : state.Passed ps)
    {name : String} {offset : Nat} (closed : state.close name offset = .ok state') :
    state'.Passed ps := by
  obtain ⟨done, inner, rfl, roots, open'⟩ := h
  obtain ⟨stack, finished⟩ := state
  unfold Reading.close at closed
  cases stack with
  | nil => cases closed
  | cons top outer =>
    dsimp only at closed
    split at closed
    case isFalse => cases closed
    case isTrue =>
      cases closed
      rw [openTexts] at open'
      have above := List.forall₂_take_append _ _ _ open'
      have below := List.forall₂_drop_append _ _ _ open'
      have outside : Reading.Passed ⟨outer, finished⟩ (done.flatten ++ inner.take _) :=
        ⟨done, _, rfl, roots, above⟩
      rw [← List.take_append_drop (openTexts outer).length inner, ← List.append_assoc]
      exact outside.add (fun _ _ => below) fun _ => below

/-- A leaf that is no text has no texts. -/
theorem texts_of_leaf {m : Markup} (leaf : m.children = []) (mute : m.isText = false) :
    m.texts = [] := by
  cases m with
  | element tag attributes kids =>
    rw [texts, show kids = [] from leaf, textsOfAll]
  | text content => cases mute
  | comment content => rw [texts]

/-- One step of a reading that succeeds. -/
theorem Reading.Passed.next {total : Nat} {state state' : Reading} {ps : List Passage} {b : UInt8}
    {rest : List UInt8} {ms : List Markup} (h : state.Passed ps) (next : state.Next b rest state')
    (read : readFrom total state' (afterPiece total b rest) = .ok ms) :
    state'.Passed (ps ++ if b = byteOf '<' then [] else [passText (b :: rest)]) := by
  cases next with
  | pass tag => rwa [if_pos tag, List.append_nil]
  | text other =>
    rw [if_neg other]
    rw [upTo_afterText] at read ⊢
    refine h.add (fun _ element => ?_) fun inside => ?_
    · cases element
    -- In an element the end cannot follow, as the element would not be closed.
    have more : (passText (b :: rest)).after ≠ [] := by
      intro none
      rw [after_passText] at none
      rw [afterPiece, if_neg other, none, readFrom, Reading.finish, Reading.add] at read
      obtain ⟨top, outer, stack⟩ := List.exists_cons_of_ne_nil inside
      rw [stack] at read
      cases read
    rw [texts]
    exact .cons (passText_splits more) .nil
  | @leaf m tag _ leaf mute =>
    rw [if_pos tag]
    have none : List.Forall₂ Passage.Splits [] m.texts := by
      rw [texts_of_leaf leaf mute]
      exact .nil
    exact h.add (fun _ _ => none) fun _ => none
  | opens tag _ empty =>
    obtain ⟨done, inner, same, roots, open'⟩ := h
    rw [if_pos tag, List.append_nil]
    refine ⟨done, inner, same, roots, ?_⟩
    rwa [openTexts, empty, textsOfAll, List.append_nil]
  | closes tag closed =>
    rw [if_pos tag, List.append_nil]
    exact h.close closed

/-- A group of passages stands somewhere among all of them. -/
theorem flatten_of_forall₂ {α β : Type} {R : List α → β → Prop} {groups : List (List α)}
    {bs : List β} (rel : List.Forall₂ R groups bs) {b : β} (mem : b ∈ bs) :
    ∃ before group behind, groups.flatten = before ++ group ++ behind ∧ R group b := by
  induction rel with
  | nil => cases mem
  | @cons group _ groups _ head _ ih =>
    rcases List.mem_cons.mp mem with rfl | mem
    · exact ⟨[], group, groups.flatten, rfl, head⟩
    · obtain ⟨before, inside, behind, same, related⟩ := ih mem
      exact ⟨group ++ before, inside, behind, by simp [same], related⟩

/-- A reading that succeeds, to its end. -/
theorem readFrom_passages {total : Nat} {state : Reading} {ps : List Passage} {bs : List UInt8}
    {ms : List Markup} (h : state.Passed ps) (read : readFrom total state bs = .ok ms) :
    ∃ done, ps ++ passages total bs = done.flatten ∧ List.Forall₂ ReadFrom done ms := by
  induction size : bs.length using Nat.strong_induction_on generalizing state ps bs with
  | _ n ih =>
    cases bs with
    | nil =>
      obtain ⟨done, inner, rfl, roots, open'⟩ := h
      rw [readFrom, Reading.finish] at read
      split at read
      case h_1 stack =>
        cases read
        rw [stack] at open'
        cases open'
        exact ⟨done, by rw [passages, List.append_nil, List.append_nil], roots⟩
      case h_2 => cases read
    | cons b rest =>
      obtain ⟨state', next, read⟩ := readFrom_step read
      obtain ⟨done, same, roots⟩ :=
        ih _ (size ▸ length_afterPiece total b rest) (h.next next read) read rfl
      refine ⟨done, ?_, roots⟩
      rw [← same, passages, List.append_assoc]
      split <;> rfl

end Markup

/-! ## Texts in the analysis -/

/-- Whatever it stops at, it is not a span without end. -/
def Ended {α : Type} (m : Except CompileError α) : Prop :=
  ∀ kind text, m ≠ .error (.unterminatedExpression kind text)

section

variable {α β : Type}

theorem Ended.bind {m : Except CompileError α} {f : α → Except CompileError β} (h : Ended m)
    (next : ∀ a, Ended (f a)) : Ended (m >>= f) := by
  cases m with
  | error e =>
    intro kind text stopped
    cases stopped
    exact h kind text rfl
  | ok a => exact next a

theorem ended_ok (a : α) : Ended (.ok a) := by
  intro _ _ stopped
  cases stopped

theorem ended_mapM {f : α → Except CompileError β} (each : ∀ a, Ended (f a)) (as : List α) :
    Ended (as.mapM f) := by
  induction as with
  | nil => exact ended_ok []
  | cons a as ih =>
    rw [List.mapM_cons]
    exact (each a).bind fun b => ih.bind fun bs => ended_ok _

end

theorem Interpolation.parseSpan_ended (text : String) (body : List Char) :
    Ended (parseSpan text body) := by
  unfold parseSpan
  dsimp only
  split
  · intro _ _ stopped
    cases stopped
  · refine Ended.bind ?_ fun _ => ended_ok _
    unfold parseExpr
    split
    · exact ended_ok _
    · intro _ _ stopped
      cases stopped

theorem Interpolation.parse_ended {text : String} {split : Split}
    (ok : splitText text = .ok split) : Ended (parse text) := by
  unfold parse
  rw [ok]
  refine (ended_ok split).bind fun split => (ended_mapM (fun piece => ?_) _).bind fun _ => ended_ok _
  exact (parseSpan_ended text piece.1).bind fun _ => ended_ok _

namespace Analysis

variable {α β : Type} {d : Draft}

theorem ended_bind {m : Analysis α} {f : α → Analysis β} (h : Ended (m.run d))
    (next : ∀ a d', Ended ((f a).run d')) : Ended ((m >>= f).run d) := by
  rw [StateT.run_bind]
  exact h.bind fun result => next result.1 result.2

theorem ended_lift {m : Except CompileError α} (h : Ended m) :
    Ended ((liftM m : Analysis α).run d) :=
  h.bind fun a => ended_ok (a, d)

theorem targetOf_ended (path : Path) : Ended ((targetOf path).run d) := by
  unfold targetOf
  split
  · exact ended_ok _
  · refine ended_bind (ended_ok _) fun slot? d' => ?_
    cases slot? with
    | some slot => exact ended_ok _
    | none => exact ended_ok _

theorem bind_ended (path : Path) (action : Action) (source : String) :
    Ended ((Analysis.bind path action source).run d) := by
  unfold Analysis.bind
  refine ended_bind (ended_ok _) fun draft d' => ?_
  split
  · intro _ _ stopped
    cases stopped
  · exact ended_bind (targetOf_ended path) fun target d' => ended_ok _

/-- A text that can be split does not stop the analysis for a span without end. -/
theorem text_ended {content : String} {split : Split} (ok : splitText content = .ok split)
    (path : Path) : Ended ((text path content).run d) := by
  unfold text
  split
  · exact ended_ok _
  · refine ended_bind (ended_lift (Interpolation.parse_ended ok)) fun parsed d' => ?_
    split
    · exact ended_ok _
    · exact ended_bind (bind_ended path _ content) fun _ d' => ended_ok _

end Analysis

namespace Markup

/-- The texts of a tree that was read are split as they were read. They come, in order, from
consecutive texts that the reader passed. In each the splitter finds the spans that the reader
jumped over, and the analysis of none of them stops at a span without end. -/
theorem texts_split_as_read {source : String} {root : Markup}
    (read : parseTemplate source = .ok root) :
    (∃ before inside behind,
      passages (Text.bytes source).length (Text.bytes source) = before ++ inside ++ behind ∧
      List.Forall₂ Passage.Splits inside root.texts) ∧
    ∀ content ∈ root.texts, ∀ path d, Ended ((Analysis.text path content).run d) := by
  obtain ⟨before, inside, behind, same, splits⟩ : ∃ before inside behind,
      passages (Text.bytes source).length (Text.bytes source) = before ++ inside ++ behind ∧
      List.Forall₂ Passage.Splits inside root.texts := by
    obtain ⟨nodes, found, listed, element⟩ := parseTemplate_ok read
    have start : Reading.Passed {} [] := ⟨[], [], rfl, .nil, .nil⟩
    obtain ⟨done, same, roots⟩ := readFrom_passages start found
    obtain ⟨before, inside, behind, parts, splits⟩ := flatten_of_forall₂ roots listed
    exact ⟨before, inside, behind, same.trans parts, splits element⟩
  refine ⟨⟨before, inside, behind, same, splits⟩, fun content mem path d => ?_⟩
  obtain ⟨p, _, _, _, _, _, split⟩ := exists_left splits mem
  exact Analysis.text_ended split path

/-- Marks that overlap, a `<` and entities in spans and around them, text outside of the element, and
a span without end behind it. -/
theorem texts_split_as_read_nested :
    let source := "a<p>\x7b$$\x7b\x7bx<1&gt;\x7d&lt;\x7b\x7by\x7d\x7d\x7d<i>z</i></p>$\x7b<b>"
    let root : Markup := .element "p" []
      [.text "\x7b$$\x7b\x7bx<1>\x7d<\x7b\x7by\x7d\x7d\x7d", .element "i" [] [.text "z"]]
    parseTemplate source = .ok root ∧
      (∃ before inside behind,
        passages (Text.bytes source).length (Text.bytes source) = before ++ inside ++ behind ∧
        inside.length = 2 ∧ List.Forall₂ Passage.Splits inside root.texts) ∧
      ∀ path d, Ended ((Analysis.text path "z").run d) := by
  intro source root
  have read : parseTemplate source = .ok root := by decide +kernel
  obtain ⟨⟨before, inside, behind, same, splits⟩, ended⟩ := texts_split_as_read read
  refine ⟨read, ⟨before, inside, behind, same, splits.length_eq, splits⟩, ended "z" ?_⟩
  decide +kernel

end Markup
end LiveTemplate
