import LiveTemplate.Proofs.Forest
import LiveTemplate.Proofs.Pieces

/-!
# LiveTemplate.Proofs.RoundTrip

Markup that is written from a document is read back as the tree that the document has there.

  * `Document.Shows`                   the tree at a node of a document
  * `Markup.Readable`                  trees that the reader tells apart from all others
  * `Document.markup_eq`               what a node is written as
  * `Document.parseFragment_markup`    the main result
-/

namespace LiveTemplate

/-! ## Trees and what they are written as -/

namespace Document

mutual

/-- The tree of the document at a node. Texts and comments are leaves. -/
def Shows (doc : Document) (id : NodeId) : Markup → Prop
  | .element tag attributes kids => ∃ properties,
      doc.content? id = some (.element tag attributes properties) ∧
        doc.ShowsAll (doc.children id) kids
  | .text content => doc.content? id = some (.text content)
  | .comment content => doc.content? id = some (.comment content)

/-- The trees at a list of nodes. -/
def ShowsAll (doc : Document) : List NodeId → List Markup → Prop
  | [], [] => True
  | id :: ids, m :: ms => doc.Shows id m ∧ doc.ShowsAll ids ms
  | _, _ => False

end

end Document

namespace Markup

def openingTag (tag : String) (attributes : List (String × String)) : String :=
  "<" ++ tag ++ String.join (attributes.map Document.attributeMarkup) ++ ">"

mutual

/-- What a tree is written as. -/
def written : Markup → String
  | .element tag attributes kids =>
    if voidTags.contains tag && kids.isEmpty then openingTag tag attributes
    else openingTag tag attributes ++ writtenAll kids ++ "</" ++ tag ++ ">"
  | .text content => Document.escapeWith Document.escapeText content
  | .comment content => "<!--" ++ content ++ "-->"

def writtenAll : List Markup → String
  | [] => ""
  | m :: ms => m.written ++ writtenAll ms

end

end Markup

namespace Document

variable {doc : Document}

mutual

/-- A node has one tree. -/
theorem Shows.unique : ∀ {id : NodeId} {m m' : Markup}, doc.Shows id m → doc.Shows id m' → m = m'
  | id, .element tag attributes kids, m', h, h' => by
    obtain ⟨properties, content, below⟩ := h
    cases m' with
    | element tag' attributes' kids' =>
      obtain ⟨properties', content', below'⟩ := h'
      rw [content] at content'
      cases content'
      rw [ShowsAll.unique below below']
    | text content' => cases content.symm.trans h'
    | comment content' => cases content.symm.trans h'
  | id, .text content, m', h, h' => by
    cases m' with
    | element tag' attributes' kids' =>
      obtain ⟨properties', content', _⟩ := h'
      cases Eq.trans (Eq.symm h) content'
    | text content' => cases Eq.trans (Eq.symm h) h'; rfl
    | comment content' => cases Eq.trans (Eq.symm h) h'
  | id, .comment content, m', h, h' => by
    cases m' with
    | element tag' attributes' kids' =>
      obtain ⟨properties', content', _⟩ := h'
      cases Eq.trans (Eq.symm h) content'
    | text content' => cases Eq.trans (Eq.symm h) h'
    | comment content' => cases Eq.trans (Eq.symm h) h'; rfl

theorem ShowsAll.unique : ∀ {ids : List NodeId} {ms ms' : List Markup}, doc.ShowsAll ids ms →
    doc.ShowsAll ids ms' → ms = ms'
  | [], [], [], _, _ => rfl
  | id :: ids, m :: ms, m' :: ms', h, h' => by
    rw [Shows.unique h.1 h'.1, ShowsAll.unique h.2 h'.2]

end

theorem Shows.live {id : NodeId} {m : Markup} (h : doc.Shows id m) :
    ∃ node, doc.get? id = some node := by
  have held : ∃ content, doc.content? id = some content := by
    cases m with
    | element tag attributes kids =>
      obtain ⟨properties, content, _⟩ := h
      exact ⟨_, content⟩
    | text content => exact ⟨_, h⟩
    | comment content => exact ⟨_, h⟩
  obtain ⟨content, held⟩ := held
  obtain ⟨node, found, _⟩ := Option.map_eq_some_iff.mp held
  exact ⟨node, found⟩

theorem ShowsAll.isEmpty_eq {ids : List NodeId} {ms : List Markup} (h : doc.ShowsAll ids ms) :
    ids.isEmpty = ms.isEmpty := by
  cases ids with
  | nil =>
    cases ms with
    | nil => rfl
    | cons m ms => exact h.elim
  | cons id ids =>
    cases ms with
    | nil => exact h.elim
    | cons m ms => rfl

/-- On the way down: the nodes passed so far have larger trees, so none of them comes again. -/
structure Passed (doc : Document) (above : List NodeId) (size : Nat) : Prop where
  distinct : above.Nodup
  larger : ∀ x ∈ above, ∃ m, doc.Shows x m ∧ size < sizeOf m

theorem Passed.length_le {above : List NodeId} {size : Nat} (h : doc.Passed above size) :
    above.length ≤ doc.nodes.slots.size := by
  refine Slots.length_le_size h.distinct fun x mem => ?_
  obtain ⟨m, shown, _⟩ := h.larger x mem
  exact shown.live

theorem Passed.cons {above : List NodeId} {id : NodeId} {m : Markup} {size : Nat}
    (h : doc.Passed above (sizeOf m)) (shown : doc.Shows id m) (smaller : size < sizeOf m) :
    doc.Passed (id :: above) size := by
  refine ⟨List.nodup_cons.mpr ⟨fun mem => ?_, h.distinct⟩, fun x mem => ?_⟩
  · obtain ⟨m', shown', larger⟩ := h.larger id mem
    rw [shown.unique shown'] at larger
    exact Nat.lt_irrefl _ larger
  · rcases List.mem_cons.mp mem with rfl | mem
    · exact ⟨m, shown, smaller⟩
    · obtain ⟨m', shown', larger⟩ := h.larger x mem
      exact ⟨m', shown', Nat.lt_trans smaller larger⟩

theorem Passed.mono {above : List NodeId} {size size' : Nat} (h : doc.Passed above size)
    (le : size' ≤ size) : doc.Passed above size' := by
  refine ⟨h.distinct, fun x mem => ?_⟩
  obtain ⟨m, shown, larger⟩ := h.larger x mem
  exact ⟨m, shown, Nat.lt_of_le_of_lt le larger⟩

/-- There are steps left for as many nodes as can still come. -/
theorem Passed.step {above : List NodeId} {size n : Nat} (h : doc.Passed above size)
    (enough : doc.nodes.slots.size < n + above.length) : ∃ k, n = k + 1 := by
  have := h.length_le
  exact ⟨n - 1, by omega⟩

theorem get?_of_content? {id : NodeId} {content : Content} (h : doc.content? id = some content) :
    ∃ node, doc.get? id = some node ∧ node.content = content :=
  Option.map_eq_some_iff.mp h

mutual

theorem markupFrom_eq_written : ∀ (m : Markup) {n : Nat} {id : NodeId} {above : List NodeId},
    doc.Shows id m → doc.Passed above (sizeOf m) → doc.nodes.slots.size < n + above.length →
      doc.markupFrom n id = m.written
  | .element tag attributes kids, n, id, above, shown, passed, enough => by
    obtain ⟨n, rfl⟩ := passed.step enough
    have passed' : doc.Passed (id :: above) (sizeOf kids) := passed.cons shown (by simp)
    obtain ⟨properties, content, below⟩ := shown
    have kidsWritten := markupFrom_eq_writtenAll kids (n := n) below passed'
      (by rw [List.length_cons]; omega)
    obtain ⟨node, found, same⟩ := get?_of_content? content
    have children : doc.children id = node.children := by rw [Document.children, found]; rfl
    rw [children] at below kidsWritten
    rw [markupFrom, found, Markup.written, ← kidsWritten, ← below.isEmpty_eq]
    simp only [same]
    rfl
  | .text content, n, id, above, shown, passed, enough => by
    obtain ⟨n, rfl⟩ := passed.step enough
    obtain ⟨node, found, same⟩ := get?_of_content? shown
    rw [markupFrom, found]
    simp only [same]
    rfl
  | .comment content, n, id, above, shown, passed, enough => by
    obtain ⟨n, rfl⟩ := passed.step enough
    obtain ⟨node, found, same⟩ := get?_of_content? shown
    rw [markupFrom, found]
    simp only [same]
    rfl

theorem markupFrom_eq_writtenAll : ∀ (ms : List Markup) {n : Nat} {ids above : List NodeId},
    doc.ShowsAll ids ms → doc.Passed above (sizeOf ms) → doc.nodes.slots.size < n + above.length →
      String.join (ids.map (doc.markupFrom n)) = Markup.writtenAll ms
  | [], n, [], above, shown, passed, enough => rfl
  | m :: ms, n, id :: ids, above, shown, passed, enough => by
    have first := markupFrom_eq_written m shown.1 (passed.mono (by simp; omega)) enough
    have others := markupFrom_eq_writtenAll ms shown.2 (passed.mono (by simp)) enough
    rw [List.map_cons, String.join_cons, first, others]
    rfl

end

/-- A node is written as its tree is: the bound on the steps is never met. -/
theorem markup_eq {id : NodeId} {m : Markup} (shown : doc.Shows id m) :
    doc.markup id = m.written := by
  have none : doc.Passed [] (sizeOf m) := ⟨List.nodup_nil, fun _ mem => (List.not_mem_nil mem).elim⟩
  exact markupFrom_eq_written m shown none (Nat.lt_succ_self _)

end Document

/-! ## Reading -/

namespace Markup

def isText : Markup → Bool
  | .text _ => true
  | _ => false

/-- Trees that are not taken for others when they are read. -/
inductive Readable : Markup → Prop
  | element {tag : String} {attributes : List (String × String)} {kids : List Markup}
      (name : IsWord isTagChar tag) (names : ∀ entry ∈ attributes, IsWord isNameChar entry.1)
      (void : tag.toLower ∈ voidTags → tag = tag.toLower ∧ kids = [])
      (apart : kids.IsChain fun a b => ¬(a.isText = true ∧ b.isText = true))
      (each : ∀ kid ∈ kids, Readable kid) : Readable (.element tag attributes kids)
  | text {content : String} (solid : content ≠ "")
      (closed : ∃ split, splitSpans content.toList = .ok split) : Readable (.text content)
  | comment {content : String} (free : ¬ "-->".toList <:+: content.toList) :
      Readable (.comment content)

theorem upTo_append (xs rest : List UInt8) : upTo (xs ++ rest) rest = xs := by
  rw [upTo, List.length_append, Nat.add_sub_cancel, List.take_left]

theorem readFrom_text (total : Nat) (state : Reading) {content : String} (solid : content ≠ "")
    {split : Split} (closed : splitSpans content.toList = .ok split) {rest : List UInt8}
    (stops : Stops rest) :
    readFrom total state (Text.bytes (written (.text content)) ++ rest) =
      readFrom total (state.add (.text content)) rest := by
  have decoded := decodeEntities_written undoes_escapeText content
  rw [written, bytes_escapeText] at *
  have after := afterText_written closed stops
  have front := upTo_append (content.toList.flatMap textBytes) rest
  obtain ⟨c, cs, same⟩ := List.exists_cons_of_ne_nil
    (fun empty => solid (String.toList_eq_nil_iff.mp empty))
  obtain ⟨b, more, first⟩ := List.exists_cons_of_ne_nil (textBytes_ne_nil c)
  have other : b ≠ byteOf '<' := by
    rintro rfl
    exact (eq_of_mem_textBytes (a := '<') (by simp) (first ▸ List.mem_cons_self)).2 rfl
  obtain ⟨tail, whole⟩ : ∃ tail, content.toList.flatMap textBytes ++ rest = b :: tail := by
    rw [same, List.flatMap_cons, first]
    exact ⟨_, rfl⟩
  rw [whole] at after front ⊢
  rw [readFrom, if_neg other, after]
  dsimp only
  rw [front, decoded]

theorem readFrom_comment (total : Nat) (state : Reading) {content : String}
    (free : ¬ "-->".toList <:+: content.toList) (rest : List UInt8) :
    readFrom total state (Text.bytes (written (.comment content)) ++ rest) =
      readFrom total (state.add (.comment content)) rest := by
  have opened : Text.bytes "<!--" = byteOf '<' :: mark "!--" := by decide +kernel
  have closed : Text.bytes "-->" = mark "-->" := by decide +kernel
  have found := breakOn?_comment free rest
  have inner (bs : List UInt8) : (mark "!--" ++ bs).drop 3 = bs := rfl
  rw [written, Text.bytes_append, Text.bytes_append, opened, closed, List.append_assoc,
    List.append_assoc, List.cons_append, readFrom, if_pos rfl, if_pos (by simp)]
  split
  case h_1 none => rw [inner, found] at none; cases none
  case h_2 body after same =>
    rw [inner, found] at same
    cases same
    rw [Text.ofBytes_bytes]

theorem bytes_openingTag (tag : String) (attributes : List (String × String)) :
    Text.bytes (openingTag tag attributes) = byteOf '<' :: (Text.bytes tag ++
      (attributes.flatMap (fun entry => Text.bytes (Document.attributeMarkup entry)) ++
        [byteOf '>'])) := by
  have opened : Text.bytes "<" = [byteOf '<'] := by decide +kernel
  have closed : Text.bytes ">" = [byteOf '>'] := by decide +kernel
  have joined : Text.bytes (String.join (attributes.map Document.attributeMarkup)) =
      attributes.flatMap fun entry => Text.bytes (Document.attributeMarkup entry) := by
    induction attributes with
    | nil => rfl
    | cons entry attributes ih =>
      rw [List.map_cons, String.join_cons, Text.bytes_append, ih, List.flatMap_cons]
  simp only [openingTag, Text.bytes_append, opened, closed, joined, List.append_assoc,
    List.cons_append, List.nil_append]

/-- An opening tag is read up to its end. -/
theorem readFrom_openingTag (total : Nat) (state : Reading) {tag : String}
    {attributes : List (String × String)} (name : IsWord isTagChar tag)
    (names : ∀ entry ∈ attributes, IsWord isNameChar entry.1) (rest : List UInt8) :
    ∃ offset, readFrom total state (Text.bytes (openingTag tag attributes) ++ rest) =
      if voidTags.contains tag.toLower then
        readFrom total (state.add (.element tag attributes [])) rest
      else
        readFrom total { state with stack := ⟨tag, attributes, [], offset⟩ :: state.stack }
          rest := by
  have ascii (c : Char) (h : isTagChar c = true) := ascii_of_isNameChar (isNameChar_of_isTagChar h)
  obtain ⟨b, tail, same, stop⟩ : ∃ b tail,
      attributes.flatMap (fun entry => Text.bytes (Document.attributeMarkup entry)) ++
        byteOf '>' :: rest = b :: tail ∧ isTagByte b = false := by
    cases attributes with
    | nil => exact ⟨_, _, rfl, by decide⟩
    | cons entry attributes =>
      rw [List.flatMap_cons, bytes_attributeMarkup]
      exact ⟨_, _, rfl, by decide⟩
  have read (start : Nat) := readTagTail_written total start attributes names [] rest
  rw [bytes_openingTag]
  simp only [List.cons_append, List.append_assoc, List.nil_append]
  rw [same] at read ⊢
  obtain ⟨taken, dropped⟩ := span_word ascii isTagByte_byteOf name.each stop tail
  have comment : ¬(mark "!--").isPrefixOf (Text.bytes tag ++ b :: tail) = true :=
    name.not_front ascii isTagByte_byteOf (by decide) (mark "--") _
  have declaration : ¬(mark "!").isPrefixOf (Text.bytes tag ++ b :: tail) = true :=
    name.not_front ascii isTagByte_byteOf (by decide) [] _
  have closing : ¬(mark "/").isPrefixOf (Text.bytes tag ++ b :: tail) = true :=
    name.not_front ascii isTagByte_byteOf (by decide) [] _
  refine ⟨total - (byteOf '<' :: (Text.bytes tag ++ b :: tail)).length, ?_⟩
  rw [readFrom, if_pos rfl, if_neg comment, if_neg declaration, if_neg closing]
  dsimp only
  rw [taken, Text.ofBytes_bytes, if_neg name.solid]
  split
  case h_1 e failed => rw [dropped, read] at failed; cases failed
  case h_2 found done =>
    rw [dropped, read] at done
    cases done
    rw [Bool.false_or, List.nil_append]

/-- A closing tag takes its element off the stack. -/
theorem readFrom_closingTag (total : Nat) (state : Reading) {tag : String}
    {attributes : List (String × String)} {kids : List Markup} {offset : Nat}
    (name : IsWord isTagChar tag) (rest : List UInt8) :
    readFrom total { state with stack := ⟨tag, attributes, kids, offset⟩ :: state.stack }
        (Text.bytes ("</" ++ tag ++ ">") ++ rest) =
      readFrom total (state.add (.element tag attributes kids)) rest := by
  have opened : Text.bytes "</" = [byteOf '<', byteOf '/'] := by decide +kernel
  have closed : Text.bytes ">" = [byteOf '>'] := by decide +kernel
  have ascii (c : Char) (h : isTagChar c = true) := ascii_of_isNameChar (isNameChar_of_isTagChar h)
  obtain ⟨taken, dropped⟩ :=
    span_word ascii isTagByte_byteOf name.each (b := byteOf '>') (by decide) rest
  have read : readClosing (Text.bytes tag ++ byteOf '>' :: rest) = (tag, rest) := by
    rw [readClosing, taken, dropped, skipBlank_cons (by decide)]
    dsimp only
    rw [if_pos rfl, Text.ofBytes_bytes]
  have comment (bs : List UInt8) : ¬(mark "!--").isPrefixOf (byteOf '/' :: bs) = true :=
    Bool.false_ne_true
  have declaration (bs : List UInt8) : ¬(mark "!").isPrefixOf (byteOf '/' :: bs) = true :=
    Bool.false_ne_true
  have closing (bs : List UInt8) : (mark "/").isPrefixOf (byteOf '/' :: bs) = true := rfl
  rw [Text.bytes_append, Text.bytes_append, opened, closed, List.append_assoc, List.append_assoc]
  simp only [List.cons_append, List.nil_append]
  rw [readFrom, if_pos rfl, if_neg (comment _), if_neg (declaration _), if_pos (closing _)]
  dsimp only
  rw [List.drop_one, List.tail_cons, read, Reading.close]
  dsimp only
  rw [if_pos rfl]

theorem stops_written {m : Markup} (other : m.isText = false) (rest : List UInt8) :
    Stops (Text.bytes m.written ++ rest) := by
  have opened : Text.bytes "<!--" = byteOf '<' :: mark "!--" := by decide +kernel
  cases m with
  | element tag attributes kids =>
    rw [written]
    split
    · rw [bytes_openingTag]
      rintro b ⟨⟩
      rfl
    · rw [Text.bytes_append, Text.bytes_append, Text.bytes_append, Text.bytes_append,
        bytes_openingTag]
      rintro b ⟨⟩
      rfl
  | text content => cases other
  | comment content =>
    rw [written, Text.bytes_append, Text.bytes_append, opened]
    rintro b ⟨⟩
    rfl

/-- A text is followed by something else, or by the end of its parent. -/
theorem stops_writtenAll {m : Markup} {ms : List Markup}
    (apart : (m :: ms).IsChain fun a b => ¬(a.isText = true ∧ b.isText = true))
    {rest : List UInt8} (stops : Stops rest) (text : m.isText = true) :
    Stops (Text.bytes (writtenAll ms) ++ rest) := by
  cases ms with
  | nil => exact stops
  | cons next ms =>
    have other : next.isText = false := by
      have first := (List.isChain_cons_cons.mp apart).1
      exact Bool.eq_false_iff.mpr fun both => first ⟨text, both⟩
    rw [writtenAll, Text.bytes_append, List.append_assoc]
    exact stops_written other _

theorem foldl_add (kids : List Markup) (top : OpenElement) (outer : List OpenElement)
    (roots : List Markup) :
    kids.foldl Reading.add ⟨top :: outer, roots⟩ =
      ⟨{ top with children := top.children ++ kids } :: outer, roots⟩ := by
  induction kids generalizing top with
  | nil => rw [List.append_nil]; rfl
  | cons kid kids ih =>
    rw [List.foldl_cons, Reading.add, ih]
    simp

theorem toLower_mem_voidTags {tag : String} (h : tag ∈ voidTags) : tag.toLower ∈ voidTags := by
  have all : ∀ tag ∈ voidTags, tag.toLower ∈ voidTags := by decide +kernel
  exact all tag h

mutual

/-- A tree is read from what it is written as, and reading goes on behind it. -/
theorem readFrom_written (total : Nat) : ∀ {m : Markup}, m.Readable → ∀ (state : Reading)
    {rest : List UInt8}, (m.isText = true → Stops rest) →
      readFrom total state (Text.bytes m.written ++ rest) = readFrom total (state.add m) rest
  | .text content, readable, state, rest, stops => by
    cases readable with
    | text solid closed =>
      obtain ⟨split, closed⟩ := closed
      exact readFrom_text total state solid closed (stops rfl)
  | .comment content, readable, state, rest, _ => by
    cases readable with
    | comment free => exact readFrom_comment total state free rest
  | .element tag attributes kids, readable, state, rest, _ => by
    cases readable with
    | element name names void apart each =>
      rw [written]
      by_cases isVoid : tag.toLower ∈ voidTags
      · obtain ⟨lower, rfl⟩ := void isVoid
        obtain ⟨offset, read⟩ := readFrom_openingTag total state name names rest
        rw [if_pos (by simpa [← lower] using isVoid), read, if_pos (by simpa using isVoid)]
      · have other : tag ∉ voidTags := fun h => isVoid (toLower_mem_voidTags h)
        obtain ⟨offset, read⟩ := readFrom_openingTag total state name names
          (Text.bytes (writtenAll kids) ++ (Text.bytes ("</" ++ tag ++ ">") ++ rest))
        have stops : Stops (Text.bytes ("</" ++ tag ++ ">") ++ rest) := by
          have opened : Text.bytes "</" = [byteOf '<', byteOf '/'] := by decide +kernel
          rw [Text.bytes_append, Text.bytes_append, opened]
          rintro b ⟨⟩
          rfl
        have below := readFrom_writtenAll total each apart
          { state with stack := ⟨tag, attributes, [], offset⟩ :: state.stack } stops
        rw [foldl_add, List.nil_append] at below
        have grouped : openingTag tag attributes ++ writtenAll kids ++ "</" ++ tag ++ ">" =
            openingTag tag attributes ++ (writtenAll kids ++ ("</" ++ tag ++ ">")) := by
          simp only [String.append_assoc]
        rw [if_neg (by simp [other]), grouped, Text.bytes_append, Text.bytes_append,
          List.append_assoc, List.append_assoc, read, if_neg (by simpa using isVoid), below,
          readFrom_closingTag total state name]

theorem readFrom_writtenAll (total : Nat) : ∀ {kids : List Markup},
    (∀ kid ∈ kids, kid.Readable) →
      (kids.IsChain fun a b => ¬(a.isText = true ∧ b.isText = true)) → ∀ (state : Reading)
        {rest : List UInt8}, Stops rest →
          readFrom total state (Text.bytes (writtenAll kids) ++ rest) =
            readFrom total (kids.foldl Reading.add state) rest
  | [], _, _, state, rest, _ => rfl
  | m :: ms, each, apart, state, rest, stops => by
    obtain ⟨first, others⟩ := List.forall_mem_cons.mp each
    have here := readFrom_written total first state (stops_writtenAll apart stops)
    have later := readFrom_writtenAll total others apart.tail (state.add m) stops
    rw [writtenAll, Text.bytes_append, List.append_assoc, here, later, List.foldl_cons]

end

end Markup

/-- What a document writes for a tree is read back as that tree and nothing more. -/
theorem Document.parseFragment_markup {doc : Document} {id : NodeId} {m : Markup}
    (shown : doc.Shows id m) (readable : m.Readable) :
    Markup.parseFragment (doc.markup id) = .ok [m] := by
  have ends : Markup.Stops [] := fun _ mem => by cases mem
  have whole := Markup.readFrom_written (Text.bytes m.written).length readable {} fun _ => ends
  rw [List.append_nil] at whole
  rw [Document.markup_eq shown, Markup.parseFragment, whole, Markup.readFrom]
  rfl

/-- Quotes, entities, a span with a tag in it, dashes, a void element and letters of every width. -/
theorem Document.parseFragment_markup_page :
    let doc := (new false).performAll
      [.createElement "p", .setAttribute ⟨0, 1⟩ "@on.x" "'a' \"b\" &lt; é",
        .createText "&$\x7ba<b\x7d→𝄞$", .createComment "->-", .createElement "BR-",
        .createElement "br", .appendChild ⟨0, 1⟩ ⟨1, 1⟩, .appendChild ⟨0, 1⟩ ⟨2, 1⟩,
        .appendChild ⟨0, 1⟩ ⟨3, 1⟩, .appendChild ⟨3, 1⟩ ⟨4, 1⟩]
    let tree : Markup := .element "p" [("@on.x", "'a' \"b\" &lt; é")]
      [.text "&$\x7ba<b\x7d→𝄞$", .comment "->-", .element "BR-" [] [.element "br" [] []]]
    doc.Shows ⟨0, 1⟩ tree ∧ tree.Readable ∧
      Markup.parseFragment (doc.markup ⟨0, 1⟩) = .ok [tree] := by
  intro doc tree
  have shown : doc.Shows ⟨0, 1⟩ tree :=
    ⟨_, rfl, rfl, rfl, ⟨_, rfl, ⟨_, rfl, trivial⟩, trivial⟩, trivial⟩
  have word (kind : Char → Bool) (s : String) (solid : s ≠ "") (all : s.toList.all kind = true) :
      Markup.IsWord kind s := ⟨solid, List.all_eq_true.mp all⟩
  have void : Markup.Readable (.element "br" [] []) :=
    .element (word _ _ (by decide) (by decide +kernel)) (by simp)
      (fun _ => ⟨by decide +kernel, rfl⟩) .nil (by simp)
  have inner : Markup.Readable (.element "BR-" [] [.element "br" [] []]) :=
    .element (word _ _ (by decide) (by decide +kernel)) (by simp)
      (fun h => absurd h (by decide +kernel)) (.singleton _) (by simpa using void)
  have text : Markup.Readable (.text "&$\x7ba<b\x7d→𝄞$") :=
    .text (by decide) ⟨⟨['&'], [(['a', '<', 'b'], ['→', '𝄞', '$'])]⟩, by cbv⟩
  have comment : Markup.Readable (.comment "->-") := .comment (by decide +kernel)
  have readable : tree.Readable := by
    refine .element (word _ _ (by decide) (by decide +kernel)) ?_
      (fun h => absurd h (by decide +kernel)) ?_ ?_
    · simpa using word Markup.isNameChar "@on.x" (by decide) (by decide +kernel)
    · decide
    · simp [text, comment, inner]
  exact ⟨shown, readable, parseFragment_markup shown readable⟩

end LiveTemplate
