import LiveTemplate.Proofs.Links

/-!
# LiveTemplate.Proofs.Operations

The operations of a document as data, and the documents that any sequence of them can reach.

* `get?_setAttribute`, `get?_setText`, ...: every write as a change of one node.
* `Operation.perform`: one public operation, on whatever ids.
* `performAll_linked`: the link invariant of every document that can come about.
-/

namespace LiveTemplate

/-! ## Writes as changes of a content -/

namespace Content

def withAttribute (name value : String) : Content → Content
  | .element tag attributes properties =>
    .element tag (Document.setEntry name value attributes) properties
  | c => c

def withoutAttribute (name : String) : Content → Content
  | .element tag attributes properties =>
    .element tag (attributes.filter (·.1 ≠ name)) properties
  | c => c

def withProperty (name : String) (value : Value) : Content → Content
  | .element tag attributes properties => .element tag attributes (properties.insert name value)
  | c => c

/-- Elements have no text of their own. -/
def withText (content : String) : Content → Content
  | .text _ => .text content
  | .comment _ => .comment content
  | c => c

end Content

namespace Document

theorem mem_names_setEntry {name value other : String} {entries : List (String × String)} :
    other ∈ (setEntry name value entries).map Prod.fst ↔
      other = name ∨ other ∈ entries.map Prod.fst := by
  induction entries with
  | nil => simp [setEntry]
  | cons entry rest ih =>
    obtain ⟨key, held⟩ := entry
    simp only [setEntry]
    split
    · rename_i same
      subst same
      simp
    · simp only [List.map_cons, List.mem_cons, ih]
      constructor
      · rintro (h | h | h) <;> simp [h]
      · rintro (h | h | h) <;> simp [h]

theorem nodup_setEntry {name value : String} {entries : List (String × String)}
    (h : (entries.map Prod.fst).Nodup) : ((setEntry name value entries).map Prod.fst).Nodup := by
  induction entries with
  | nil => simp [setEntry]
  | cons entry rest ih =>
    obtain ⟨key, held⟩ := entry
    obtain ⟨fresh, distinct⟩ := List.nodup_cons.mp h
    simp only [setEntry]
    split
    · rename_i same
      subst same
      exact h
    · rename_i other
      refine List.nodup_cons.mpr ⟨?_, ih distinct⟩
      intro hm
      rcases mem_names_setEntry.mp hm with e | hm
      · exact other e
      · exact fresh hm

theorem distinctNames_withAttribute {c : Content} (h : DistinctNames c) (name value : String) :
    DistinctNames (c.withAttribute name value) := by
  cases c with
  | element tag attributes properties => exact nodup_setEntry h
  | text content => exact h
  | comment content => exact h

theorem distinctNames_withoutAttribute {c : Content} (h : DistinctNames c) (name : String) :
    DistinctNames (c.withoutAttribute name) := by
  cases c with
  | element tag attributes properties =>
    exact List.Nodup.sublist (List.Sublist.map _ List.filter_sublist) h
  | text content => exact h
  | comment content => exact h

theorem distinctNames_withProperty {c : Content} (h : DistinctNames c) (name : String)
    (value : Value) : DistinctNames (c.withProperty name value) := by
  cases c <;> exact h

theorem distinctNames_withText {c : Content} (h : DistinctNames c) (content : String) :
    DistinctNames (c.withText content) := by
  cases c with
  | element tag attributes properties => exact h
  | text content => trivial
  | comment content => trivial

/-- A change that leaves the node as it is. -/
theorem map_at_eq_self {doc : Document} {id : NodeId} {f : Node → Node}
    (h : ∀ node, doc.get? id = some node → f node = node) (x : NodeId) :
    (if x = id then (doc.get? x).map f else doc.get? x) = doc.get? x := by
  split
  · rename_i same
    subst same
    cases hx : doc.get? x with
    | none => rfl
    | some node => rw [Option.map_some, h node hx]
  · rfl

/-- Writes of a content: each either changes the content of a live node or does nothing, and what
it does is `g`. -/
theorem get?_write {doc doc' : Document} {id : NodeId} (g : Content → Content)
    (hlive : ∀ node, doc.get? id = some node →
      (∀ x, doc'.get? x = (doc.modify id ({ · with content := g node.content })).get? x) ∨
        doc' = doc ∧ g node.content = node.content)
    (hdead : doc.get? id = none → doc' = doc) (x : NodeId) :
    doc'.get? x =
      if x = id then (doc.get? x).map fun n => { n with content := g n.content } else doc.get? x := by
  cases h : doc.get? id with
  | none =>
    rw [hdead h]
    exact (map_at_eq_self (fun node hnode => by rw [h] at hnode; cases hnode) x).symm
  | some node =>
    rcases hlive node h with hdone | ⟨rfl, hsame⟩
    · rw [hdone, get?_modify]
      split
      · rename_i same
        rw [same, h]
        rfl
      · rfl
    · refine (map_at_eq_self (fun n hn => ?_) x).symm
      rw [h] at hn
      cases hn
      rw [hsame]

theorem get?_setAttribute (doc : Document) (id : NodeId) (name value : String) (x : NodeId) :
    (doc.setAttribute id name value).get? x =
      if x = id then (doc.get? x).map fun n => { n with content := n.content.withAttribute name value }
      else doc.get? x := by
  refine get?_write (Content.withAttribute name value) ?_ ?_ x
  · intro node h
    obtain ⟨content, _, _, _, _, _⟩ := node
    cases content with
    | element tag attributes properties => exact .inl fun x => by simp [setAttribute, h, Content.withAttribute]
    | text content => exact .inr ⟨by simp [setAttribute, h], rfl⟩
    | comment content => exact .inr ⟨by simp [setAttribute, h], rfl⟩
  · intro h
    simp [setAttribute, h]

theorem get?_removeAttribute (doc : Document) (id : NodeId) (name : String) (x : NodeId) :
    (doc.removeAttribute id name).get? x =
      if x = id then (doc.get? x).map fun n => { n with content := n.content.withoutAttribute name }
      else doc.get? x := by
  refine get?_write (Content.withoutAttribute name) ?_ ?_ x
  · intro node h
    obtain ⟨content, _, _, _, _, _⟩ := node
    cases content with
    | element tag attributes properties => exact .inl fun x => by simp [removeAttribute, h, Content.withoutAttribute]
    | text content => exact .inr ⟨by simp [removeAttribute, h], rfl⟩
    | comment content => exact .inr ⟨by simp [removeAttribute, h], rfl⟩
  · intro h
    simp [removeAttribute, h]

theorem get?_setProperty (doc : Document) (id : NodeId) (name : String) (value : Value)
    (x : NodeId) :
    (doc.setProperty id name value).get? x =
      if x = id then (doc.get? x).map fun n => { n with content := n.content.withProperty name value }
      else doc.get? x := by
  refine get?_write (Content.withProperty name value) ?_ ?_ x
  · intro node h
    obtain ⟨content, _, _, _, _, _⟩ := node
    cases content with
    | element tag attributes properties => exact .inl fun x => by simp [setProperty, h, Content.withProperty]
    | text content => exact .inr ⟨by simp [setProperty, h], rfl⟩
    | comment content => exact .inr ⟨by simp [setProperty, h], rfl⟩
  · intro h
    simp [setProperty, h]

theorem get?_setText (doc : Document) (id : NodeId) (content : String) (x : NodeId) :
    (doc.setText id content).get? x =
      if x = id then (doc.get? x).map fun n => { n with content := n.content.withText content }
      else doc.get? x := by
  refine get?_write (Content.withText content) ?_ ?_ x
  · intro node h
    obtain ⟨held, _, _, _, _, _⟩ := node
    cases held with
    | element tag attributes properties => exact .inr ⟨by simp [setText, h], rfl⟩
    | text held => exact .inl fun x => by simp [setText, h, Content.withText]
    | comment held => exact .inl fun x => by simp [setText, h, Content.withText]
  · intro h
    simp [setText, h]

theorem get?_setHandler (doc : Document) (id : NodeId) (event : String) (f : Function)
    (x : NodeId) :
    (doc.setHandler id event f).get? x =
      if x = id then (doc.get? x).map fun n => { n with handlers := n.handlers.insert event f }
      else doc.get? x := by
  unfold setHandler
  split
  · exact get?_modify doc id _ x
  · rename_i dead
    refine (map_at_eq_self (fun node hnode => ?_) x).symm
    exact absurd (contains_iff.mpr ⟨node, hnode⟩) dead

theorem get?_setHandlerData (doc : Document) (id : NodeId) (event : String) (args : List Value)
    (x : NodeId) :
    (doc.setHandlerData id event args).get? x =
      if x = id then
        (doc.get? x).map fun n => { n with handlerData := n.handlerData.insert event args }
      else doc.get? x := by
  unfold setHandlerData
  split
  · exact get?_modify doc id _ x
  · rename_i dead
    refine (map_at_eq_self (fun node hnode => ?_) x).symm
    exact absurd (contains_iff.mpr ⟨node, hnode⟩) dead

theorem get?_setAnchors (doc : Document) (root : NodeId) (anchors : List NodeId) (x : NodeId) :
    (doc.setAnchors root anchors).get? x =
      if x = root then (doc.get? x).map fun n => { n with anchors := some anchors }
      else doc.get? x :=
  get?_modify doc root _ x

/-! ## Soundness -/

/-- What every document that comes about by its operations satisfies. -/
structure Sound (doc : Document) : Prop where
  slots : doc.nodes.Sound
  links : doc.Linked

theorem Sound.record {doc : Document} (h : doc.Sound) (m : Mutation) : (doc.record m).Sound :=
  ⟨h.slots, ⟨h.links.listed, h.links.pointsBack, h.links.distinctNames⟩⟩

theorem get?_insert {doc : Document} (h : doc.Sound) (content : Content) (x : NodeId) :
    (doc.insert content).2.get? x =
      if x = (doc.insert content).1 then some { content } else doc.get? x :=
  (Slots.insert_spec h.slots _).2 x

/-- A new node takes the id of no live one. -/
theorem get?_insert_fst {doc : Document} (h : doc.Sound) (content : Content) :
    doc.get? (doc.insert content).1 = none :=
  (Slots.insert_spec h.slots _).1

theorem Sound.insert {doc : Document} (h : doc.Sound) {content : Content}
    (hnames : DistinctNames content) : (doc.insert content).2.Sound := by
  have hget := get?_insert h content
  have hfresh := get?_insert_fst h content
  have old {x : NodeId} {node : Node} (hx : doc.get? x = some node) :
      (doc.insert content).2.get? x = some node := by
    rw [hget, if_neg ?_]
    · exact hx
    · rintro rfl
      rw [hfresh] at hx
      cases hx
  refine ⟨Slots.sound_insert h.slots _, ?_, ?_, ?_⟩
  · intro n p node hn hp
    rw [hget] at hn
    split at hn
    · cases hn; cases hp
    · obtain ⟨above, ha, hcount⟩ := h.links.listed hn hp
      exact ⟨above, old ha, hcount⟩
  · intro p c node hp hc
    rw [hget] at hp
    split at hp
    · cases hp; cases hc
    · obtain ⟨below, hb, hback⟩ := h.links.pointsBack hp hc
      exact ⟨below, old hb, hback⟩
  · intro n node tag attributes properties hn hcontent
    rw [hget] at hn
    split at hn
    · cases hn
      exact distinctNames_iff.mp hnames hcontent
    · exact h.links.distinctNames hn hcontent

theorem Sound.createElement {doc : Document} (h : doc.Sound) (tag : String) :
    (doc.createElement tag).2.Sound := by
  have distinct : DistinctNames (.element tag [] []) := List.nodup_nil
  exact (h.insert distinct).record _

theorem Sound.createText {doc : Document} (h : doc.Sound) (content : String) :
    (doc.createText content).2.Sound := by
  have distinct : DistinctNames (.text content) := trivial
  exact (h.insert distinct).record _

theorem Sound.createComment {doc : Document} (h : doc.Sound) (content : String) :
    (doc.createComment content).2.Sound := by
  have distinct : DistinctNames (.comment content) := trivial
  exact (h.insert distinct).record _

/-- Writes that touch neither links nor names. -/
theorem Sound.write {doc doc' : Document} (h : doc.Sound) (hslots : doc'.nodes.Sound)
    {id : NodeId} {f : Node → Node}
    (hget : ∀ x, doc'.get? x = if x = id then (doc.get? x).map f else doc.get? x)
    (hpar : ∀ n, (f n).parent = n.parent) (hkids : ∀ n, (f n).children = n.children)
    (hnames : ∀ n, DistinctNames n.content → DistinctNames (f n).content) : doc'.Sound := by
  refine ⟨hslots, h.links.map_nodes (fun x n => if x = id then f n else n) ?_ ?_ ?_ ?_⟩
  · intro x
    rw [hget]
    split <;> simp
  · intro x n
    split
    · exact hpar n
    · rfl
  · intro x n
    split
    · exact hkids n
    · rfl
  · intro x n hx
    split
    · exact hnames n (h.links.names hx)
    · exact h.links.names hx

theorem sound_modify {doc : Document} (h : doc.nodes.Sound) (id : NodeId) (f : Node → Node) :
    (doc.modify id f).nodes.Sound := Slots.sound_modify h id f

theorem Sound.setAttribute {doc : Document} (h : doc.Sound) (id : NodeId) (name value : String) :
    (doc.setAttribute id name value).Sound := by
  refine h.write ?_ (get?_setAttribute doc id name value) (fun _ => rfl) (fun _ => rfl)
    fun n hn => distinctNames_withAttribute hn name value
  unfold Document.setAttribute
  split
  · exact sound_modify h.slots id _
  · exact h.slots

theorem Sound.removeAttribute {doc : Document} (h : doc.Sound) (id : NodeId) (name : String) :
    (doc.removeAttribute id name).Sound := by
  refine h.write ?_ (get?_removeAttribute doc id name) (fun _ => rfl) (fun _ => rfl)
    fun n hn => distinctNames_withoutAttribute hn name
  unfold Document.removeAttribute
  split
  · exact sound_modify h.slots id _
  · exact h.slots

theorem Sound.setProperty {doc : Document} (h : doc.Sound) (id : NodeId) (name : String)
    (value : Value) : (doc.setProperty id name value).Sound := by
  refine h.write ?_ (get?_setProperty doc id name value) (fun _ => rfl) (fun _ => rfl)
    fun n hn => distinctNames_withProperty hn name value
  unfold Document.setProperty
  split
  · exact sound_modify h.slots id _
  · exact h.slots

theorem Sound.setText {doc : Document} (h : doc.Sound) (id : NodeId) (content : String) :
    (doc.setText id content).Sound := by
  refine h.write ?_ (get?_setText doc id content) (fun _ => rfl) (fun _ => rfl)
    fun n hn => distinctNames_withText hn content
  unfold Document.setText
  split
  · exact sound_modify h.slots id _
  · exact sound_modify h.slots id _
  · exact h.slots

theorem Sound.setHandler {doc : Document} (h : doc.Sound) (id : NodeId) (event : String)
    (f : Function) : (doc.setHandler id event f).Sound := by
  refine h.write ?_ (get?_setHandler doc id event f) (fun _ => rfl) (fun _ => rfl) fun n hn => hn
  unfold Document.setHandler
  split
  · exact sound_modify h.slots id _
  · exact h.slots

theorem Sound.setHandlerData {doc : Document} (h : doc.Sound) (id : NodeId) (event : String)
    (args : List Value) : (doc.setHandlerData id event args).Sound := by
  refine h.write ?_ (get?_setHandlerData doc id event args) (fun _ => rfl) (fun _ => rfl)
    fun n hn => hn
  unfold Document.setHandlerData
  split
  · exact sound_modify h.slots id _
  · exact h.slots

theorem Sound.setAnchors {doc : Document} (h : doc.Sound) (root : NodeId)
    (anchors : List NodeId) : (doc.setAnchors root anchors).Sound :=
  h.write (sound_modify h.slots root _) (get?_setAnchors doc root anchors) (fun _ => rfl)
    (fun _ => rfl) fun _ hn => hn

theorem Sound.detach {doc : Document} (h : doc.Sound) (id : NodeId) : (doc.detach id).Sound := by
  refine ⟨?_, h.links.detach id⟩
  unfold Document.detach
  split
  · exact h.slots
  · exact sound_modify (sound_modify h.slots id _) _ _

theorem Sound.appendChild {doc : Document} (h : doc.Sound) (parent child : NodeId) :
    (doc.appendChild parent child).Sound := by
  unfold Document.appendChild
  split
  · rename_i both
    rw [Bool.and_eq_true] at both
    have hd := h.detach child
    have linked : ((doc.detach child).attach parent child).Sound := by
      refine ⟨?_, ?_⟩
      · exact sound_modify (sound_modify hd.slots child _) parent _
      · refine hd.links.attach ?_ ?_ (parent?_detach doc child)
        · rw [contains_detach]; exact both.1
        · rw [contains_detach]; exact both.2
    exact linked.record _
  · exact h

theorem Sound.replaceNode {doc : Document} (h : doc.Sound) (old new : NodeId) :
    (doc.replaceNode old new).Sound := by
  unfold Document.replaceNode
  split
  · exact h
  · rename_i hne
    simp only [Bool.or_eq_true, decide_eq_true_eq, Bool.not_eq_true', not_or,
      Bool.not_eq_false] at hne
    split
    · exact h
    · rename_i parent hparent
      have hd := h.detach new
      have linked : ((doc.detach new).supplant parent old new).Sound := by
        refine ⟨?_, ?_⟩
        · exact sound_modify (sound_modify (sound_modify hd.slots parent _) old _) new _
        · refine hd.links.supplant hne.1 ?_ ?_ (parent?_detach doc new)
          · rw [parent?_detach_of_ne hne.1]; exact hparent
          · rw [contains_detach]; exact hne.2
      exact linked.record _

theorem Sound.removeNode {doc : Document} (h : doc.Sound) (id : NodeId) :
    (doc.removeNode id).Sound := by
  unfold Document.removeNode
  split
  · exact (h.detach id).record _
  · exact h

theorem Sound.release {doc : Document} (h : doc.Sound) (id : NodeId) : (doc.release id).2.Sound := by
  unfold Document.release
  split
  · have hd := h.detach id
    exact Sound.record ⟨freeAll_sound hd.slots, hd.links.free (parent?_detach doc id) 0⟩ _
  · exact h

/-! ## Any sequence of operations -/

/-- A call of a public operation. The ids may be live, stale or made up. -/
inductive Operation where
  | createElement (tag : String)
  | createText (content : String)
  | createComment (content : String)
  | setAttribute (id : NodeId) (name value : String)
  | removeAttribute (id : NodeId) (name : String)
  | setProperty (id : NodeId) (name : String) (value : Value)
  | setText (id : NodeId) (content : String)
  | appendChild (parent child : NodeId)
  | replaceNode (old new : NodeId)
  | removeNode (id : NodeId)
  | release (id : NodeId)
  | setHandler (id : NodeId) (event : String) (f : Function)
  | setHandlerData (id : NodeId) (event : String) (args : List Value)
  | setAnchors (root : NodeId) (anchors : List NodeId)
  | addListener (event : String) (listener : Listener)
  | ensureListening (event : String)
  | takeJournal

namespace Operation

def perform (doc : Document) : Operation → Document
  | createElement tag => (doc.createElement tag).2
  | createText content => (doc.createText content).2
  | createComment content => (doc.createComment content).2
  | setAttribute id name value => doc.setAttribute id name value
  | removeAttribute id name => doc.removeAttribute id name
  | setProperty id name value => doc.setProperty id name value
  | setText id content => doc.setText id content
  | appendChild parent child => doc.appendChild parent child
  | replaceNode old new => doc.replaceNode old new
  | removeNode id => doc.removeNode id
  | release id => (doc.release id).2
  | setHandler id event f => doc.setHandler id event f
  | setHandlerData id event args => doc.setHandlerData id event args
  | setAnchors root anchors => doc.setAnchors root anchors
  | addListener event listener => doc.addListener event listener
  | ensureListening event => (doc.ensureListening event).2
  | takeJournal => doc.takeJournal.2

end Operation

def performAll (doc : Document) (operations : List Operation) : Document :=
  operations.foldl Operation.perform doc

/-- Soundness is a matter of the nodes alone. -/
theorem Sound.of_nodes_eq {doc doc' : Document} (h : doc.Sound) (hnodes : doc'.nodes = doc.nodes) :
    doc'.Sound := by
  obtain ⟨nodes, journal, listeners, listening⟩ := doc'
  subst hnodes
  exact ⟨h.slots, h.links.listed, h.links.pointsBack, h.links.distinctNames⟩

theorem Sound.perform {doc : Document} (h : doc.Sound) (operation : Operation) :
    (operation.perform doc).Sound := by
  cases operation with
  | createElement tag => exact h.createElement tag
  | createText content => exact h.createText content
  | createComment content => exact h.createComment content
  | setAttribute id name value => exact h.setAttribute id name value
  | removeAttribute id name => exact h.removeAttribute id name
  | setProperty id name value => exact h.setProperty id name value
  | setText id content => exact h.setText id content
  | appendChild parent child => exact h.appendChild parent child
  | replaceNode old new => exact h.replaceNode old new
  | removeNode id => exact h.removeNode id
  | release id => exact h.release id
  | setHandler id event f => exact h.setHandler id event f
  | setHandlerData id event args => exact h.setHandlerData id event args
  | setAnchors root anchors => exact h.setAnchors root anchors
  | addListener event listener => exact h.of_nodes_eq rfl
  | ensureListening event =>
    simp only [Operation.perform, Document.ensureListening]
    split
    · exact h
    · exact h.of_nodes_eq rfl
  | takeJournal => exact h.of_nodes_eq rfl

theorem Sound.performAll {doc : Document} (h : doc.Sound) (operations : List Operation) :
    (doc.performAll operations).Sound := by
  induction operations generalizing doc with
  | nil => exact h
  | cons operation rest ih => exact ih (h.perform operation)

/-- A new document, with or without a journal. -/
def new (journaling : Bool) : Document := if journaling then .withJournal else .empty

theorem sound_new (journaling : Bool) : (new journaling).Sound := by
  have nothing (x : NodeId) : (new journaling).get? x = none := by
    cases journaling <;> simp [new, withJournal, empty, get?, Slots.get?, Slots.empty]
  refine ⟨?_, ?_, ?_, ?_⟩
  · cases journaling <;> exact Slots.sound_empty
  · intro n p node hn
    rw [nothing] at hn; cases hn
  · intro p c node hp
    rw [nothing] at hp; cases hp
  · intro n node tag attributes properties hn
    rw [nothing] at hn; cases hn

/-- The documents that operations can produce. -/
def Reachable (doc : Document) : Prop :=
  ∃ journaling operations, doc = (new journaling).performAll operations

theorem Reachable.sound {doc : Document} (h : doc.Reachable) : doc.Sound := by
  obtain ⟨journaling, operations, rfl⟩ := h
  exact (sound_new journaling).performAll operations

/-- After any operations on any ids, a live node with a parent stands exactly once among the
children of that live parent, children are live and point back, and the attribute names of an
element are distinct. -/
theorem performAll_linked (journaling : Bool) (operations : List Operation) :
    ((new journaling).performAll operations).Linked :=
  ((sound_new journaling).performAll operations).links

end Document
end LiveTemplate
