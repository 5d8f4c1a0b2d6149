import LiveTemplate.Proofs.Frames
import LiveTemplate.Proofs.Host

/-!
# LiveTemplate.Proofs.Writes

One pass over the bindings of a template. What a pass does to a node is the sequence of writes of
the bindings that reach it, in their order.

  * `Action.putContent`, `Action.putData`   one write, as a change of one node
  * `Document.Written`                      the writes that each node got
  * `applyAll_written`                      what the second half of a pass does
-/

namespace LiveTemplate

/-- A change of what a node holds. -/
inductive Effect where
  | nothing
  | setText (content : String)
  | setAttribute (name value : String)
  | setProperty (name : String) (value : Value)

def Effect.on : Effect → Content → Content
  | .nothing, c => c
  | .setText content, c => c.withText content
  | .setAttribute name value, c => c.withAttribute name value
  | .setProperty name value, c => c.withProperty name value

/-- Elements take attributes and properties, all else takes text. -/
def Content.isElement : Content → Bool
  | .element _ _ _ => true
  | _ => false

theorem Effect.isElement_on (effect : Effect) (c : Content) :
    (effect.on c).isElement = c.isElement := by
  cases effect <;> cases c <;> rfl

namespace Action

/-- What a write changes in the content of its node. -/
def effect (action : Action) (computed : Computed) : Effect :=
  match action with
  | .setText _ => .setText computed.text
  | .replaceClass _ => .setAttribute "class" computed.text
  | .setAttribute name _ => .setAttribute name computed.text
  | .applyDirective _ .toggle _ =>
    match computed.asValue? with
    | some v => .setProperty displayProperty (.string (if v.isTruthy then "" else "none"))
    | none => .nothing
  | .applyDirective _ (.host _) _ | .setEventData _ _ => .nothing

/-- A write reads the text of what was computed, and whether a single value counts as true. -/
theorem effect_congr (action : Action) {a b : Computed} (text : a.text = b.text)
    (truth : a.asValue?.map Value.isTruthy = b.asValue?.map Value.isTruthy) :
    action.effect a = action.effect b := by
  cases action with
  | applyDirective name directive e =>
    cases directive with
    | host other => rfl
    | toggle =>
      simp only [effect]
      cases ha : a.asValue? <;> cases hb : b.asValue? <;> simp_all
  | setEventData event args => rfl
  | _ => simp only [effect, text]

def putContent (action : Action) (computed : Computed) (c : Content) : Content :=
  (action.effect computed).on c

/-- What a write makes of the arguments kept on its node. -/
def putData (action : Action) (computed : Computed) (data : Table (List Value)) :
    Table (List Value) :=
  match action with
  | .setEventData event _ => data.insert event computed.toArgs
  | _ => data

/-- A write on a document. The host's directives are not part of it. -/
def writeTo (action : Action) (id : NodeId) (computed : Computed) (doc : Document) : Document :=
  match action with
  | .setText _ => doc.setText id computed.text
  | .replaceClass _ => doc.setAttribute id "class" computed.text
  | .setAttribute name _ => doc.setAttribute id name computed.text
  | .setEventData event _ => doc.setHandlerData id event computed.toArgs
  | .applyDirective _ .toggle _ =>
    match computed.asValue? with
    | some v =>
      doc.setProperty id displayProperty (.string (if v.isTruthy then "" else "none"))
    | none => doc
  | .applyDirective _ (.host _) _ => doc

/-- Left to the host. -/
def isHosted : Action → Bool
  | .applyDirective _ (.host _) _ => true
  | _ => false

/-- A directive only if it is the one that shows and hides. -/
def isBuiltin : Action → Bool
  | .applyDirective name directive _ => name = "show" && directive = .toggle
  | _ => true

theorem not_hosted_of_builtin {action : Action} (h : action.isBuiltin = true) :
    action.isHosted = false := by
  cases action with
  | applyDirective name directive e =>
    cases directive with
    | toggle => rfl
    | host other => simp [isBuiltin] at h
  | _ => rfl

end Action

/-- The content of a node after some writes. -/
def contentAfter (writes : List (Binding × Computed)) (c : Content) : Content :=
  writes.foldl (fun c p => p.1.action.putContent p.2 c) c

theorem isElement_contentAfter (writes : List (Binding × Computed)) (c : Content) :
    (contentAfter writes c).isElement = c.isElement := by
  induction writes generalizing c with
  | nil => rfl
  | cons p rest ih => exact (ih _).trans (Effect.isElement_on _ c)

/-- The arguments kept on a node after some writes. -/
def dataAfter (writes : List (Binding × Computed)) (data : Table (List Value)) :
    Table (List Value) :=
  writes.foldl (fun data p => p.1.action.putData p.2 data) data

namespace Document

/-- A write on a node, as opposed to a change of links, handlers or listeners. -/
def Operation.isWrite : Operation → Bool
  | .setAttribute _ _ _ | .removeAttribute _ _ | .setProperty _ _ _ | .setText _ _ => true
  | _ => false

/-- The writes that each node got, in order. Nothing else changed; where host directives are in
play, the contents may have. -/
structure Written (strict : Prop) (writes : NodeId → List (Binding × Computed))
    (doc doc' : Document) : Prop where
  nodes : ∀ x node, doc.get? x = some node → ∃ content,
    doc'.get? x =
      some { node with content, handlerData := dataAfter (writes x) node.handlerData } ∧
    (strict → content = contentAfter (writes x) node.content)
  dead : ∀ x, doc.get? x = none → doc'.get? x = none
  sound : doc.Sound → doc'.Sound
  hearing : doc'.hearing = doc.hearing

namespace Written

variable {strict : Prop} {writes writes' : NodeId → List (Binding × Computed)}
  {a b c : Document}

theorem refl (doc : Document) : doc.Written strict (fun _ => []) doc :=
  ⟨fun _ node found => ⟨node.content, found, fun _ => rfl⟩, fun _ h => h, id, rfl⟩

theorem trans (h : a.Written strict writes b) (k : b.Written strict writes' c) :
    a.Written strict (fun x => writes x ++ writes' x) c := by
  refine ⟨fun x node found => ?_, fun x gone => k.dead x (h.dead x gone),
    fun sound => k.sound (h.sound sound), k.hearing.trans h.hearing⟩
  obtain ⟨content, found', same⟩ := h.nodes x node found
  obtain ⟨content', found'', same'⟩ := k.nodes x _ found'
  refine ⟨content', ?_, fun hs => ?_⟩
  · rw [found'', dataAfter, dataAfter, dataAfter, List.foldl_append]
  · rw [same' hs, same hs, contentAfter, contentAfter, contentAfter, List.foldl_append]

theorem anchors (h : a.Written strict writes b) (root : NodeId) :
    b.anchors? root = a.anchors? root := by
  unfold anchors?
  cases found : a.get? root with
  | none => rw [h.dead root found]
  | some node =>
    obtain ⟨content, found', _⟩ := h.nodes root node found
    rw [found']
    rfl

theorem parent (h : a.Written strict writes b) (x : NodeId) : b.parent? x = a.parent? x := by
  unfold parent?
  cases found : a.get? x with
  | none => rw [h.dead x found]
  | some node =>
    obtain ⟨content, found', _⟩ := h.nodes x node found
    rw [found']
    rfl

theorem node? (h : a.Written strict writes b) (root : NodeId) (binding : Binding) :
    binding.node? b root = binding.node? a root := by
  unfold Binding.node? anchor?
  rw [h.anchors root]

end Written

/-- A write that changes contents only. -/
theorem written_of_content {doc doc' : Document} {id : NodeId} {g : Content → Content}
    (get : ∀ x, doc'.get? x =
      if x = id then (doc.get? x).map fun n => { n with content := g n.content } else doc.get? x)
    (sound : doc.Sound → doc'.Sound) (hearing : doc'.hearing = doc.hearing) :
    doc.Written False (fun _ => []) doc' := by
  refine ⟨fun x node found => ?_, fun x gone => ?_, sound, hearing⟩
  · rw [get, found]
    split
    · exact ⟨_, rfl, False.elim⟩
    · exact ⟨node.content, rfl, False.elim⟩
  · rw [get, gone]
    split <;> rfl

theorem written_perform {operation : Operation} (write : operation.isWrite = true)
    (doc : Document) : doc.Written False (fun _ => []) (operation.perform doc) := by
  cases operation with
  | setAttribute id name value =>
    exact written_of_content (get?_setAttribute doc id name value)
      (fun h => h.setAttribute id name value) (hearing_setAttribute doc id name value)
  | removeAttribute id name =>
    exact written_of_content (get?_removeAttribute doc id name)
      (fun h => h.removeAttribute id name) (hearing_removeAttribute doc id name)
  | setProperty id name value =>
    exact written_of_content (get?_setProperty doc id name value)
      (fun h => h.setProperty id name value) (hearing_setProperty doc id name value)
  | setText id content =>
    exact written_of_content (get?_setText doc id content)
      (fun h => h.setText id content) (hearing_setText doc id content)
  | _ => cases write

theorem written_performAll {operations : List Operation}
    (writes : ∀ o ∈ operations, o.isWrite = true) (doc : Document) :
    doc.Written False (fun _ => []) (doc.performAll operations) := by
  induction operations generalizing doc with
  | nil => exact .refl doc
  | cons operation rest ih =>
    exact (written_perform (writes operation List.mem_cons_self) doc).trans
      (ih (fun o ho => writes o (List.mem_cons_of_mem _ ho)) (operation.perform doc))

end Document

variable {κ : Type}

/-- The host's attribute directives write attributes, properties and text, and what they hold on to
stays consistent. -/
structure Host.Decorates (host : Host κ) (held : κ → Heap) : Prop where
  writes : ∀ name id v s, ∃ operations : List Document.Operation,
    (∀ o ∈ operations, o.isWrite = true) ∧
      (host.apply name id v s).document = s.document.performAll operations
  consistent : ∀ name id v s heap, heap.Covers held s → v.Fits heap →
    ∃ more : Heap, more.Extends heap ∧ more.Covers held (host.apply name id v s)

namespace Binding

open Document

/-- The writes of a single binding on its node. -/
def writeOn (id : NodeId) (p : Binding × Computed) (x : NodeId) : List (Binding × Computed) :=
  if x = id then [p] else []

theorem written_at {strict : Prop} {doc doc' : Document} {id : NodeId} {p : Binding × Computed}
    (get : ∀ x, doc'.get? x =
      if x = id then (doc.get? x).map fun n =>
        { n with
          content := p.1.action.putContent p.2 n.content
          handlerData := p.1.action.putData p.2 n.handlerData }
      else doc.get? x)
    (sound : doc.Sound → doc'.Sound) (hearing : doc'.hearing = doc.hearing) :
    doc.Written strict (writeOn id p) doc' := by
  refine ⟨fun x node found => ?_, fun x gone => ?_, sound, hearing⟩
  · rw [get, found]
    unfold writeOn
    split
    · exact ⟨_, rfl, fun _ => rfl⟩
    · exact ⟨node.content, rfl, fun _ => rfl⟩
  · rw [get, gone]
    split <;> rfl

/-- A write of the library itself is an edit of the document. -/
theorem write_own (host : Host κ) (id : NodeId) (c : Computed) {action : Action}
    (own : action.isHosted = false) (s : Stage κ) :
    write host id c action s = s.edit (action.writeTo id c) := by
  cases action with
  | applyDirective name directive e =>
    cases directive with
    | host name => cases own
    | toggle => cases c <;> rfl
  | _ => rfl

theorem written_writeTo (strict : Prop) (id : NodeId) (b : Binding) (c : Computed)
    (doc : Document) : doc.Written strict (writeOn id (b, c)) (b.action.writeTo id c doc) := by
  obtain ⟨path, target, action, source⟩ := b
  cases action with
  | setText content =>
    exact written_at (get?_setText _ _ _) (fun h => h.setText _ _) (hearing_setText _ _ _)
  | replaceClass content =>
    exact written_at (get?_setAttribute _ _ _ _) (fun h => h.setAttribute _ _ _)
      (hearing_setAttribute _ _ _ _)
  | setAttribute name content =>
    exact written_at (get?_setAttribute _ _ _ _) (fun h => h.setAttribute _ _ _)
      (hearing_setAttribute _ _ _ _)
  | setEventData event args =>
    exact written_at (get?_setHandlerData _ _ _ _) (fun h => h.setHandlerData _ _ _)
      (hearing_setHandlerData _ _ _ _)
  | applyDirective name directive e =>
    have nothing {doc : Document} {f : Node → Node} (same : ∀ n, f n = n) (x : NodeId) :
        doc.get? x = if x = id then (doc.get? x).map f else doc.get? x :=
      (map_at_eq_self (fun n _ => same n) x).symm
    cases directive with
    | host name => exact written_at (nothing fun _ => rfl) (fun h => h) rfl
    | toggle =>
      cases c with
      | value v =>
        exact written_at (get?_setProperty _ _ _ _) (fun h => h.setProperty _ _ _)
          (hearing_setProperty _ _ _ _)
      | args vs => exact written_at (nothing fun _ => rfl) (fun h => h) rfl

/-- A write, by the library or by a directive of the host. -/
theorem write_written {strict coherent : Prop} {host : Host κ} {held : κ → Heap}
    (decorates : strict ∨ host.Decorates held) (id : NodeId) (b : Binding) (c : Computed)
    (builtin : strict → b.action.isBuiltin = true) {s : Stage κ} {heap : Heap}
    (known : coherent → heap.Covers held s ∧ c.Fits heap) :
    s.document.Written strict (writeOn id (b, c)) (write host id c b.action s).document ∧
      ∃ more : Heap, more.Extends heap ∧
        (coherent → more.Covers held (write host id c b.action s)) := by
  cases own : b.action.isHosted with
  | false =>
    rw [write_own host id c own s]
    exact ⟨written_writeTo strict id b c s.document, heap, .refl heap,
      fun hc => ⟨(known hc).1.sound, (known hc).1.held⟩⟩
  | true =>
    have loose : ¬strict := by
      intro hs
      rw [Action.not_hosted_of_builtin (builtin hs)] at own
      cases own
    have decorates := decorates.resolve_left loose
    obtain ⟨path, target, action, source⟩ := b
    cases action with
    | applyDirective name directive e =>
      cases directive with
      | toggle => cases own
      | host name =>
        cases c with
        | args vs =>
          exact ⟨written_writeTo strict id _ (.args vs) s.document, heap, .refl heap,
            fun hc => (known hc).1⟩
        | value v =>
          obtain ⟨operations, writes, same⟩ := decorates.writes name id v s
          have written := written_performAll writes s.document
          rw [← same] at written
          refine ⟨⟨fun x node found => ?_, written.dead, written.sound, written.hearing⟩, ?_⟩
          · obtain ⟨content, found', _⟩ := written.nodes x node found
            refine ⟨content, ?_, fun hs => absurd hs loose⟩
            rw [show (write host id (.value v) (.applyDirective _ (.host name) e) s).document =
              (host.apply name id v s).document from rfl, found']
            unfold writeOn
            split <;> rfl
          · by_cases hc : coherent
            · obtain ⟨covers, fits⟩ := known hc
              obtain ⟨more, grown, covers'⟩ :=
                decorates.consistent name id v s heap covers (fits v List.mem_cons_self)
              exact ⟨more, grown, fun _ => covers'⟩
            · exact ⟨heap, .refl heap, fun hc' => absurd hc' hc⟩
    | _ => cases own

end Binding

namespace Template

open Document

/-- The bindings with a new value. -/
def changes (previous : Option Snapshot) (values : List (Binding × Computed)) :
    List (Binding × Computed) :=
  values.filter fun p => !p.1.isUnchanged previous p.2

/-- The bindings that write to a node. -/
def writesOn (doc : Document) (root : NodeId) (values : List (Binding × Computed)) (x : NodeId) :
    List (Binding × Computed) :=
  values.filter fun p => decide (p.1.node? doc root = some x)

theorem writesOn_cons {doc : Document} {root id : NodeId} {p : Binding × Computed}
    (values : List (Binding × Computed)) (found : p.1.node? doc root = some id) (x : NodeId) :
    writesOn doc root (p :: values) x = Binding.writeOn id p x ++ writesOn doc root values x := by
  unfold writesOn Binding.writeOn
  rw [List.filter_cons, found]
  by_cases same : x = id
  · rw [same]; simp
  · rw [if_neg same, if_neg]
    · rfl
    · simpa using fun h => same h.symm

/-- The second half of a pass: the values that changed are written, each to the node of its
binding. -/
theorem applyAll_written {strict coherent : Prop} {host : Host κ} {held : κ → Heap}
    (decorates : strict ∨ host.Decorates held) (root : NodeId) (previous : Option Snapshot)
    {values : List (Binding × Computed)}
    (builtin : strict → ∀ p ∈ values, p.1.action.isBuiltin = true) {s : Stage κ} {heap : Heap}
    (known : coherent → heap.Covers held s ∧ ∀ p ∈ values, p.2.Fits heap)
    (reached : ∀ p ∈ values, ∃ id, p.1.node? s.document root = some id) :
    ∃ s', applyAll host root previous values s = .ok (changes previous values).length s' ∧
      s.document.Written strict (writesOn s.document root (changes previous values)) s'.document ∧
      ∃ more : Heap, more.Extends heap ∧ (coherent → more.Covers held s') := by
  induction values generalizing s heap with
  | nil => exact ⟨s, rfl, .refl s.document, heap, .refl heap, fun hc => (known hc).1⟩
  | cons p rest ih =>
    have builtin' := fun hs q hq => builtin hs q (List.mem_cons_of_mem p hq)
    have reached' := fun q hq => reached q (List.mem_cons_of_mem p hq)
    by_cases same : p.1.isUnchanged previous p.2 = true
    · have skipped : changes previous (p :: rest) = changes previous rest := by
        unfold changes
        rw [List.filter_cons, same]
        rfl
      rw [skipped, applyAll, if_pos same]
      exact ih builtin' (fun hc => ⟨(known hc).1, fun q hq => (known hc).2 q
        (List.mem_cons_of_mem p hq)⟩) reached'
    · have taken : changes previous (p :: rest) = p :: changes previous rest := by
        unfold changes
        rw [List.filter_cons, Bool.eq_false_of_not_eq_true same]
        rfl
      obtain ⟨id, found⟩ := reached p List.mem_cons_self
      obtain ⟨written, more, grown, covers₁⟩ := Binding.write_written decorates id p.1 p.2
        (fun hs => builtin hs p List.mem_cons_self)
        fun hc => ⟨(known hc).1, (known hc).2 p List.mem_cons_self⟩
      have step : p.1.applyTo host root p.2 s =
          .ok () (Binding.write host id p.2 p.1.action s) := by
        unfold Binding.applyTo
        rw [found]
      -- The writes leave the anchors alone, so the bindings to come reach the same nodes.
      have reach := written.node? root
      obtain ⟨s', run, written', most, grown', covers'⟩ := ih builtin'
        (fun hc => ⟨covers₁ hc, fun q hq => ((known hc).2 q (List.mem_cons_of_mem p hq)).mono grown⟩)
        (fun q hq => by rw [reach]; exact reached' q hq)
      have later : writesOn (Binding.write host id p.2 p.1.action s).document root
          (changes previous rest) = writesOn s.document root (changes previous rest) := by
        funext x
        unfold writesOn
        simp only [reach]
      refine ⟨s', ?_, ?_, most, grown.trans grown', covers'⟩
      · rw [applyAll, if_neg same, bind_of_ok step, bind_of_ok run, taken]
        rfl
      · have both := written.trans written'
        rw [later] at both
        rw [taken, show writesOn s.document root (p :: changes previous rest) = _ from
          funext (writesOn_cons _ found)]
        exact both

end Template
end LiveTemplate
