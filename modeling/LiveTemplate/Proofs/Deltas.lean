import LiveTemplate.Proofs.Lifetimes
import LiveTemplate.Proofs.Tables

/-!
# LiveTemplate.Proofs.Deltas

What a pass enters into the journal. Each binding whose value is new makes one entry, on the node
that was built for it, and nothing else changes. That takes nodes that are still there: a write to
one that is gone is counted all the same, but it is not made and not entered.

  * `Action.entry`                     the entry that a binding makes
  * `Document.enterAll`                a document after the writes of some entries
  * `Document.Survives`                the nodes that an instance writes to are still there
  * `Template.applyAll_enters`         what is written to them
  * `Template.applyAll_of_gone`        what is written to nodes that are gone
  * `Template.update_enters_changes`   the main result
-/

namespace LiveTemplate

variable {κ : Type}

/-! ## Entries -/

/-- The node of an entry after its write. -/
def Mutation.onNode : Mutation → Node → Node
  | .setText _ content, n => { n with content := n.content.withText content }
  | .setAttribute _ name value, n => { n with content := n.content.withAttribute name value }
  | .setProperty _ name value, n => { n with content := n.content.withProperty name value }
  | .setHandlerData _ event args, n => { n with handlerData := n.handlerData.insert event args }
  | _, n => n

/-- The write that an action describes, with the text of the value or the arguments. -/
def Action.entry (action : Action) (id : NodeId) (c : Computed) : Mutation :=
  match action with
  | .setText _ => .setText id c.text
  | .replaceClass _ => .setAttribute id "class" c.text
  | .setAttribute name _ => .setAttribute id name c.text
  | .setEventData event _ => .setHandlerData id event c.toArgs
  | .applyDirective _ _ _ =>
    let shown := c.asValue?.any Value.isTruthy
    .setProperty id displayProperty (.string (if shown then "" else "none"))

theorem Mutation.isElement_onNode (e : Mutation) (n : Node) :
    (e.onNode n).content.isElement = n.content.isElement := by
  obtain ⟨content, parent, children, handlers, handlerData, anchors⟩ := n
  cases e <;> cases content <;> rfl

theorem Mutation.anchors_onNode (e : Mutation) (n : Node) : (e.onNode n).anchors = n.anchors := by
  cases e <;> rfl

namespace Document

/-- Carries out the write of an entry and enters it. -/
def enter (doc : Document) (e : Mutation) : Document := (doc.modify e.node e.onNode).record e

def enterAll (doc : Document) (entries : List Mutation) : Document := entries.foldl enter doc

theorem get?_enter (doc : Document) (e : Mutation) (x : NodeId) :
    (doc.enter e).get? x = if x = e.node then (doc.get? x).map e.onNode else doc.get? x :=
  get?_modify doc e.node e.onNode x

/-- Every node has got the writes of its own entries, and no others. -/
theorem get?_enterAll (doc : Document) (entries : List Mutation) (x : NodeId) :
    (doc.enterAll entries).get? x = (doc.get? x).map fun n =>
      (entries.filter fun e => e.node = x).foldl (fun n e => e.onNode n) n := by
  induction entries generalizing doc with
  | nil => exact Option.map_id'.symm
  | cons e rest ih =>
    rw [show doc.enterAll (e :: rest) = (doc.enter e).enterAll rest from rfl, ih, get?_enter]
    by_cases here : x = e.node
    · rw [if_pos here, Option.map_map, List.filter_cons_of_pos (by simp [here])]
      rfl
    · rw [if_neg here, List.filter_cons_of_neg (by simpa using fun same => here same.symm)]

theorem journal_enterAll (doc : Document) (entries : List Mutation) :
    (doc.enterAll entries).journal = doc.journal.map (· ++ entries.toArray) := by
  induction entries generalizing doc with
  | nil => simp [enterAll]
  | cons e rest ih =>
    rw [show doc.enterAll (e :: rest) = (doc.enter e).enterAll rest from rfl, ih]
    cases h : doc.journal <;> simp [enter, record, modify, h]

theorem hearing_enterAll (doc : Document) (entries : List Mutation) :
    (doc.enterAll entries).hearing = doc.hearing := by
  induction entries generalizing doc with
  | nil => rfl
  | cons e rest ih => exact ih (doc.enter e)

theorem modify_congr {doc : Document} {id : NodeId} {n : Node} {f g : Node → Node}
    (live : doc.get? id = some n) (same : f n = g n) : doc.modify id f = doc.modify id g := by
  have live : doc.nodes.get? id = some n := live
  unfold modify Slots.modify
  rw [live]
  dsimp only
  rw [same]

theorem setAttribute_eq_enter {doc : Document} {id : NodeId} {n : Node}
    (live : doc.get? id = some n) (element : n.content.isElement = true) (name text : String) :
    doc.setAttribute id name text = doc.enter (.setAttribute id name text) := by
  obtain ⟨content, parent, children, handlers, handlerData, anchors⟩ := n
  cases content with
  | element tag attributes properties =>
    simp only [setAttribute, live, enter]
    exact congrArg (record · _) (modify_congr live rfl)
  | text old => cases element
  | comment old => cases element

/-- On a node that takes it, a write is entered. -/
theorem writeTo_eq_enter {doc : Document} {id : NodeId} {n : Node} {action : Action} {c : Computed}
    (live : doc.get? id = some n) (takes : n.content.isElement = !action.onText)
    (builtin : action.isBuiltin = true) (suits : action.Suits c) :
    action.writeTo id c doc = doc.enter (action.entry id c) := by
  obtain ⟨content, parent, children, handlers, handlerData, anchors⟩ := n
  have present : doc.contains id = true := contains_iff.mpr ⟨_, live⟩
  cases action with
  | setEventData event args =>
    change doc.setHandlerData id event c.toArgs = _
    rw [setHandlerData, if_pos present]
    rfl
  | setText text =>
    change doc.setText id c.text = _
    cases content with
    | element tag attributes properties => cases takes
    | text old =>
      simp only [setText, live, enter]
      exact congrArg (record · _) (modify_congr live rfl)
    | comment old =>
      simp only [setText, live, enter]
      exact congrArg (record · _) (modify_congr live rfl)
  | replaceClass text => exact setAttribute_eq_enter live takes "class" c.text
  | setAttribute name text => exact setAttribute_eq_enter live takes name c.text
  | applyDirective name directive e =>
    obtain ⟨v, rfl⟩ := suits name directive e rfl
    cases directive with
    | host other => simp [Action.isBuiltin] at builtin
    | toggle =>
      change doc.setProperty id displayProperty _ = _
      cases content with
      | element tag attributes properties =>
        simp only [setProperty, live, enter]
        exact congrArg (record · _) (modify_congr live rfl)
      | text old => cases takes
      | comment old => cases takes

/-! ## Nodes that stay -/

/-- The nodes to which the instance at `root` writes are still there, and known as such. -/
structure Survives (root : NodeId) (doc doc' : Document) : Prop where
  anchors : doc'.anchors? root = doc.anchors? root
  nodes : ∀ x n, x = root ∨ x ∈ (doc.anchors? root).getD [] → doc.get? x = some n →
    ∃ n', doc'.get? x = some n' ∧ n'.content.isElement = n.content.isElement

theorem Survives.refl (root : NodeId) (doc : Document) : Survives root doc doc :=
  ⟨rfl, fun _ n _ live => ⟨n, live, rfl⟩⟩

theorem Survives.trans {root : NodeId} {a b c : Document} (h : Survives root a b)
    (k : Survives root b c) : Survives root a c := by
  refine ⟨k.anchors.trans h.anchors, fun x n mem live => ?_⟩
  obtain ⟨n', live', same⟩ := h.nodes x n mem live
  obtain ⟨n'', live'', same'⟩ := k.nodes x n' (by rwa [h.anchors]) live'
  exact ⟨n'', live'', same'.trans same⟩

theorem survives_enter (root : NodeId) (doc : Document) (e : Mutation) :
    Survives root doc (doc.enter e) := by
  refine ⟨?_, fun x n _ live => ?_⟩
  · unfold anchors?
    rw [get?_enter]
    split
    · cases doc.get? root with
      | none => rfl
      | some n => exact e.anchors_onNode n
    · rfl
  · rw [get?_enter, live]
    split
    · exact ⟨_, rfl, e.isElement_onNode n⟩
    · exact ⟨n, rfl, rfl⟩

theorem survives_enterAll (root : NodeId) (doc : Document) (entries : List Mutation) :
    Survives root doc (doc.enterAll entries) := by
  induction entries generalizing doc with
  | nil => exact .refl root doc
  | cons e rest ih => exact (survives_enter root doc e).trans (ih (doc.enter e))

end Document

/-- On a node that is gone, nothing is written. -/
theorem Action.writeTo_of_dead {action : Action} {id : NodeId} {doc : Document}
    (dead : doc.contains id = false) (c : Computed) : action.writeTo id c doc = doc := by
  have ignored {operation : Document.Operation} (given : id ∈ operation.given) :
      operation.perform doc = doc := Document.perform_of_dead dead given
  cases action with
  | setText content => exact @ignored (.setText id _) List.mem_cons_self
  | replaceClass content => exact @ignored (.setAttribute id _ _) List.mem_cons_self
  | setAttribute name content => exact @ignored (.setAttribute id _ _) List.mem_cons_self
  | setEventData event args => exact @ignored (.setHandlerData id _ _) List.mem_cons_self
  | applyDirective name directive e =>
    cases directive with
    | host name => rfl
    | toggle =>
      cases c with
      | args vs => rfl
      | value v => exact @ignored (.setProperty id _ _) List.mem_cons_self

/-- The binding of the instance at `root` can write to the node. -/
def Binding.Writes (doc : Document) (root : NodeId) (b : Binding) (x : NodeId) : Prop :=
  b.node? doc root = some x ∧
    ∃ n, doc.get? x = some n ∧ n.content.isElement = !b.action.onText

theorem Binding.Writes.survive {doc doc' : Document} {root x : NodeId} {b : Binding}
    (h : b.Writes doc root x) (survives : doc.Survives root doc') : b.Writes doc' root x := by
  obtain ⟨reached, n, live, takes⟩ := h
  have known : x = root ∨ x ∈ (doc.anchors? root).getD [] := by
    unfold Binding.node? at reached
    split at reached
    · exact .inl (Option.some.inj reached).symm
    · obtain ⟨ids, kept, found⟩ := Option.bind_eq_some_iff.mp reached
      rw [kept]
      exact .inr (List.mem_of_getElem? found)
  obtain ⟨n', live', same⟩ := survives.nodes x n known live
  refine ⟨?_, n', live', same.trans takes⟩
  unfold Binding.node? Document.anchor? at reached ⊢
  rw [survives.anchors]
  exact reached

namespace Template

open Document

/-- The entries of some values, each on the node of its binding. -/
def entriesOf (node : Binding → NodeId) (values : List (Binding × Computed)) : List Mutation :=
  values.map fun p => p.1.action.entry (node p.1) p.2

theorem changes_cons_of_same {previous : Option Snapshot} {p : Binding × Computed}
    {rest : List (Binding × Computed)} (same : p.1.isUnchanged previous p.2 = true) :
    changes previous (p :: rest) = changes previous rest := by
  unfold changes
  rw [List.filter_cons_of_neg (by simp [same])]

theorem changes_cons_of_new {previous : Option Snapshot} {p : Binding × Computed}
    {rest : List (Binding × Computed)} (new : ¬p.1.isUnchanged previous p.2 = true) :
    changes previous (p :: rest) = p :: changes previous rest := by
  unfold changes
  rw [List.filter_cons_of_pos (by simp [new])]

/-- The second half of a pass: the values that changed are entered, in their order. -/
theorem applyAll_enters (host : Host κ) {root : NodeId} (previous : Option Snapshot)
    (node : Binding → NodeId) {values : List (Binding × Computed)}
    (builtin : ∀ p ∈ values, p.1.action.isBuiltin = true)
    (suits : ∀ p ∈ values, p.1.action.Suits p.2) {s : Stage κ}
    (writes : ∀ p ∈ values, p.1.Writes s.document root (node p.1)) :
    applyAll host root previous values s = .ok (changes previous values).length
      (s.edit (·.enterAll (entriesOf node (changes previous values)))) := by
  induction values generalizing s with
  | nil => rfl
  | cons p rest ih =>
    have builtin' := fun q hq => builtin q (List.mem_cons_of_mem p hq)
    have suits' := fun q hq => suits q (List.mem_cons_of_mem p hq)
    have writes' := fun q hq => writes q (List.mem_cons_of_mem p hq)
    by_cases same : p.1.isUnchanged previous p.2 = true
    · rw [changes_cons_of_same same, applyAll, if_pos same]
      exact ih builtin' suits' writes'
    · obtain ⟨reached, n, live, takes⟩ := writes p List.mem_cons_self
      have own := builtin p List.mem_cons_self
      have step : p.1.applyTo host root p.2 s =
          .ok () (s.edit (·.enter (p.1.action.entry (node p.1) p.2))) := by
        unfold Binding.applyTo
        rw [reached]
        dsimp only
        rw [Binding.write_own host _ _ (Action.not_hosted_of_builtin own), Stage.edit, Stage.edit,
          writeTo_eq_enter live takes own (suits p List.mem_cons_self)]
      have later := ih (s := s.edit (·.enter (p.1.action.entry (node p.1) p.2))) builtin' suits' fun q hq =>
        (writes' q hq).survive (survives_enter root s.document _)
      rw [applyAll, if_neg same, bind_of_ok step, bind_of_ok later, changes_cons_of_new same]
      rfl

/-- Values for nodes that are gone are counted, and nothing is written. -/
theorem applyAll_of_gone (host : Host κ) {root : NodeId} (previous : Option Snapshot)
    {values : List (Binding × Computed)}
    (builtin : ∀ p ∈ values, p.1.action.isBuiltin = true) {s : Stage κ}
    (gone : ∀ p ∈ values, ∃ x, p.1.node? s.document root = some x ∧
      s.document.contains x = false) :
    applyAll host root previous values s = .ok (changes previous values).length s := by
  induction values with
  | nil => rfl
  | cons p rest ih =>
    have later := ih (fun q hq => builtin q (List.mem_cons_of_mem p hq))
      fun q hq => gone q (List.mem_cons_of_mem p hq)
    obtain ⟨x, reached, dead⟩ := gone p List.mem_cons_self
    by_cases same : p.1.isUnchanged previous p.2 = true
    · rw [changes_cons_of_same same, applyAll, if_pos same]
      exact later
    · have step : p.1.applyTo host root p.2 s = .ok () s := by
        unfold Binding.applyTo
        rw [reached]
        dsimp only
        rw [Binding.write_own host _ _
          (Action.not_hosted_of_builtin (builtin p List.mem_cons_self)), Stage.edit,
          Action.writeTo_of_dead dead]
      rw [applyAll, if_neg same, bind_of_ok step, bind_of_ok later, changes_cons_of_new same]
      rfl

/-! ## The values that are new -/

/-- The values that are not identical to those of the last snapshot, place by place. -/
def renewed (previous : Option Snapshot) (values : List (Binding × Computed)) :
    List (Binding × Computed) :=
  match previous with
  | none => values
  | some snapshot =>
    ((values.zip snapshot.values).filter fun pair => !pair.2.2.identical pair.1.2).map Prod.fst

theorem filter_eq_renewed (look : Anchor → Option Computed) {olds news : List (Binding × Computed)}
    (same : olds.map Prod.fst = news.map Prod.fst)
    (found : ∀ o ∈ olds, look o.1.anchor = some o.2) :
    news.filter (fun n => !(look n.1.anchor).any (·.identical n.2)) =
      ((news.zip (olds.map fun o => (o.1.anchor, o.2))).filter fun pair =>
        !pair.2.2.identical pair.1.2).map Prod.fst := by
  induction olds generalizing news with
  | nil =>
    cases news with
    | nil => rfl
    | cons n news => cases same
  | cons o olds ih =>
    cases news with
    | nil => cases same
    | cons n news =>
      obtain ⟨head, tail⟩ := List.cons.inj same
      have rest := ih tail fun p hp => found p (List.mem_cons_of_mem _ hp)
      have here : look n.1.anchor = some o.2 := by
        rw [← head]
        exact found o List.mem_cons_self
      rw [List.map_cons, List.zip_cons_cons, List.filter_cons, List.filter_cons, rest, here]
      dsimp only [Option.any_some]
      split <;> rfl

/-- Looking values up by their anchors comes to comparing them place by place. -/
theorem changes_eq_renewed {t : Template} (nodup : (t.bindings.map Binding.anchor).Nodup)
    {previous : Option Snapshot} {olds news : List (Binding × Computed)}
    (remembers : t.Remembers previous olds) (bound : news.map Prod.fst = t.bindings) :
    changes previous news = renewed previous news := by
  unfold changes
  simp only [isUnchanged_eq]
  cases remembers with
  | nothing => exact List.filter_eq_self.mpr fun _ _ => rfl
  | pass olds applied known =>
    exact filter_eq_renewed (t.snapshotOf olds applied).get? (known.trans bound.symm)
      fun o mem => get?_snapshotOf applied nodup known mem

end Template

/-! ## The node of a binding -/

/-- The node that was built for the path of a binding, in the document as it was built. -/
def Binding.built? (m : Markup) (doc : Document) (root : NodeId) (b : Binding) : Option NodeId :=
  (m.kept? (b.path.indexes.map UInt32.toNat)).bind (doc.descend root)

theorem Plan.Takes.isElement {p : Plan} {action : Action} (h : p.Takes action) :
    p.content.isElement = !action.onText := by
  have element (attributes : List (String × String)) (c : Content) :
      (attributes.foldl (fun c a => c.withAttribute a.1 a.2) c).isElement = c.isElement := by
    induction attributes generalizing c with
    | nil => rfl
    | cons head rest ih => exact (ih _).trans (Effect.isElement_on (.setAttribute _ _) c)
  cases p with
  | element tag attributes handlers kids anchor =>
    rw [show action.onText = false from h]
    exact element attributes (.element tag [] [])
  | text content anchor => rw [show action.onText = true from h]; rfl
  | comment content => exact h.elim
  | placeholder index => exact h.elim

namespace Template

open Document

variable {terms : Terms} {t : Template} {doc : Document} {place : List Nat → NodeId}
  {values : List (Binding × Computed)}

/-- Every binding writes to the node that was built for its path. -/
theorem Own.writes (own : t.Own terms doc place values) (builtin : terms.builtin)
    (tidy : t.Tidy terms.builtin) {m : Markup} (traced : t.Traced m) (narrow : m.Narrow)
    {b : Binding} (mem : b ∈ t.bindings) :
    ∃ x, b.built? m doc (place []) = some x ∧ b.Writes doc (place []) x := by
  obtain ⟨r, q, p, kept, part, path, takes, number⟩ := traced.bound b mem
  obtain ⟨q', p', target, part', solid', reached⟩ := own.reach tidy mem
  have same : q' = q := by
    cases here : b.target with
    | root =>
      rw [here] at target number
      cases target
      -- The path of the root is empty, so the position is that of the root.
      have empty : Path.root.below r = .root := by
        rcases tidy.reach b mem with ⟨_, root⟩ | ⟨slot, other, _⟩
        · rw [← path, root]
        · rw [here] at other
          cases other
      have r_nil : r = [] := by
        have position := narrow.position kept
        rw [empty] at position
        exact position.symm
      rw [r_nil] at kept
      exact Option.some.inj kept
    | anchor slot =>
      rw [here] at target number
      exact traced.numbered narrow (mem_of_lookup target)
        (Plan.mem_marks.mpr ⟨p, part, number⟩)
  rw [same] at reached part' target
  rw [part] at part'
  cases part'
  refine ⟨place q, ?_, reached, ?_⟩
  · unfold Binding.built?
    rw [path, narrow.position kept, kept, Option.bind_some]
    exact own.descend (Plan.at?_nil _) part
  · obtain ⟨node, live, shows⟩ := own.node q p part solid'
    exact ⟨node, live, (shows.kind builtin).trans takes.isElement⟩

/-! ## Passes -/

/-- A snapshot that some pass of the template has returned. -/
def Returned (t : Template) (snapshot : Snapshot) : Prop :=
  ∃ (κ : Type) (host : Host κ) (scope : Scope) (root : NodeId) (previous : Option Snapshot)
    (s s' : Stage κ), t.update host scope root previous s = .ok snapshot s'

theorem Returned.remembers {snapshot : Snapshot} (returned : t.Returned snapshot) :
    ∃ values, t.Remembers (some snapshot) values := by
  obtain ⟨κ, host, scope, root, previous, s, s', updated⟩ := returned
  unfold update at updated
  split at updated
  · cases updated
  · obtain ⟨values, _, computed, updated⟩ := ok_of_bind updated
    obtain ⟨applied, _, _, updated⟩ := ok_of_bind updated
    cases updated
    exact ⟨values, .pass values applied (computeAll_values computed).1⟩

variable {host : Host κ} {root : NodeId} {s s' : Stage κ} {scope : Scope}
  {previous : Option Snapshot} {snapshot : Snapshot}

/-- One pass of an instance whose nodes are there. -/
theorem update_enters (quiet : host.Quiet) (builtin : ∀ b ∈ t.bindings, b.action.isBuiltin = true)
    {node : Binding → NodeId} (writes : ∀ b ∈ t.bindings, b.Writes s.document root (node b))
    (updated : t.update host scope root previous s = .ok snapshot s') :
    ∃ values computed, computeAll host (scope.narrow t.vars).read t.bindings s = .ok values computed ∧
      values.map Prod.fst = t.bindings ∧
      snapshot = t.snapshotOf values (changes previous values).length ∧
      s'.document = s.document.enterAll (entriesOf node (changes previous values)) := by
  unfold update at updated
  split at updated
  · cases updated
  · obtain ⟨values, computed, run, rest⟩ := ok_of_bind updated
    obtain ⟨bound, suits⟩ := computeAll_values run
    have leaves : (Host.ending
        (computeAll host (scope.narrow t.vars).read t.bindings s)).document = s.document :=
      computeAll_leaves quiet t.bindings s
    rw [run] at leaves
    have same : computed.document = s.document := leaves
    have mem {p : Binding × Computed} (hp : p ∈ values) : p.1 ∈ t.bindings :=
      bound ▸ List.mem_map_of_mem hp
    have applied := applyAll_enters host previous node (fun p hp => builtin p.1 (mem hp)) suits
      (s := computed) fun p hp => same ▸ writes p.1 (mem hp)
    dsimp only at rest
    rw [bind_of_ok applied] at rest
    cases rest
    exact ⟨values, computed, run, bound, rfl, by rw [Stage.edit, same]⟩

/-- Right after an instance was built, its bindings can write to the nodes built for them. -/
theorem create_writes (quiet : host.Quiet) (each : t.Each (Tidy True)) {m : Markup}
    (traced : t.Traced m) (narrow : m.Narrow) (sound : s.document.Sound) {children : List Mount}
    (created : t.create host scope s = .ok (root, children) s') :
    ∃ node : Binding → NodeId, ∀ b ∈ t.bindings, b.built? m s'.document root = some (node b) ∧
      b.Writes s'.document root (node b) := by
  have behaves : host.Behaves ⟨True, False⟩ fun _ => fun _ => False :=
    ⟨quiet, False.elim, .inl trivial⟩
  have knows : False → Heap.Knows (fun _ => False) (fun _ => fun _ => False) scope s := False.elim
  obtain ⟨tidy, inner⟩ := Template.each_iff.mp each
  obtain ⟨part, built⟩ :=
    (create_ends tidy (Extension.promises behaves inner).1 sound knows).ok created
  obtain ⟨_, _, _, place, values, _, same, rooted, _, _⟩ := Template.stands_iff.mp built.stands
  cases same
  have found : ∀ b, ∃ x, b ∈ t.bindings → b.built? m s'.document root = some x ∧
      b.Writes s'.document root x := by
    intro b
    by_cases mem : b ∈ t.bindings
    · obtain ⟨x, node, writes⟩ := rooted.own.writes trivial tidy traced narrow mem
      rw [rooted.root] at node writes
      exact ⟨x, fun _ => ⟨node, writes⟩⟩
    · exact ⟨root, fun mem' => absurd mem' mem⟩
  choose node found using found
  exact ⟨node, found⟩

/-- A pass enters one write for each binding whose value is not identical to that of the last
snapshot, in the order of the bindings and on the node that was built for the path of the binding.
The snapshot tells how many there are, and nothing else changes. Meanwhile anything may have
happened to the document, but the nodes that are written to are still there; they are so after the
pass as well. -/
theorem update_enters_changes {m : Markup} {id next : TemplateId}
    (compiled : compile .standard id m = .ok (t, next)) (narrow : m.Narrow)
    {κ' : Type} {maker : Host κ'} (calm : maker.Quiet) {first : Scope} {before start : Stage κ'}
    (sound : before.document.Sound) {children : List Mount}
    (created : t.create maker first before = .ok (root, children) start)
    (survives : start.document.Survives root s.document) (quiet : host.Quiet)
    (returned : ∀ p ∈ previous, t.Returned p)
    (updated : t.update host scope root previous s = .ok snapshot s') :
    ∃ (values : List (Binding × Computed)) (computed : Stage κ) (node : Binding → NodeId)
      (entries : List Mutation),
      computeAll host (scope.narrow t.vars).read t.bindings s = .ok values computed ∧
      values.map Prod.fst = t.bindings ∧
      snapshot = t.snapshotOf values entries.length ∧
      (∀ b ∈ t.bindings, b.built? m start.document root = some (node b)) ∧
      entries = (renewed previous values).map (fun p => p.1.action.entry (node p.1) p.2) ∧
      s'.document.journal = s.document.journal.map (· ++ entries.toArray) ∧
      (∀ x, s'.document.get? x = (s.document.get? x).map fun n =>
        (entries.filter fun e => e.node = x).foldl (fun n e => e.onNode n) n) ∧
      s'.document.hearing = s.document.hearing ∧
      start.document.Survives root s'.document := by
  obtain ⟨each, traced⟩ :=
    compile_fine (Registry.standard_proper (Fine True True)) (fun _ => narrow) compiled
  have each : t.Each (Tidy True) := each.mono fun _ fine => fine.tidy
  have tidy := (Template.each_iff.mp each).1
  obtain ⟨node, reach⟩ := create_writes calm each traced narrow sound created
  obtain ⟨values, computed, run, bound, made, document⟩ := update_enters quiet
    (tidy.builtin trivial) (fun b mem => ((reach b mem).2).survive survives) updated
  obtain ⟨olds, remembers⟩ : ∃ olds, t.Remembers previous olds := by
    cases previous with
    | none => exact ⟨[], .nothing⟩
    | some p => exact (returned p rfl).remembers
  rw [changes_eq_renewed tidy.distinct remembers bound] at made document
  refine ⟨values, computed, node, entriesOf node (renewed previous values), run, bound, ?_,
    fun b mem => (reach b mem).1, rfl, ?_, ?_, ?_, ?_⟩
  · rw [made, entriesOf, List.length_map]
  · rw [document, journal_enterAll]
  · intro x
    rw [document, get?_enterAll]
  · rw [document, hearing_enterAll]
  · rw [document]
    exact survives.trans (survives_enterAll root _ _)

end Template

namespace Sample

def leaf : Markup :=
  .element "p" [("class", "${c}"), ("onclick", "${f(c)}"), ("v-show", "shown")]
    [.text " ", .element "i" [] [.text "${t}"]]

theorem leaf_narrow : leaf.Narrow := by
  refine .element (by decide) fun kid mem => ?_
  simp only [List.mem_cons, List.not_mem_nil, or_false] at mem
  rcases mem with rfl | rfl
  · exact .text " "
  · refine .element (by decide) fun kid mem => ?_
    rw [List.mem_singleton.mp mem]
    exact .text "${t}"

def journaled : Stage Unit := ⟨.withJournal, 0, ()⟩

/-- Of four values only the text is new in the second pass. -/
def writesText : Bool :=
  match Template.compile .standard 0 leaf with
  | .error _ => false
  | .ok (t, _) =>
    match t.create echo (scope "a" "x" true) journaled with
    | .error _ _ => false
    | .ok (root, _) s =>
      match t.update echo (scope "a" "x" true) root none s with
      | .error _ _ => false
      | .ok first s₁ =>
        match t.update echo (scope "a" "y" true) root (some first) s₁ with
        | .error _ _ => false
        | .ok _ s₂ =>
          match s₂.document.entries.drop s₁.document.entries.length with
          | [.setText x text] => s.document.descend root [0, 0] = some x && text = "y"
          | _ => false

end Sample

theorem Document.drop_entries {doc doc' : Document} {entries : List Mutation}
    (journal : doc'.journal = doc.journal.map (· ++ entries.toArray))
    (added : doc'.entries.drop doc.entries.length ≠ []) :
    doc'.entries.drop doc.entries.length = entries := by
  unfold Document.entries at added ⊢
  rw [journal] at added ⊢
  cases held : doc.journal with
  | none =>
    rw [held] at added
    exact absurd rfl added
  | some old => simp

theorem Template.update_enters_one_change : ∃ t next root children start first s second s' x,
    Template.compile .standard 0 Sample.leaf = .ok (t, next) ∧
      t.create Sample.echo (Sample.scope "a" "x" true) Sample.journaled =
        .ok (root, children) start ∧
      t.update Sample.echo (Sample.scope "a" "x" true) root none start = .ok first s ∧
      t.update Sample.echo (Sample.scope "a" "y" true) root (some first) s = .ok second s' ∧
      start.document.descend root [0, 0] = some x ∧ second.applied = 1 ∧
      s'.document.journal = s.document.journal.map (·.push (.setText x "y")) ∧
      (∀ z, z ≠ x → s'.document.get? z = s.document.get? z) ∧
      s'.document.get? x = (s.document.get? x).map fun n =>
        { n with content := n.content.withText "y" } := by
  have told : Sample.writesText = true := by decide +kernel
  unfold Sample.writesText at told
  split at told
  · cases told
  case h_2 t next compiled =>
  split at told
  · cases told
  case h_2 root children start created =>
  split at told
  · cases told
  case h_2 first s once =>
  split at told
  · cases told
  case h_2 second s' twice =>
  split at told
  case h_2 => cases told
  case h_1 x text added =>
  obtain ⟨there, same⟩ := Bool.and_eq_true_iff.mp told
  cases of_decide_eq_true same
  obtain ⟨_, _, _, _, _, _, _, _, _, _, _, _, survives⟩ :=
    Template.update_enters_changes compiled Sample.leaf_narrow Sample.echo_quiet
      (Document.sound_new true) created (.refl _ _) Sample.echo_quiet
      (fun _ mem => by cases mem) once
  have returned : ∀ p ∈ some first, t.Returned p := by
    rintro p ⟨⟩
    exact ⟨_, _, _, _, _, _, _, once⟩
  obtain ⟨values, _, _, entries, _, _, made, _, _, journal, nodes, _⟩ :=
    Template.update_enters_changes compiled Sample.leaf_narrow Sample.echo_quiet
      (Document.sound_new true) created survives Sample.echo_quiet returned twice
  have only : entries = [.setText x "y"] := by
    rw [← added]
    exact (Document.drop_entries journal (by rw [added]; exact List.cons_ne_nil _ _)).symm
  rw [only] at made journal nodes
  refine ⟨t, next, root, children, start, first, s, second, s', x, compiled, created, once, twice,
    of_decide_eq_true there, ?_, ?_, fun z other => ?_, ?_⟩
  · rw [made]
    rfl
  · rw [journal]
    rfl
  · rw [nodes, List.filter_cons_of_neg (by simp [Mutation.node, other.symm])]
    exact Option.map_id'
  · rw [nodes, List.filter_cons_of_pos (by simp [Mutation.node])]
    rfl

namespace Sample

/-- An instance is made and the node at a position in it released. Then a pass tells of one write,
but it has not changed anything. -/
def EntersNothing (m : Markup) (position : List Nat) : Prop :=
  ∃ t next root children start x snapshot s', Template.compile .standard 0 m = .ok (t, next) ∧
    t.create echo (scope "a" "x" true) journaled = .ok (root, children) start ∧
    start.document.descend root position = some x ∧
    t.update echo (scope "a" "x" true) root none (start.edit fun doc => (doc.release x).2) =
      .ok snapshot s' ∧
    snapshot.applied = 1 ∧ s'.document = (start.document.release x).2

/-- There is one value, which is for the node at the position, a leaf. -/
def bindsLeaf (m : Markup) (position : List Nat) : Bool :=
  match Template.compile .standard 0 m with
  | .error _ => false
  | .ok (t, _) =>
    match t.create echo (scope "a" "x" true) journaled with
    | .error _ _ => false
    | .ok (root, _) s =>
      match s.document.descend root position with
      | none => false
      | some x =>
        s.document.contains x && (s.document.children x).isEmpty &&
        (t.bindings.all fun b => b.action.isBuiltin && (b.node? s.document root = some x) &&
          (b.target = .root || root ≠ x)) &&
        match Template.computeAll echo ((scope "a" "x" true).narrow t.vars).read t.bindings
            (s.edit fun doc => (doc.release x).2) with
        | .error _ _ => false
        | .ok values _ => values.length = 1

end Sample

namespace Document

theorem mem_children_of_detach {doc : Document} {id p c : NodeId}
    (mem : c ∈ (doc.detach id).children p) : c ∈ doc.children p := by
  cases up : doc.parent? id with
  | none => rwa [detach_of_detached up] at mem
  | some q =>
    unfold children at mem ⊢
    rw [get?_detach up] at mem
    cases found : doc.get? p with
    | none =>
      rw [found] at mem
      cases mem
    | some n =>
      rw [found] at mem
      simp only [Option.map_some, Option.getD_some] at mem ⊢
      split at mem
      · exact (List.mem_filter.mp mem).1
      · exact mem

/-- A leaf goes, and another node keeps its table. -/
theorem anchors?_release_leaf {doc : Document} {x root : NodeId} (leaf : doc.children x = [])
    (other : root ≠ x) : (doc.release x).2.anchors? root = doc.anchors? root := by
  unfold release
  split
  · have kept : (freeAll (doc.detach x).nodes 0 [x]).2.get? root = (doc.detach x).get? root := by
      refine get?_freeAll_of_closed (· = x) (fun y mem => List.mem_singleton.mp mem) ?_ other
      rintro y node rfl found c listed
      have mem := mem_children_of_detach (mem_children.mpr ⟨node, found, listed⟩)
      rw [leaf] at mem
      cases mem
    have back : (doc.detach x).anchors? root = doc.anchors? root := anchors?_detach x
    unfold anchors? at back ⊢
    rw [← back, ← kept]
    rfl
  · rfl

end Document

/-- A binding still reaches a leaf that was released. -/
theorem Binding.node?_release_leaf {doc : Document} {root x : NodeId} {b : Binding}
    (leaf : doc.children x = []) (reached : b.node? doc root = some x)
    (apart : b.target = .root ∨ root ≠ x) : b.node? (doc.release x).2 root = some x := by
  unfold Binding.node? at reached ⊢
  cases target : b.target with
  | root =>
    rw [target] at reached
    exact reached
  | anchor slot =>
    rw [target] at reached apart
    unfold Document.anchor? at reached ⊢
    dsimp only
    rw [Document.anchors?_release_leaf leaf (apart.resolve_left fun same => by cases same)]
    exact reached

theorem Sample.EntersNothing.of_run {m : Markup} {position : List Nat}
    (told : bindsLeaf m position = true) : EntersNothing m position := by
  unfold bindsLeaf at told
  split at told
  · cases told
  case h_2 t next compiled =>
  split at told
  · cases told
  case h_2 root children start created =>
  split at told
  · cases told
  case h_2 x there =>
  simp only [Bool.and_eq_true, List.all_eq_true, Bool.or_eq_true, decide_eq_true_eq,
    List.isEmpty_iff] at told
  obtain ⟨⟨⟨live, leaf⟩, bound⟩, told⟩ := told
  split at told
  · cases told
  case h_2 values mid computed =>
  have leaves : (Host.ending (Template.computeAll echo ((scope "a" "x" true).narrow t.vars).read
      t.bindings (start.edit fun doc => (doc.release x).2))).document =
        (start.document.release x).2 := Template.computeAll_leaves echo_quiet t.bindings _
  rw [computed] at leaves
  have same : mid.document = (start.document.release x).2 := leaves
  have mem {p : Binding × Computed} (hp : p ∈ values) : p.1 ∈ t.bindings :=
    (Template.computeAll_values computed).1 ▸ List.mem_map_of_mem hp
  have applied := Template.applyAll_of_gone echo none (fun p hp => (bound p.1 (mem hp)).1.1)
    fun p hp => ⟨x, by
      rw [same]
      exact Binding.node?_release_leaf leaf (bound p.1 (mem hp)).1.2 (bound p.1 (mem hp)).2, by
      rw [same]
      exact Document.contains_release_of_below .refl live⟩
  have all : Template.changes none values = values := List.filter_eq_self.mpr fun _ _ => rfl
  rw [all, of_decide_eq_true told] at applied
  refine ⟨t, next, root, children, start, x, t.snapshotOf values 1, mid, compiled, created, there,
    ?_, rfl, same⟩
  unfold Template.update
  rw [if_neg (by simp)]
  dsimp only
  rw [bind_of_ok computed, bind_of_ok applied]
  rfl

/-- Neither a root that was released nor a text below a live root is written to, but both writes are
counted. -/
theorem Template.update_enters_nothing :
    Sample.EntersNothing (.element "p" [("class", "${c}")] []) [] ∧
      Sample.EntersNothing (.element "p" [] [.text "${t}"]) [0] :=
  ⟨.of_run (by decide +kernel), .of_run (by decide +kernel)⟩

end LiveTemplate
