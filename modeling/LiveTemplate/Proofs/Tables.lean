import LiveTemplate.Proofs.Detachment
import LiveTemplate.Proofs.Inventory
import LiveTemplate.Proofs.Rebuilding

/-!
# LiveTemplate.Proofs.Tables

The anchors of a template and the table of nodes that an instance keeps for them. Compiling numbers
the nodes that are bound, building stores the node of each number on the root, and a pass looks the
nodes up by number; all three agree on which node a number stands for.

  * `Template.Used`          only nodes that are bound have a number
  * `Document.Equipped`      a root with enough anchors, or none at all
  * `Document.Later`         documents in which a root has still got enough anchors
  * `Template.anchors_agree` numbers, plan, table and passes agree
-/

namespace LiveTemplate

/-! ## Every number is used -/

mutual

theorem Subtree.Each.and {P Q : Template → Prop} : ∀ {subtree : Subtree},
    subtree.Each P → subtree.Each Q → subtree.Each fun t => P t ∧ Q t
  | .template t, h, k => by
    rw [Subtree.Each] at h k ⊢
    exact Template.Each.and h k
  | .conditional _ (.template t), h, k => by
    rw [Subtree.Each] at h k ⊢
    exact Template.Each.and h k
  | .conditional _ (.conditional _ _), h, _ => by
    rw [Subtree.Each] at h
    exact h.elim

theorem Template.Each.and {P Q : Template → Prop} : ∀ {t : Template},
    t.Each P → t.Each Q → t.Each fun t => P t ∧ Q t
  | ⟨_, _, _, _, extensions, _, _⟩, h, k => by
    rw [Template.Each] at h k ⊢
    exact ⟨⟨h.1, k.1⟩, Extension.AllEach.and h.2 k.2⟩

theorem Extension.AllEach.and {P Q : Template → Prop} : ∀ {extensions : List Extension},
    Extension.AllEach P extensions → Extension.AllEach Q extensions →
      Extension.AllEach (fun t => P t ∧ Q t) extensions
  | [], _, _ => by rw [Extension.AllEach]; trivial
  | ⟨_, _, subtree⟩ :: rest, h, k => by
    rw [Extension.AllEach] at h k ⊢
    exact ⟨Subtree.Each.and h.1 k.1, Extension.AllEach.and h.2 k.2⟩

end

namespace Template

variable {registry : Registry} {id next : TemplateId} {m : Markup} {t : Template}

theorem compile_used (proper : registry.Proper False Used)
    (run : compile registry id m = .ok (t, next)) : t.Each Used := by
  obtain ⟨plan?, d, walk, rfl⟩ := compile_walk run
  have lists := (Analysis.node_lists m .root _ _ walk).lists
  exact Template.each_iff.mpr ⟨lists.used fun _ mem => (List.not_mem_nil mem).elim,
    lists.extensions proper trivial⟩

theorem Compiled.used {admitted : String → Directive → Prop} {markup : Markup → Prop}
    (h : t.Compiled admitted markup) : t.Each Used := by
  induction h with
  | intro _ _ _ _ run structural components =>
    exact compile_used ⟨fun bad => bad.elim, structural, components⟩ run

/-- Each number is the one of a part of the plan, which stands for a node with its path. -/
theorem Traced.numbers {strict : Prop} (traced : t.Traced m) (tidy : t.Tidy strict) (used : t.Used)
    {slot : Nat} {path : Path} (numbered : t.anchors[slot]? = some path) :
    ∃ r q p, path = Path.root.below r ∧ m.kept? r = some q ∧ t.plan.at? q = some p ∧
      p.anchor? = some slot := by
  obtain ⟨b, mem, rfl⟩ := used path (List.mem_of_getElem? numbered)
  obtain ⟨r, q, p, kept, found, same, _, anchor⟩ := traced.bound b mem
  refine ⟨r, q, p, same, kept, found, ?_⟩
  rcases tidy.reach b mem with ⟨_, root⟩ | ⟨other, target, here⟩
  · rw [root] at numbered
    exact (tidy.rootless (List.mem_of_getElem? numbered)).elim
  · rw [anchor, target]
    obtain ⟨lt, at'⟩ := List.getElem?_eq_some_iff.mp numbered
    obtain ⟨lt', at''⟩ := List.getElem?_eq_some_iff.mp here
    have index := (tidy.nodup.getElem_inj_iff).mp (at''.trans at'.symm)
    rw [index]
    rfl

/-- In narrow markup the path leads back to the node. -/
theorem Traced.part {strict : Prop} (traced : t.Traced m) (tidy : t.Tidy strict) (used : t.Used)
    (narrow : m.Narrow) {slot : Nat} {path : Path} (numbered : t.anchors[slot]? = some path) :
    ∃ q p, m.kept? (path.indexes.map UInt32.toNat) = some q ∧ t.plan.at? q = some p ∧
      p.anchor? = some slot := by
  obtain ⟨r, q, p, rfl, kept, found, anchor⟩ := traced.numbers tidy used numbered
  refine ⟨q, p, ?_, found, anchor⟩
  rw [narrow.position kept]
  exact kept

/-- The plan has a part for each number. -/
theorem Traced.slotPath? {strict : Prop} (traced : t.Traced m) (tidy : t.Tidy strict)
    (used : t.Used) (narrow : m.Narrow) {slot : Nat} {path : Path}
    (numbered : t.anchors[slot]? = some path) :
    t.slotPath? slot = m.kept? (path.indexes.map UInt32.toNat) := by
  obtain ⟨q, p, kept, found, anchor⟩ := traced.part tidy used narrow numbered
  have mark : (slot, q) ∈ t.plan.marks := Plan.mem_marks.mpr ⟨p, found, anchor⟩
  rw [kept]
  cases look : t.slotPath? slot with
  | none => simpa using List.lookup_eq_none_iff.mp look (slot, q) mark
  | some q' => rw [traced.numbered narrow (mem_of_lookup look) mark]

theorem Fine.sturdy {strict narrow : Prop} (fine : t.Fine strict narrow) (used : t.Used) :
    t.Sturdy strict := by
  obtain ⟨m, _, traced⟩ := fine.traced
  refine ⟨fine.tidy, fun slot lt missing => ?_⟩
  obtain ⟨_, q, p, _, _, found, anchor⟩ :=
    traced.numbers fine.tidy used (List.getElem?_eq_getElem lt)
  have mark : (slot, q) ∈ t.plan.marks := Plan.mem_marks.mpr ⟨p, found, anchor⟩
  simpa using List.lookup_eq_none_iff.mp missing (slot, q) mark

end Template

/-- What is registered was compiled, from markup that positions can tell apart. -/
structure Registry.Compiled (registry : Registry) : Prop where
  structural : ∀ name t, registry.directive? name = some (.structural (.template t)) →
    t.Compiled (fun _ _ => True) Markup.Narrow
  components : ∀ tag t, registry.component? tag = some t →
    t.Compiled (fun _ _ => True) Markup.Narrow

/-! ## Documents in which a root has enough anchors -/

namespace Document

variable {doc doc' : Document} {root : NodeId} {size : Nat}

theorem anchors?_of_change {id : NodeId} {f : Node → Node}
    (get : ∀ x, doc'.get? x = if x = id then (doc.get? x).map f else doc.get? x)
    (same : ∀ n, (f n).anchors = n.anchors) : doc'.anchors? root = doc.anchors? root := by
  unfold anchors?
  rw [get]
  split
  · cases doc.get? root with
    | none => rfl
    | some n => exact same n
  · rfl

@[simp] theorem anchors?_record (entry : Mutation) :
    (doc.record entry).anchors? root = doc.anchors? root := rfl

theorem anchors?_modify {id : NodeId} {f : Node → Node} (same : ∀ n, (f n).anchors = n.anchors) :
    (doc.modify id f).anchors? root = doc.anchors? root :=
  anchors?_of_change (get?_modify doc id f) same

theorem anchors?_detach (id : NodeId) : (doc.detach id).anchors? root = doc.anchors? root := by
  unfold detach
  split
  · rfl
  · simp [anchors?_modify]

theorem anchors?_insert (sound : doc.Sound) (live : doc.contains root = true) (content : Content)
    (names : DistinctNames content) (entry : Mutation) :
    ((doc.insert content).2.record entry).anchors? root = doc.anchors? root := by
  obtain ⟨n, found⟩ := contains_iff.mp live
  unfold anchors?
  rw [(adds_insert sound content names entry).grows.kept root n id found, found]

/-- What is live after all below a node was freed is as it was. -/
theorem anchors?_release (id : NodeId) (after : (doc.release id).2.contains root = true) :
    (doc.release id).2.anchors? root = doc.anchors? root := by
  unfold release at after ⊢
  split
  · case isTrue live =>
    rw [if_pos live] at after
    obtain ⟨n, found⟩ := contains_iff.mp after
    have kept : (doc.detach id).get? root = some n := get?_of_freeAll found
    have back : (doc.detach id).anchors? root = doc.anchors? root := anchors?_detach id
    unfold anchors? at back ⊢
    rw [found, ← back, kept]
  · rfl

/-- A live root loses its table only to another one. -/
theorem anchors?_perform (sound : doc.Sound) {operation : Operation}
    (other : ∀ nodes, operation ≠ .setAnchors root nodes) (before : doc.contains root = true)
    (after : (operation.perform doc).contains root = true) :
    (operation.perform doc).anchors? root = doc.anchors? root := by
  cases operation with
  | createElement tag => exact anchors?_insert sound before (.element tag [] []) List.nodup_nil _
  | createText content => exact anchors?_insert sound before (.text content) trivial _
  | createComment content => exact anchors?_insert sound before (.comment content) trivial _
  | setAttribute id name value =>
    exact anchors?_of_change (get?_setAttribute doc id name value) fun _ => rfl
  | removeAttribute id name =>
    exact anchors?_of_change (get?_removeAttribute doc id name) fun _ => rfl
  | setProperty id name value =>
    exact anchors?_of_change (get?_setProperty doc id name value) fun _ => rfl
  | setText id content => exact anchors?_of_change (get?_setText doc id content) fun _ => rfl
  | setHandler id event f => exact anchors?_of_change (get?_setHandler doc id event f) fun _ => rfl
  | setHandlerData id event args =>
    exact anchors?_of_change (get?_setHandlerData doc id event args) fun _ => rfl
  | appendChild parent child =>
    simp only [Operation.perform, appendChild]
    split
    · simp [anchors?_modify, anchors?_detach]
    · rfl
  | replaceNode old new =>
    simp only [Operation.perform, replaceNode]
    split
    · rfl
    · split
      · rfl
      · simp [anchors?_modify, anchors?_detach]
  | removeNode id =>
    simp only [Operation.perform, removeNode]
    split
    · exact anchors?_detach id
    · rfl
  | release id => exact anchors?_release id after
  | setAnchors id nodes =>
    have apart : root ≠ id := by
      rintro rfl
      exact other nodes rfl
    simp only [Operation.perform, anchors?]
    rw [get?_setAnchors, if_neg apart]
  | addListener event listener => rfl
  | ensureListening event =>
    simp only [Operation.perform, ensureListening]
    split <;> rfl
  | takeJournal => rfl

/-- As long as the root is live, its table has at least so many anchors. -/
def Equipped (root : NodeId) (size : Nat) (doc : Document) : Prop :=
  doc.contains root = true → ∃ nodes, doc.anchors? root = some nodes ∧ size ≤ nodes.length

/-- A live root has too few anchors only after a smaller table was put on it. -/
theorem Equipped.perform_of_live (equipped : doc.Equipped root size) (sound : doc.Sound)
    (before : doc.contains root = true) {operation : Operation}
    (table : ∀ nodes, operation = .setAnchors root nodes → size ≤ nodes.length) :
    (operation.perform doc).Equipped root size := by
  intro after
  by_cases replaced : ∃ nodes, operation = .setAnchors root nodes
  · obtain ⟨nodes, rfl⟩ := replaced
    obtain ⟨node, found⟩ := contains_iff.mp before
    refine ⟨nodes, ?_, table nodes rfl⟩
    simp only [Operation.perform, anchors?]
    rw [get?_setAnchors, if_pos rfl, found]
    rfl
  · rw [anchors?_perform sound (fun nodes same => replaced ⟨nodes, same⟩) before after]
    exact equipped before

/-- Documents that come about by operations during which the root stays. Tables that are put on it
have at least so many anchors. -/
inductive Later (root : NodeId) (size : Nat) (doc : Document) : Document → Prop
  | refl : Later root size doc doc
  | perform {doc' : Document} (operation : Operation) (later : Later root size doc doc')
      (table : ∀ nodes, operation = .setAnchors root nodes → size ≤ nodes.length)
      (stays : (operation.perform doc').contains root = true) :
      Later root size doc (operation.perform doc')

theorem Later.sound (later : Later root size doc doc') (sound : doc.Sound) : doc'.Sound := by
  induction later with
  | refl => exact sound
  | perform operation _ _ _ ih => exact ih.perform operation

theorem Later.equipped (later : Later root size doc doc') (sound : doc.Sound)
    (live : doc.contains root = true) (equipped : doc.Equipped root size) :
    doc'.contains root = true ∧ doc'.Equipped root size := by
  induction later with
  | refl => exact ⟨live, equipped⟩
  | perform operation later table stays ih =>
    exact ⟨stays, ih.2.perform_of_live (later.sound sound) ih.1 table⟩

end Document

/-! ## Agreement -/

namespace Template

variable {registry : Registry} {id next : TemplateId} {m : Markup} {t : Template}

/-- How the nodes that are bound are numbered: by their paths, except for the root, and each number
is the one of a single part of the plan, the one that stands for the node at its path. -/
structure Numbered (m : Markup) (t : Template) : Prop where
  nodup : t.anchors.Nodup
  rootless : Path.root ∉ t.anchors
  target : ∀ b ∈ t.bindings, b.path = .root ∧ b.target = .root ∨
    b.path ≠ .root ∧ ∃ slot, b.target = .anchor slot ∧ t.anchors[slot]? = some b.path
  part : ∀ slot path, t.anchors[slot]? = some path →
    ∃ q, m.kept? (path.indexes.map UInt32.toNat) = some q ∧
      ∀ q', (∃ p, t.plan.at? q' = some p ∧ p.anchor? = some slot) ↔ q' = q

/-- The table of the root has, for each anchor, the live node that was built for its path. -/
def Tabled (m : Markup) (t : Template) (doc : Document) (root : NodeId) : Prop :=
  ∀ slot path, t.anchors[slot]? = some path → ∃ q x,
    m.kept? (path.indexes.map UInt32.toNat) = some q ∧ doc.anchor? root slot = some x ∧
      doc.descend root q = some x ∧ doc.contains x = true

theorem Traced.numbered_parts {strict : Prop} (traced : t.Traced m) (tidy : t.Tidy strict)
    (used : t.Used) (narrow : m.Narrow) : t.Numbered m := by
  refine ⟨tidy.nodup, tidy.rootless, fun b mem => ?_, fun slot path numbered => ?_⟩
  · rcases tidy.reach b mem with ⟨target, root⟩ | ⟨slot, target, here⟩
    · exact .inl ⟨root, target⟩
    · refine .inr ⟨fun root => ?_, slot, target, here⟩
      rw [root] at here
      exact tidy.rootless (List.mem_of_getElem? here)
  · obtain ⟨q, p, kept, found, anchor⟩ := traced.part tidy used narrow numbered
    refine ⟨q, kept, fun q' => ⟨fun other => ?_, ?_⟩⟩
    · exact traced.numbered narrow (Plan.mem_marks.mpr other)
        (Plan.mem_marks.mpr ⟨p, found, anchor⟩)
    · rintro rfl
      exact ⟨p, found, anchor⟩

/-- The table of an instance that stands in the document. -/
theorem Own.tabled {terms : Terms} {doc : Document} {place : List Nat → NodeId}
    {values : List (Binding × Computed)} (own : t.Own terms doc place values) {strict : Prop}
    (traced : t.Traced m) (tidy : t.Tidy strict) (used : t.Used) (narrow : m.Narrow) :
    t.Tabled m doc (place []) := by
  intro slot path numbered
  obtain ⟨nodes, kept, places⟩ := own.anchored
  obtain ⟨q, look, here⟩ := places slot (List.getElem?_eq_some_iff.mp numbered).1
  obtain ⟨p, found, anchor⟩ := anchor_of_slotPath look
  obtain ⟨node, live, _⟩ := own.node q p found (hole?_of_anchor anchor)
  refine ⟨q, place q, ?_, ?_, own.descend (Plan.at?_nil _) found, ?_⟩
  · rw [← look, traced.slotPath? tidy used narrow numbered]
  · change (doc.anchors? (place [])).bind (·[slot]?) = _
    rw [kept]
    exact here
  · exact Document.contains_iff.mpr ⟨node, live⟩

/-- A root that stands in the document has an anchor for every number. -/
theorem Own.equipped {terms : Terms} {doc : Document} {place : List Nat → NodeId}
    {values : List (Binding × Computed)} (own : t.Own terms doc place values) :
    doc.Equipped (place []) t.anchors.length := by
  intro _
  obtain ⟨nodes, kept, found⟩ := own.table
  refine ⟨nodes, kept, Nat.le_of_not_lt fun short => ?_⟩
  exact found nodes.length short (List.getElem?_eq_none_iff.mpr (Nat.le_refl _))

/-- A pass on a live root with enough anchors misses none. -/
theorem Tidy.update_finds {strict : Prop} (tidy : t.Tidy strict) {κ : Type} {host : Host κ}
    {root : NodeId} (leaves : host.LeavesTable root) {s : Stage κ}
    (live : s.document.contains root = true)
    (equipped : s.document.Equipped root t.anchors.length) (scope : Scope)
    (previous : Option Snapshot) :
    Finds (t.update host scope root previous) s fun _ _ => True := by
  obtain ⟨nodes, kept, enough⟩ := equipped live
  have found : ∀ slot < t.anchors.length, nodes[slot]? ≠ none := fun slot lt missing =>
    absurd (List.getElem?_eq_none_iff.mp missing) (by omega)
  exact (update_sustains leaves tidy.reach found scope previous s kept).imp fun _ _ _ => trivial

theorem compile_each (registered : registry.Compiled) (narrow : m.Narrow)
    (run : compile registry id m = .ok (t, next)) :
    t.Traced m ∧ t.Each fun t => t.Fine False True ∧ t.Used := by
  have fine {t : Template} (h : t.Compiled (fun _ _ => True) Markup.Narrow) :
      t.Each (Fine False True) := h.each False.elim fun _ narrow _ => narrow
  obtain ⟨each, traced⟩ := compile_fine ⟨False.elim, fun name t found =>
    fine (registered.structural name t found), fun tag t found =>
    fine (registered.components tag t found)⟩ (fun _ => narrow) run
  have used := compile_used ⟨False.elim, fun name t found =>
    (registered.structural name t found).used, fun tag t found =>
    (registered.components tag t found).used⟩ run
  exact ⟨traced, each.and used⟩

/-- Compiling, building and updating agree on the anchors. Building never misses one, the table it
leaves leads to the nodes of the paths, and no later pass on the root misses one either, unless a
smaller table was put on the root. -/
theorem anchors_agree (registered : registry.Compiled) (narrow : m.Narrow)
    (run : compile registry id m = .ok (t, next)) :
    t.Numbered m ∧
      ∀ {κ : Type} (host : Host κ) (scope : Scope) (s : Stage κ), host.Tame → s.document.Sound →
        Finds (t.create host scope) s fun made s' => t.Tabled m s'.document made.1 ∧
          ∀ {κ' : Type} (other : Host κ') (scope' : Scope) (previous : Option Snapshot)
            (later : Stage κ'), other.LeavesTable made.1 →
            s'.document.Later made.1 t.anchors.length later.document →
              Finds (t.update other scope' made.1 previous) later fun _ _ => True := by
  obtain ⟨traced, each⟩ := compile_each registered narrow run
  have sturdy := each.mono fun _ h => h.1.sturdy h.2
  obtain ⟨⟨fine, used⟩, _⟩ := each_iff.mp each
  obtain ⟨own, inner⟩ := each_iff.mp sturdy
  have tidy := fine.tidy
  refine ⟨traced.numbered_parts tidy used narrow, fun host scope s tame sound => ?_⟩
  have promised : Extension.CreatesAll .least host (fun _ _ => True) scope t.extensions :=
    (Extension.promises tame.behaves (inner.mono fun _ sturdy => sturdy.tidy)).1
  refine ((create_finds own (Extension.finds tame inner).1 sound).ends
    (create_ends tidy promised sound (Heap.knows_nothing not_false _ scope s))).imp ?_
  rintro ⟨root, children⟩ s' ⟨_, part, built⟩
  obtain ⟨_, _, _, place, values, rest, same, rooted, _⟩ := stands_iff.mp built.stands
  cases same
  have stands := rooted.own
  obtain ⟨top, live, _⟩ := stands.node [] _ (Plan.at?_nil _) stands.solid
  have tabled := stands.tabled traced tidy used narrow
  have equipped := stands.equipped
  rw [rooted.root] at tabled equipped live
  refine ⟨tabled, fun other scope' previous later leaves after => ?_⟩
  obtain ⟨stays, enough⟩ :=
    after.equipped built.retains.sound (Document.contains_iff.mpr ⟨top, live⟩) equipped
  exact tidy.update_finds leaves stays enough scope' previous

end Template

namespace Sample

/-- A host with a directive that writes an attribute. -/
def painter : Host Unit where
  call _ args s := (args.headD .undefined, s)
  hear _ _ s := s
  apply _ id v s := s.edit (·.setAttribute id "paint" v.text)

theorem painter_tame : painter.Tame where
  quiet := fun _ _ _ => rfl
  writes := fun _ id v _ => by
    refine ⟨[.setAttribute id "paint" v.text], fun o mem => ?_, rfl⟩
    rw [List.mem_singleton.mp mem]
    rfl

def star : Markup := .element "b" [] [.text "${t}"]

/-- The standard directives, the one of the painter, and a component. -/
def paintRegistry : Registry :=
  match Template.compile .standard 0 star with
  | .error _ => .standard
  | .ok (t, _) =>
    (Registry.standard.registerDirective "paint" (.onElement (.host "paint"))).registerComponent
      "x-star" t

theorem standard_compiled : Registry.standard.Compiled where
  structural := fun _ _ found => by cases Registry.standard_builtIn found
  components := fun _ _ found => by cases found

theorem paintRegistry_compiled : paintRegistry.Compiled := by
  unfold paintRegistry
  split
  · exact standard_compiled
  · case h_2 t next compiled =>
    refine ⟨fun name t found => ?_, fun tag t' found => ?_⟩
    · rcases Table.mem_of_mem_insert (mem_of_lookup found) with same | old
      · cases same
      · have mem := Table.mem_of_mem_ofEntries old
        simp at mem
    · rcases Table.mem_of_mem_insert (mem_of_lookup found) with same | old
      · cases same
        refine .intro (fun _ _ _ => trivial) standard_compiled.structural
          standard_compiled.components ?_ compiled
        refine .element (by decide) fun kid mem => ?_
        rw [List.mem_singleton.mp mem]
        exact .text _
      · cases old

/-- Two numbered nodes, behind blank text and beside a component that has a number of its own. -/
def painted : Markup :=
  .element "div" [("class", "${c}")]
    [.text " ",
      .element "p" [("title", "${t}"), ("v-paint", "c")] [.text "${t}"],
      .element "x-star" [] []]

theorem painted_narrow : painted.Narrow := by
  refine .element (by decide) fun kid mem => ?_
  simp only [List.mem_cons, List.not_mem_nil, or_false] at mem
  rcases mem with rfl | rfl | rfl
  · exact .text _
  · refine .element (by decide) fun kid mem => ?_
    rw [List.mem_singleton.mp mem]
    exact .text _
  · exact .element (by decide) fun kid mem => (List.not_mem_nil mem).elim

def buildsPainted : Bool :=
  match Template.compile paintRegistry 1 painted with
  | .error _ => false
  | .ok (t, _) =>
    match t.create painter (scope "a" "x" true) blank with
    | .error _ _ => false
    | .ok _ _ => t.anchors.map Path.text = ["/1", "/1/0"]

end Sample

/-- The pass finds its anchors also after another table of the same length was put on the root. -/
theorem Template.anchors_agree_painted : ∃ t next root children s,
    Template.compile Sample.paintRegistry 1 Sample.painted = .ok (t, next) ∧
      t.create Sample.painter (Sample.scope "a" "x" true) Sample.blank = .ok (root, children) s ∧
      t.anchors.map Path.text = ["/1", "/1/0"] ∧ t.Numbered Sample.painted ∧
      t.Tabled Sample.painted s.document root ∧
      ∀ previous, Finds (t.update Sample.painter (Sample.scope "b" "y" false) root previous)
        (s.edit (·.setAnchors root [root, root])) fun _ _ => True := by
  have told : Sample.buildsPainted = true := by decide +kernel
  unfold Sample.buildsPainted at told
  split at told
  · cases told
  case h_2 t next compiled =>
  split at told
  · cases told
  case h_2 made s created =>
  obtain ⟨numbered, builds⟩ :=
    Template.anchors_agree Sample.paintRegistry_compiled Sample.painted_narrow compiled
  obtain ⟨root, children⟩ := made
  obtain ⟨tabled, passes⟩ :=
    (builds Sample.painter _ _ Sample.painter_tame (Document.sound_new false)).of_ok created
  have paths : t.anchors.map Path.text = ["/1", "/1/0"] := of_decide_eq_true told
  have two : t.anchors.length = 2 := by
    rw [← List.length_map Path.text, paths]
    rfl
  obtain ⟨q, x, _, anchored, _⟩ := tabled 0 _ (List.getElem?_eq_getElem (by omega))
  obtain ⟨nodes, kept, _⟩ := Option.bind_eq_some_iff.mp anchored
  obtain ⟨node, live, _⟩ := Option.bind_eq_some_iff.mp kept
  refine ⟨t, next, root, children, s, compiled, created, paths, numbered, tabled, fun previous =>
    passes _ _ previous _ (Sample.painter_tame.leavesTable root)
      (.perform (.setAnchors root [root, root]) .refl (fun nodes same => ?_) ?_)⟩
  · cases same
    exact Nat.le_of_eq two
  · simp only [Document.Operation.perform]
    exact Document.contains_iff.mpr ⟨{ node with anchors := some [root, root] }, by
      rw [Document.get?_setAnchors, if_pos rfl, live]
      rfl⟩

namespace Sample

/-- A value on the root, and one on a numbered node. -/
def titled : Markup := .element "p" [("class", "${c}")] [.element "b" [] [.text "${t}"]]

/-- The standard directives and one of a host. -/
def markRegistry : Registry :=
  Registry.standard.registerDirective "mark" (.onElement (.host "mark"))

/-- A host with a directive that takes the table of anchors away. -/
def stripper : Host Unit where
  call _ args s := (args.headD .undefined, s)
  hear _ _ s := s
  apply _ id v s := s.edit fun doc => (doc.setAttribute id "class" v.text).setAnchors id []

/-- An instance is made and its root, which stays, is worked on. Then a pass on it misses an
anchor. -/
def MissesAnchor (registry : Registry) (host : Host Unit) (m : Markup)
    (operations : NodeId → List Document.Operation) : Prop :=
  ∃ t next root children start anchor s', Template.compile registry 0 m = .ok (t, next) ∧
    t.create host (scope "a" "x" true) blank = .ok (root, children) start ∧
    (start.document.performAll (operations root)).contains root = true ∧
    t.update host (scope "a" "x" true) root none (start.edit (·.performAll (operations root))) =
      .error (.detachedAnchor anchor root) s'

def missesAnchor (registry : Registry) (host : Host Unit) (m : Markup)
    (operations : NodeId → List Document.Operation) : Bool :=
  match Template.compile registry 0 m with
  | .error _ => false
  | .ok (t, _) =>
    match t.create host (scope "a" "x" true) blank with
    | .error _ _ => false
    | .ok (root, _) s =>
      match t.update host (scope "a" "x" true) root none
          (s.edit (·.performAll (operations root))) with
      | .error (.detachedAnchor _ top) _ =>
        top = root && (s.document.performAll (operations root)).contains root
      | _ => false

theorem MissesAnchor.of_run {registry : Registry} {host : Host Unit} {m : Markup}
    {operations : NodeId → List Document.Operation}
    (told : missesAnchor registry host m operations = true) :
    MissesAnchor registry host m operations := by
  unfold missesAnchor at told
  split at told
  · cases told
  case h_2 t next compiled =>
  split at told
  · cases told
  case h_2 root children start created =>
  split at told
  case h_2 => cases told
  case h_1 anchor top s' failed =>
  obtain ⟨same, live⟩ := Bool.and_eq_true_iff.mp told
  cases of_decide_eq_true same
  exact ⟨t, next, root, children, start, anchor, s', compiled, created, live, failed⟩

end Sample

/-- A pass misses an anchor of a live root if somebody has put an empty table on the root, or if a
directive does so during the pass. -/
theorem Template.update_misses_anchor :
    Sample.MissesAnchor .standard Sample.echo Sample.titled (fun root => [.setAnchors root []]) ∧
      Sample.MissesAnchor Sample.markRegistry Sample.stripper
        (.element "p" [("v-mark", "c")] [.element "b" [] [.text "${t}"]]) fun _ => [] :=
  ⟨.of_run (by decide +kernel), .of_run (by decide +kernel)⟩

end LiveTemplate
