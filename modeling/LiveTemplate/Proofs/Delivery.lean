import LiveTemplate.Proofs.Rebuilding
import LiveTemplate.Proofs.Trails

/-!
# LiveTemplate.Proofs.Delivery

Where events go. On a document with instances and nothing else, an event calls the handler of the
nearest node at or above its target for which a template has one, once and with the arguments of
the last pass.

  * `Document.Nearest`     the nearest node at or above another with a property
  * `Subtree.Wires`        the nodes of a live subtree with a handler, and their arguments
  * `Run.delivers`         the main result
-/

namespace LiveTemplate

variable {κ : Type}

/-! ## Upwards -/

namespace Document

/-- A node, or a node above it. -/
inductive Above (doc : Document) : NodeId → NodeId → Prop
  | self (x : NodeId) : Above doc x x
  | parent {x p y : NodeId} (link : doc.parent? x = some p) (above : Above doc p y) : Above doc x y

/-- The first node with a property, from a node upwards. -/
inductive Nearest (doc : Document) (P : NodeId → Prop) : NodeId → NodeId → Prop
  | here {x : NodeId} (holds : P x) : Nearest doc P x x
  | above {x p y : NodeId} (other : ¬P x) (link : doc.parent? x = some p)
      (nearest : Nearest doc P p y) : Nearest doc P x y

/-- The way from a node up to one without a parent. -/
structure Chain (doc : Document) (part : Set NodeId) (P : NodeId → Prop) (test : NodeId → Bool)
    (x : NodeId) (nodes : List NodeId) : Prop where
  start : x ∈ part
  inside : ∀ y ∈ nodes, y ∈ part
  climb : ∀ k, doc.climb (nodes.length + k) (some x) = nodes
  -- The ways from nodes further up are no longer, so the chain does not come back to a node.
  shorter : ∀ y ∈ nodes, ∃ h ≤ nodes.length, ∀ k, (doc.climb (h + k) (some y)).length = h
  nodup : nodes.Nodup
  found : ∀ y, nodes.find? test = some y → P y ∧ doc.Nearest P x y
  missed : nodes.find? test = none → ∀ y, doc.Above x y → ¬P y

namespace Chain

variable {doc : Document} {part : Set NodeId} {P : NodeId → Prop} {test : NodeId → Bool}
  {x y : NodeId} {nodes : List NodeId}

theorem top (mem : x ∈ part) (root : doc.parent? x = none) (agree : test x = true ↔ P x) :
    doc.Chain part P test x [x] := by
  have climb (k : Nat) : doc.climb (1 + k) (some x) = [x] := by
    rw [Nat.add_comm, Document.climb, root, climb_none]
  refine ⟨mem, fun y hy => ?_, climb, fun y hy => ?_, List.nodup_singleton x, fun y hy => ?_,
    fun none y above => ?_⟩
  · rwa [List.mem_singleton.mp hy]
  · rw [List.mem_singleton.mp hy]
    exact ⟨1, Nat.le_refl _, fun k => by rw [climb]; rfl⟩
  · rw [List.find?_singleton] at hy
    split at hy
    · case isTrue holds =>
      cases hy
      exact ⟨agree.mp holds, .here (agree.mp holds)⟩
    · cases hy
  · cases above with
    | self =>
      intro holds
      rw [List.find?_singleton, if_pos (agree.mpr holds)] at none
      cases none
    | parent link => rw [root] at link; cases link

theorem down (chain : doc.Chain part P test x nodes) (link : doc.parent? y = some x)
    (mem : y ∈ part) (agree : test y = true ↔ P y) : doc.Chain part P test y (y :: nodes) := by
  have climb (k : Nat) : doc.climb ((y :: nodes).length + k) (some y) = y :: nodes := by
    rw [List.length_cons, Nat.add_right_comm, Document.climb, link, chain.climb]
  have new : y ∉ nodes := by
    intro again
    obtain ⟨h, le, short⟩ := chain.shorter y again
    have long := climb h
    have short := short (nodes.length + 1)
    rw [List.length_cons, Nat.add_comm] at long
    rw [long, List.length_cons] at short
    omega
  refine ⟨mem, fun z hz => ?_, climb, fun z hz => ?_, List.nodup_cons.mpr ⟨new, chain.nodup⟩,
    fun z hz => ?_, fun none z above => ?_⟩
  · rcases List.mem_cons.mp hz with rfl | hz
    · exact mem
    · exact chain.inside z hz
  · rcases List.mem_cons.mp hz with rfl | hz
    · exact ⟨_, Nat.le_refl _, fun k => by rw [climb]⟩
    · obtain ⟨h, le, short⟩ := chain.shorter z hz
      exact ⟨h, Nat.le_succ_of_le le, short⟩
  · rw [List.find?_cons] at hz
    split at hz
    · case h_1 holds =>
      cases hz
      exact ⟨agree.mp holds, .here (agree.mp holds)⟩
    · case h_2 fails =>
      obtain ⟨holds, nearest⟩ := chain.found z hz
      refine ⟨holds, .above (fun holds' => ?_) link nearest⟩
      rw [agree.mpr holds'] at fails
      cases fails
  · rw [List.find?_cons] at none
    split at none
    · cases none
    · case h_2 fails =>
      cases above with
      | self =>
        intro holds
        rw [agree.mpr holds] at fails
        cases fails
      | parent link' above =>
        rw [link] at link'
        cases link'
        exact chain.missed none z above

/-- A chain of live nodes is climbed to its end. -/
theorem climb_bound (chain : doc.Chain part P test x nodes) (region : doc.Region part) :
    doc.climb doc.walkBound (some x) = nodes := by
  have live : ∀ y ∈ nodes, ∃ n, doc.nodes.get? y = some n := fun y mem =>
    let ⟨n, live, _⟩ := region y (chain.inside y mem)
    ⟨n, live⟩
  have short : nodes.length ≤ doc.walkBound :=
    Nat.le_succ_of_le (Slots.length_le_size chain.nodup live)
  have climb := chain.climb (doc.walkBound - nodes.length)
  rwa [Nat.add_sub_cancel' short] at climb

end Chain

/-- From every node below a node without a parent, a chain leads up to that. -/
theorem chain_of_descend {doc : Document} {part : Set NodeId} {P : NodeId → Prop}
    {test : NodeId → Bool} (sound : doc.Sound) (region : doc.Region part)
    (agree : ∀ y ∈ part, test y = true ↔ P y) {q : List Nat} {x n : NodeId} {nodes : List NodeId}
    (chain : doc.Chain part P test x nodes) (found : doc.descend x q = some n) :
    ∃ nodes, doc.Chain part P test n nodes := by
  induction q generalizing x nodes with
  | nil =>
    cases found
    exact ⟨nodes, chain⟩
  | cons i q ih =>
    rw [descend] at found
    obtain ⟨node, live, found⟩ := Option.bind_eq_some_iff.mp found
    obtain ⟨c, child, found⟩ := Option.bind_eq_some_iff.mp found
    have listed := List.mem_of_getElem? child
    obtain ⟨below, here, back⟩ := sound.links.pointsBack live listed
    have mem : c ∈ part := by
      obtain ⟨node', live', closed⟩ := region x chain.start
      rw [live] at live'
      cases live'
      exact closed c listed
    exact ih (chain.down (by rw [parent?, here]; exact back) mem (agree c mem)) found

end Document

/-! ## Handlers -/

/-- The path of the node built at a position, if anything is bound to it. -/
def Template.path? (t : Template) : List Nat → Option Path
  | [] => some .root
  | q => (t.plan.at? q).bind fun p => p.anchor?.bind (t.anchors[·]?)

/-- The arguments for the handler at a position: those that the last pass computed for the event,
none if nothing is bound to it. -/
def Template.argumentsFor (t : Template) (passes : List (List (Anchor × Computed))) (q : List Nat)
    (event : String) : List Value :=
  let computed := (t.path? q).bind fun path => passes.head?.bind (·.lookup ⟨path, .event event⟩)
  (computed.map Computed.toArgs).getD []

/-- A node for which a template has a handler for the event, with the arguments for it. -/
inductive Subtree.Wires (doc : Document) (event : String) :
    Subtree → Mount → Trail → NodeId → List Value → Prop
  | own {t : Template} {root : NodeId} {snapshot : Option Snapshot} {children : List Mount}
      {passes : List (List (Anchor × Computed))} {trails : List Trail} {q : List Nat} {p : Plan}
      {w : Wiring} {x : NodeId} (part : t.plan.at? q = some p) (wired : w ∈ p.wirings)
      (heard : w.event = event) (node : doc.descend root q = some x) :
      Wires doc event (.template t) (.template root snapshot children) (.template passes trails) x
        (t.argumentsFor passes q event)
  | mounted {t : Template} {root : NodeId} {snapshot : Option Snapshot} {children : List Mount}
      {passes : List (List (Anchor × Computed))} {trails : List Trail} {k : Nat}
      {extension : Extension} {m : Mount} {trail : Trail} {x : NodeId} {args : List Value}
      (point : t.extensions[k]? = some extension) (child : children[k]? = some m)
      (past : trails[k]? = some trail) (inner : Wires doc event extension.subtree m trail x args) :
      Wires doc event (.template t) (.template root snapshot children) (.template passes trails) x
        args
  | shown {condition : Condition} {body : Subtree} {node : NodeId} {m : Mount} {trail : Trail}
      {x : NodeId} {args : List Value} (inner : Wires doc event body m trail x args) :
      Wires doc event (.conditional condition body) (.conditional node (some m))
        (.conditional (some trail)) x args

section

open Document Template

variable {terms : Terms} {doc : Document} {event : String} {t : Template}
  {place : List Nat → NodeId} {values : List (Binding × Computed)}

theorem Plan.hole?_of_wirings {p : Plan} {w : Wiring} (h : w ∈ p.wirings) : p.hole? = none := by
  cases p <;> first | rfl | cases h

/-- A binding writes to the node at a position exactly if its path is that of the node. -/
theorem Template.targetPath?_iff {strict : Prop} (tidy : t.Tidy strict) {m : Markup}
    (traced : t.Traced m) (narrow : m.Narrow) {b : Binding} (mem : b ∈ t.bindings) {q : List Nat}
    {p : Plan} (part : t.plan.at? q = some p) :
    t.targetPath? b.target = some q ↔ t.path? q = some b.path := by
  cases q with
  | nil =>
    change _ ↔ some Path.root = some b.path
    rcases tidy.reach b mem with ⟨target, path⟩ | ⟨slot, target, path⟩
    · rw [target, path]
      exact ⟨fun _ => rfl, fun _ => rfl⟩
    · rw [target]
      refine ⟨fun h => (tidy.slotPath?_ne_root slot h).elim, fun h => ?_⟩
      rw [← Option.some.inj h] at path
      exact (tidy.rootless (List.mem_of_getElem? path)).elim
  | cons i q =>
    have path_eq : t.path? (i :: q) = p.anchor?.bind (t.anchors[·]?) := by
      rw [Template.path?, part, Option.bind_some]
      exact nofun
    rw [path_eq]
    rcases tidy.reach b mem with ⟨target, path⟩ | ⟨slot, target, path⟩
    · rw [target, path]
      refine ⟨(fun h => by cases h), fun h => ?_⟩
      obtain ⟨slot, _, found⟩ := Option.bind_eq_some_iff.mp h
      exact (tidy.rootless (List.mem_of_getElem? found)).elim
    · rw [target]
      constructor
      · intro h
        obtain ⟨p', found, anchor⟩ := anchor_of_slotPath h
        rw [part] at found
        cases found
        rw [anchor, Option.bind_some, path]
      · intro h
        obtain ⟨other, anchor, found⟩ := Option.bind_eq_some_iff.mp h
        obtain ⟨lt, found⟩ := List.getElem?_eq_some_iff.mp found
        obtain ⟨lt', path⟩ := List.getElem?_eq_some_iff.mp path
        have same : other = slot := (tidy.nodup.getElem_inj_iff).mp (found.trans path.symm)
        subst same
        have marked := Plan.mem_marks.mpr ⟨p, part, anchor⟩
        cases look : t.plan.marks.lookup other with
        | none =>
          have absent := List.lookup_eq_none_iff.mp look _ marked
          simp at absent
        | some r =>
          change t.plan.marks.lookup other = _
          rw [look, traced.numbered narrow (mem_of_lookup look) marked]

/-- The arguments kept on a node are those for its handler. -/
theorem Template.Own.arguments (own : t.Own terms doc place values) (coherent : terms.coherent)
    (tidy : t.Tidy terms.builtin) {m : Markup} (traced : t.Traced m) (narrow : m.Narrow)
    {snapshot : Option Snapshot} (remembers : t.Remembers snapshot values)
    {passes : List (List (Anchor × Computed))}
    (latest : snapshot.map Snapshot.values = passes.head?) {q : List Nat} {p : Plan}
    (part : t.plan.at? q = some p) (solid : p.hole? = none) (event : String) :
    List.Forall₂ Value.Close ((doc.handlerData? (place q) event).getD [])
      (t.argumentsFor passes q event) := by
  have kept : t.argumentsFor passes q event = (((t.path? q).bind fun path =>
      snapshot.bind (·.get? ⟨path, .event event⟩)).map Computed.toArgs).getD [] := by
    rw [argumentsFor, ← latest]
    cases snapshot <;> rfl
  rw [kept]
  obtain ⟨node, live, shows⟩ := own.node q p part solid
  have holds := shows.data coherent
  rw [handlerData?, live, Option.bind_some]
  by_cases bound : ∃ v ∈ t.valuesAt values q, v.1.action.facet = .event event
  · obtain ⟨⟨b, c⟩, mem, facet⟩ := bound
    obtain ⟨known, target⟩ := List.mem_filter.mp mem
    obtain ⟨args, data, close⟩ := holds.bound _ mem event facet
    have computed : ((t.path? q).bind fun path =>
        snapshot.bind (·.get? ⟨path, .event event⟩)) = some c := by
      cases remembers with
      | nothing => cases known
      | pass values applied same =>
        have mem : b ∈ t.bindings := same ▸ List.mem_map_of_mem known
        have path := (targetPath?_iff tidy traced narrow mem part).mp (of_decide_eq_true target)
        have value : (t.snapshotOf values applied).get? ⟨b.path, .event event⟩ = some c := by
          rw [← facet]
          exact get?_snapshotOf applied tidy.distinct same known
        rw [path, Option.bind_some, Option.bind_some, value]
    rw [data, computed]
    exact close
  · have missing : ((t.path? q).bind fun path =>
        snapshot.bind (·.get? ⟨path, .event event⟩)) = none := by
      refine Option.eq_none_iff_forall_ne_some.mpr fun c found => bound ?_
      obtain ⟨path, here, found⟩ := Option.bind_eq_some_iff.mp found
      obtain ⟨snap, rfl, found⟩ := Option.bind_eq_some_iff.mp found
      cases remembers with
      | pass values applied same =>
        obtain ⟨⟨b, c'⟩, known, entry⟩ := List.mem_map.mp (mem_of_lookup found)
        have anchor : Anchor.mk b.path b.action.facet = ⟨path, .event event⟩ :=
          (Prod.mk.inj entry).1
        obtain ⟨rfl, facet⟩ := Anchor.mk.inj anchor
        have mem : b ∈ t.bindings := same ▸ List.mem_map_of_mem known
        have target := (targetPath?_iff tidy traced narrow mem part).mpr here
        exact ⟨(b, c'), List.mem_filter.mpr ⟨known, decide_eq_true target⟩, facet⟩
    have none := holds.free event fun v mem facet => bound ⟨v, mem, facet⟩
    rw [none, missing]
    exact .nil

/-- The part of one of the subtrees that are mounted. -/
theorem Extension.StandAll.at {extensions : List Extension} {ms : List Mount} {part : Set NodeId}
    (h : Extension.StandAll terms doc extensions ms part) {k : Nat} {extension : Extension}
    {m : Mount} (point : extensions[k]? = some extension) (child : ms[k]? = some m) :
    ∃ here, extension.subtree.Stands terms doc m here := by
  induction extensions generalizing ms part k with
  | nil => cases point
  | cons first rest ih =>
    obtain ⟨path, name, subtree⟩ := first
    cases ms with
    | nil => cases child
    | cons m' ms =>
      rw [Extension.StandAll] at h
      obtain ⟨here, there, _, _, stands, others⟩ := h
      cases k with
      | zero =>
        cases point
        cases child
        exact ⟨here, stands⟩
      | succ k => exact ih others point child

theorem Extension.AllEach.at {P : Template → Prop} {extensions : List Extension}
    (h : Extension.AllEach P extensions) {k : Nat} {extension : Extension}
    (point : extensions[k]? = some extension) : extension.subtree.Each P := by
  induction extensions generalizing k with
  | nil => cases point
  | cons first rest ih =>
    obtain ⟨path, name, subtree⟩ := first
    rw [Extension.AllEach] at h
    cases k with
    | zero => cases point; exact h.1
    | succ k => exact ih h.2 point

/-- A node that a template has a handler for has one, and keeps the arguments for it. -/
theorem Subtree.Wires.delivered {subtree : Subtree} {m : Mount} {part : Set NodeId}
    (stands : subtree.Stands terms doc m part) (coherent : terms.coherent)
    (each : subtree.Each (Template.Fine terms.builtin True)) {trail : Trail}
    (recalls : m.Recalls trail) {x : NodeId} {args : List Value}
    (wires : subtree.Wires doc event m trail x args) :
    doc.hasHandler x event = true ∧ event ∈ doc.listening ∧
      List.Forall₂ Value.Close ((doc.handlerData? x event).getD []) args := by
  induction wires generalizing part with
  | @own t root snapshot children passes trails q p w x found wired heard node =>
    rw [Subtree.Each, Template.each_iff] at each
    obtain ⟨tidy, m, small, traced⟩ := each.1
    rw [Subtree.Stands] at stands
    obtain ⟨_, _, _, place, values, _, same, rooted, _, _⟩ := Template.stands_iff.mp stands
    cases same
    obtain ⟨latest, _⟩ := recalls
    have solid := Plan.hole?_of_wirings wired
    have here : doc.descend root q = some (place q) := by
      rw [← rooted.root]
      exact rooted.own.descend (Plan.at?_nil _) found
    rw [here] at node
    cases node
    obtain ⟨n, live, shows⟩ := rooted.own.node q p found solid
    obtain ⟨scope, all, _⟩ := shows.wired
    obtain ⟨f, handler⟩ := all w wired
    refine ⟨?_, rooted.own.heard event (heard ▸ tidy.wired q p found w wired),
      rooted.own.arguments coherent tidy traced (small trivial) rooted.remembers latest found solid
        event⟩
    rw [hasHandler, handler?, live, Option.bind_some, ← heard, handler]
    rfl
  | mounted point child past inner ih =>
    rw [Subtree.Each, Template.each_iff] at each
    rw [Subtree.Stands] at stands
    obtain ⟨_, _, _, _, _, _, same, _, _, others⟩ := Template.stands_iff.mp stands
    cases same
    obtain ⟨_, mounted⟩ := recalls
    obtain ⟨_, past', recalls⟩ := forall₂_getElem? mounted child
    rw [past] at past'
    cases past'
    obtain ⟨here, stands⟩ := others.at point child
    exact ih stands (each.2.at point) recalls
  | @shown condition body node m trail x args inner ih =>
    rw [Subtree.Stands] at stands
    obtain _ | _ | recalls := recalls
    cases body with
    | template t => exact ih stands.2 each recalls
    | conditional condition body => exact each.elim

mutual

/-- Only nodes that a template has a handler for have one. -/
theorem Subtree.Stands.wires : ∀ {subtree : Subtree} {m : Mount} {trail : Trail}
    {part : Set NodeId}, subtree.Stands terms doc m part → m.Recalls trail → ∀ {x : NodeId},
      x ∈ part → doc.hasHandler x event = true → ∃ args, subtree.Wires doc event m trail x args
  | .template t, m, trail, part, h, recalls, x, mem, handler => by
    rw [Subtree.Stands] at h
    exact Template.Stands.wires h recalls mem handler
  | .conditional condition body, _, _, part, h, .shown recalls, x, mem, handler => by
    rw [Subtree.Stands] at h
    obtain ⟨args, inner⟩ := Subtree.Stands.wires h.2 recalls mem handler
    exact ⟨args, .shown inner⟩
  | .conditional condition body, _, _, part, h, .hidden, x, mem, handler => by
    rw [Subtree.Stands] at h
    obtain ⟨rfl, n, live, _, _, none, _⟩ := h
    rw [Set.mem_singleton_iff.mp mem, hasHandler, handler?, live, Option.bind_some, none] at handler
    cases handler
  | .conditional condition body, _, _, part, h, .template _ _, _, _, _ => by
    rw [Subtree.Stands] at h
    exact h.elim

theorem Template.Stands.wires : ∀ {t : Template} {m : Mount} {trail : Trail} {part : Set NodeId},
    t.Stands terms doc m part → m.Recalls trail → ∀ {x : NodeId}, x ∈ part →
      doc.hasHandler x event = true →
      ∃ args, (Subtree.template t).Wires doc event m trail x args
  | ⟨_, _, _, _, _, _, _⟩, m, trail, part, h, recalls, x, mem, handler => by
    obtain ⟨root, _, _, place, values, rest, rfl, rooted, rfl, others⟩ := Template.stands_iff.mp h
    obtain ⟨_, mounted⟩ := recalls
    rcases mem with ⟨q, p, found, solid, rfl⟩ | mem
    · obtain ⟨n, live, shows⟩ := rooted.own.node q p found solid
      obtain ⟨scope, _, only⟩ := shows.wired
      rw [hasHandler, handler?, live, Option.bind_some] at handler
      obtain ⟨f, handler⟩ := Option.isSome_iff_exists.mp handler
      obtain ⟨w, wired, heard, _⟩ := only event f handler
      refine ⟨_, .own found wired heard ?_⟩
      rw [← rooted.root]
      exact rooted.own.descend (Plan.at?_nil _) found
    · obtain ⟨k, extension, m, trail, args, point, child, past, inner⟩ :=
        Extension.StandAll.wires others mounted mem handler
      exact ⟨args, .mounted point child past inner⟩

theorem Extension.StandAll.wires : ∀ {extensions : List Extension} {ms : List Mount}
    {trails : List Trail} {part : Set NodeId}, Extension.StandAll terms doc extensions ms part →
      List.Forall₂ Mount.Recalls ms trails → ∀ {x : NodeId}, x ∈ part →
      doc.hasHandler x event = true →
      ∃ (k : Nat) (extension : Extension) (m : Mount) (trail : Trail) (args : List Value),
        extensions[k]? = some extension ∧ ms[k]? = some m ∧ trails[k]? = some trail ∧
          extension.subtree.Wires doc event m trail x args
  | [], [], _, part, h, _, x, mem, _ => by
    rw [Extension.StandAll] at h
    subst h
    exact (Set.notMem_empty x mem).elim
  | ⟨path, name, subtree⟩ :: rest, m :: ms, _, part, h, .cons recalls more, x, mem, handler => by
    rw [Extension.StandAll] at h
    obtain ⟨here, there, rfl, _, stands, others⟩ := h
    rcases mem with mem | mem
    · obtain ⟨args, inner⟩ := Subtree.Stands.wires stands recalls mem handler
      exact ⟨0, _, m, _, args, rfl, rfl, rfl, inner⟩
    · obtain ⟨k, extension, m', trail, args, point, child, past, inner⟩ :=
        Extension.StandAll.wires others more mem handler
      exact ⟨k + 1, extension, m', trail, args, point, child, past, inner⟩
  | [], m :: ms, _, part, h, _, _, _, _ => by rw [Extension.StandAll] at h; exact h.elim
  | _ :: _, [], _, part, h, _, _, _, _ => by rw [Extension.StandAll] at h; exact h.elim

end

end

/-! ## Events -/

/-- The templates with paths that tell all nodes apart. -/
abbrev Template.Narrow (t : Template) : Prop := t.Compiled (fun _ _ => True) Markup.Narrow

theorem Template.Narrow.fine {t : Template} (h : t.Narrow) : t.Each (Template.Fine False True) :=
  Template.Compiled.each h (fun loose => loose.elim) fun _ narrow _ => narrow

section

open Document

variable {host : Host κ} {held : κ → Heap} {origin : Document} {s : Stage κ}
  {instances : List Instance}

/-- A node for which an instance of the run has a handler, with the arguments for it. -/
def Run.Wires {admitted : Template → Prop} (run : Run host held admitted origin s instances)
    (event : String) (x : NodeId) (args : List Value) : Prop :=
  ∃ (k : Nat) (i : Instance) (trail : Trail), instances[k]? = some i ∧ run.trails[k]? = some trail ∧
    (Subtree.template i.template).Wires s.document event i.toMount trail x args

/-- One delegating listener passes the event on, if there is any. -/
theorem Host.fire_heard (probe : Host κ) (heard : s.document.Heard) (n : NodeId) (event : String) :
    probe.fire n event s =
      if event ∈ s.document.listening then (1, (probe.dispatch n event s).2) else (0, s) := by
  unfold Host.fire
  rw [heard event]
  split <;> rfl

/-- After every run, an event calls the handler of the nearest node at or above its target for
which a template has one, once, and with the arguments that the last pass of its instance computed.
Without such a node nothing is called. What the handlers do does not matter to this. -/
theorem Run.delivers (quiet : host.Quiet) (consistent : host.Consistent held)
    (decorates : host.Decorates held) (sound : origin.Sound) (unheard : origin.Heard)
    (run : Run host held Template.Narrow origin s instances) {i : Instance} (mem : i ∈ instances)
    {q : List Nat} {n : NodeId} (node : s.document.descend i.root q = some n) (event : String) :
    (∃ x f passed, s.document.handler? x event = some f ∧
      s.document.Nearest (fun y => ∃ args, run.Wires event y args) n x ∧
      (∀ args, run.Wires event x args → List.Forall₂ Value.Close passed args) ∧
      ∀ probe : Host κ, probe.fire n event s = (1, (probe.call f passed s).2)) ∨
    (∀ x args, s.document.Above n x → ¬run.Wires event x args) ∧
      ∀ probe : Host κ, (probe.fire n event s).2 = s := by
  have behaves : host.Behaves ⟨False, True⟩ held := ⟨quiet, fun _ => consistent, .inr decorates⟩
  obtain ⟨sound, heard, narrow, parts, standing⟩ := run.standing behaves
    (fun _ h => h.fine.mono fun _ fine => fine.tidy) sound
  have heard := heard unheard
  have delivered {x : NodeId} {args : List Value} (wires : run.Wires event x args) :
      s.document.hasHandler x event = true ∧ event ∈ s.document.listening ∧
        List.Forall₂ Value.Close ((s.document.handlerData? x event).getD []) args := by
    obtain ⟨l, j, trail, found, past, wires⟩ := wires
    obtain ⟨_, past', recalls⟩ := forall₂_getElem? run.recalls found
    rw [past] at past'
    cases past'
    have stands : (Subtree.template j.template).Stands ⟨False, True⟩ s.document j.toMount
        (parts l) := by
      rw [Subtree.Stands]
      exact standing.stands l j found
    exact wires.delivered stands trivial (narrow j (List.mem_of_getElem? found)).fine recalls
  obtain ⟨k, found⟩ := List.mem_iff_getElem?.mp mem
  have stands := standing.stands k i found
  have agree : ∀ y ∈ parts k, s.document.hasHandler y event = true ↔
      ∃ args, run.Wires event y args := by
    refine fun y inside => ⟨fun handler => ?_, fun ⟨args, wires⟩ => (delivered wires).1⟩
    obtain ⟨trail, past, recalls⟩ := forall₂_getElem? run.recalls found
    obtain ⟨args, wires⟩ := stands.wires recalls inside handler
    exact ⟨args, k, i, trail, found, past, wires⟩
  obtain ⟨nodes, chain⟩ := chain_of_descend sound stands.region agree
    (Chain.top stands.node_mem (standing.detached k i found) (agree _ stands.node_mem)) node
  have climb := chain.climb_bound stands.region
  have dispatch (probe : Host κ) := probe.fire_heard heard n event
  unfold Host.dispatch findHandler? at dispatch
  rw [climb] at dispatch
  cases first : nodes.find? fun y => s.document.hasHandler y event with
  | some x =>
    obtain ⟨⟨args, wires⟩, nearest⟩ := chain.found x first
    obtain ⟨handler, listening, _⟩ := delivered wires
    obtain ⟨f, handler⟩ := Option.isSome_iff_exists.mp handler
    refine .inl ⟨x, f, (s.document.handlerData? x event).getD [], handler, nearest,
      fun args wires => (delivered wires).2.2, fun probe => ?_⟩
    rw [dispatch, if_pos listening, first]
    dsimp only
    rw [handler]
  | none =>
    refine .inr ⟨fun x args above wires => chain.missed first x above ⟨args, wires⟩,
      fun probe => ?_⟩
    rw [dispatch, first]
    split <;> rfl

end

namespace Sample

theorem echo_decorates : echo.Decorates fun _ => nothing where
  writes _ _ _ _ := ⟨[], fun _ mem => (List.not_mem_nil mem).elim, rfl⟩
  consistent _ _ _ _ heap covers _ := ⟨heap, .refl heap, covers⟩

def button : Markup :=
  .element "p" [("onclick", "${f(c)}")] [.element "b" [] [.text "${f(t)}"]]

theorem button_narrow : button.Narrow := by
  refine .element (by decide) fun kid mem => ?_
  rw [List.mem_singleton.mp mem]
  refine .element (by decide) fun kid mem => ?_
  rw [List.mem_singleton.mp mem]
  exact .text "${f(t)}"

/-- Its functions count the calls with `z`. -/
def tally : Host Unit where
  call _ args s := (.undefined, match args with
    | [.string "z"] => { s with nextRef := s.nextRef + 1 }
    | _ => s)
  hear _ _ s := s
  apply _ _ _ s := s

/-- An instance is made and updated, another update fails, and then the text is clicked. -/
def clicks : Bool :=
  match Template.compile .standard 0 button with
  | .error _ => false
  | .ok (t, _) =>
    match t.createInstance echo (scope "a" "x" true) blank with
    | .error _ _ => false
    | .ok i s =>
      match i.update echo (scope "z" "y" true) s with
      | (⟨_, some _⟩, _) => false
      | (⟨i₁, .none⟩, s₁) =>
        match i₁.update echo broken s₁ with
        | (⟨_, .none⟩, _) => false
        | (⟨i₂, some _⟩, s₂) =>
          match s₂.document.descend i₂.root [0, 0] with
          | .none => false
          | some n => remembersPlain i && remembersPlain i₁ &&
              (tally.fire n "click" s₂).2.nextRef == s₂.nextRef + 1

end Sample

theorem Run.delivers_after_failure : ∃ t next i s i₁ s₁ e i₂ s₂ n f,
    Template.compile .standard 0 Sample.button = .ok (t, next) ∧
      t.createInstance Sample.echo (Sample.scope "a" "x" true) Sample.blank = .ok i s ∧
      i.update Sample.echo (Sample.scope "z" "y" true) s = (⟨i₁, none⟩, s₁) ∧
      i₁.update Sample.echo Sample.broken s₁ = (⟨i₂, some e⟩, s₂) ∧
      s₂.document.descend i₂.root [0, 0] = some n ∧
      ∀ probe : Host Unit, probe.fire n "click" s₂ = (1, (probe.call f [.string "z"] s₂).2) := by
  have told : Sample.clicks = true := by decide +kernel
  unfold Sample.clicks at told
  split at told
  · cases told
  case h_2 t next compiled =>
  split at told
  · cases told
  case h_2 i s made =>
  split at told
  · cases told
  case h_2 i₁ s₁ updated =>
  split at told
  · cases told
  case h_2 i₂ e s₂ failed =>
  split at told
  · cases told
  case h_2 n node =>
  obtain ⟨known, counted⟩ := Bool.and_eq_true_iff.mp told
  obtain ⟨known, known₁⟩ := Bool.and_eq_true_iff.mp known
  have counted : (Sample.tally.fire n "click" s₂).2.nextRef = s₂.nextRef + 1 := eq_of_beq counted
  have start : Run Sample.echo (fun _ => Sample.nothing) Template.Narrow .empty Sample.blank [] :=
    .start rfl
  have narrow : t.Narrow := .intro (fun _ _ _ => trivial) (fun name t found => by
    cases Registry.standard_builtIn found) (fun tag t found => by cases found)
      Sample.button_narrow compiled
  have first := start.create _ narrow
    (Sample.coherent (by decide +kernel) fun _ mem => (List.not_mem_nil mem).elim) made
  have second := first.update (k := 0) _ rfl (Sample.coherent (by decide +kernel) fun _ mem => by
    rw [List.mem_singleton.mp mem]; exact known) updated
  have third := second.update (k := 0) _ rfl (Sample.coherent (by decide +kernel) fun _ mem => by
    rw [List.mem_singleton.mp mem]; exact known₁) failed
  rcases Run.delivers Sample.echo_quiet Sample.echo_pure.consistent Sample.echo_decorates
      (Document.sound_new false) (fun _ => rfl) third (i := i₂) List.mem_cons_self node
      "click" with ⟨x, f, passed, _, _, _, calls⟩ | ⟨_, nothing⟩
  · refine ⟨t, next, i, s, i₁, s₁, e, i₂, s₂, n, f, compiled, made, updated, failed, node, ?_⟩
    have same : passed = [.string "z"] := by
      rw [calls] at counted
      change (match passed with
        | [.string "z"] => { s₂ with nextRef := s₂.nextRef + 1 }
        | _ => s₂).nextRef = _ at counted
      split at counted
      · rfl
      · exact absurd counted (Nat.ne_of_lt (Nat.lt_succ_self _))
    rwa [same] at calls
  · rw [nothing] at counted
    exact absurd counted (Nat.ne_of_lt (Nat.lt_succ_self _))

end LiveTemplate
