import LiveTemplate.Proofs.Mounting
import LiveTemplate.Proofs.Replay

/-!
# LiveTemplate.Proofs.Entries

Which entries building and writing make. Building names new nodes only; a pass over the bindings of
an instance names the nodes of the instance and changes neither links nor handlers.

  * `Document.Logs`           entries that name none of some nodes
  * `Document.Touches`        entries of writes
  * `Template.buildPlan_spares` building
  * `Template.update_touches` one pass
-/

namespace LiveTemplate

variable {κ : Type}

namespace Mutation

/-- The nodes that an entry names. -/
def nodes : Mutation → List NodeId
  | .appendChild parent child => [parent, child]
  | .replaceNode old new => [old, new]
  | m => [m.node]

/-- Changes the tree or its handlers, as opposed to what a node shows. -/
def reshapes : Mutation → Bool
  | .setHandler _ _ => true
  | m => m.isStructural

end Mutation

namespace Document

/-- A sound document in which some nodes are live. -/
structure Guards (out : Set NodeId) (doc : Document) : Prop where
  sound : doc.Sound
  live : ∀ x ∈ out, doc.get? x ≠ none

/-- The journal got more entries. None of them names one of some nodes, which all stay alive. -/
structure Logs (out : Set NodeId) (log : List Mutation) (doc doc' : Document) : Prop where
  journal : doc'.journal = doc.journal.map (· ++ log.toArray)
  names : ∀ m ∈ log, ∀ x ∈ m.nodes, x ∉ out
  guards : doc'.Guards out

namespace Logs

variable {out out' : Set NodeId} {log log' : List Mutation} {a b c : Document}

theorem refl (guards : a.Guards out) : a.Logs out [] a :=
  ⟨by simp, fun _ mem => (List.not_mem_nil mem).elim, guards⟩

theorem trans (h : a.Logs out log b) (k : b.Logs out log' c) : a.Logs out (log ++ log') c := by
  refine ⟨?_, fun m mem => ?_, k.guards⟩
  · rw [k.journal, h.journal]
    cases a.journal <;> simp
  · exact (List.mem_append.mp mem).elim (h.names m) (k.names m)

theorem mono (h : a.Logs out log b) (sub : out' ⊆ out) : a.Logs out' log b :=
  ⟨h.journal, fun m mem x named inside => h.names m mem x named (sub inside), h.guards.sound,
    fun x mem => h.guards.live x (sub mem)⟩

end Logs

theorem journal_of_noted (doc : Document) {operation : Operation}
    (keeps : operation ≠ .takeJournal) :
    (operation.perform doc).journal =
      doc.journal.map (· ++ (operation.noted? doc).toList.toArray) := by
  rw [Operation.journal_perform doc keeps]
  cases operation.noted? doc <;> cases doc.journal <;> simp

/-- A call that frees nothing. -/
theorem live_perform {doc : Document} (sound : doc.Sound) {operation : Operation}
    (keeps : ∀ id, operation ≠ .release id) {x : NodeId} (live : doc.get? x ≠ none) :
    (operation.perform doc).get? x ≠ none := by
  have at' {doc' : Document} {id : NodeId} {f : Node → Node} (same : ∀ x, doc'.get? x =
      if x = id then (doc.get? x).map f else doc.get? x) : doc'.get? x ≠ none := by
    rw [same]
    split
    · simpa using live
    · exact live
  have there : doc.contains x = true := contains_iff.mpr (Option.ne_none_iff_exists'.mp live)
  have linked {doc' : Document} (same : doc'.contains x = doc.contains x) : doc'.get? x ≠ none :=
    Option.ne_none_iff_exists'.mpr (contains_iff.mp (same.trans there))
  have modified (doc : Document) (id : NodeId) (f : Node → Node) :
      (doc.modify id f).contains x = doc.contains x := by
    unfold Document.contains Slots.contains
    change ((doc.modify id f).get? x).isSome = (doc.get? x).isSome
    rw [get?_modify]
    split <;> simp
  have inserted (content : Content) : (doc.insert content).2.get? x ≠ none := by
    rw [get?_insert sound]
    split
    · exact Option.some_ne_none _
    · exact live
  cases operation with
  | createElement tag => exact inserted _
  | createText content => exact inserted _
  | createComment content => exact inserted _
  | setAttribute id name value => exact at' (get?_setAttribute doc id name value)
  | removeAttribute id name => exact at' (get?_removeAttribute doc id name)
  | setProperty id name value => exact at' (get?_setProperty doc id name value)
  | setText id content => exact at' (get?_setText doc id content)
  | setHandler id event f => exact at' (get?_setHandler doc id event f)
  | setHandlerData id event args => exact at' (get?_setHandlerData doc id event args)
  | setAnchors root anchors => exact at' (get?_setAnchors doc root anchors)
  | appendChild parent child =>
    simp only [Operation.perform, appendChild]
    split
    · refine linked ?_
      change ((((doc.detach child).modify child _).modify parent _)).contains x = _
      rw [modified, modified, contains_detach]
    · exact live
  | replaceNode old new =>
    simp only [Operation.perform, replaceNode]
    split
    · exact live
    · split
      · exact live
      · refine linked ?_
        change (((((doc.detach new).modify _ _).modify old _).modify new _)).contains x = _
        rw [modified, modified, modified, contains_detach]
  | removeNode id =>
    simp only [Operation.perform, removeNode]
    split
    · exact linked (contains_detach doc id x)
    · exact live
  | release id => exact absurd rfl (keeps id)
  | addListener event listener => exact live
  | ensureListening event =>
    simp only [Operation.perform, ensureListening]
    split <;> exact live
  | takeJournal => exact live

/-- A call that frees nothing, as an entry. -/
theorem logs_perform {out : Set NodeId} {doc : Document} (guards : doc.Guards out)
    (operation : Operation) (keeps : operation ≠ .takeJournal)
    (spares : ∀ id, operation ≠ .release id)
    (names : ∀ m, operation.noted? doc = some m → ∀ x ∈ m.nodes, x ∉ out) :
    doc.Logs out (operation.noted? doc).toList (operation.perform doc) := by
  refine ⟨journal_of_noted doc keeps, fun m mem => ?_, guards.sound.perform operation,
    fun x mem => live_perform guards.sound spares (guards.live x mem)⟩
  exact names m (Option.mem_toList.mp mem)

/-- A write on one node. -/
theorem logs_at {out : Set NodeId} {doc : Document} (guards : doc.Guards out)
    (operation : Operation) {id : NodeId} (outside : id ∉ out)
    (keeps : operation ≠ .takeJournal) (spares : ∀ id, operation ≠ .release id)
    (single : ∀ m, operation.noted? doc = some m → m.nodes = [id]) :
    doc.Logs out (operation.noted? doc).toList (operation.perform doc) := by
  refine logs_perform guards operation keeps spares fun m noted x named => ?_
  rw [single m noted, List.mem_singleton] at named
  rwa [named]

end Document

/-! ## Building -/

/-- A construction whose entries name none of some nodes. -/
def Construction.Spares {α : Type} (out : Set NodeId) (m : Construction α) (ok : α → Prop) : Prop :=
  ∀ site, site.document.Guards out → Ends m site
    (fun a site' => ok a ∧ ∃ log, site.document.Logs out log site'.document) fun _ => True

namespace Construction.Spares

open Document

variable {α β : Type} {out : Set NodeId} {ok : α → Prop}

theorem bind {m : Construction α} {f : α → Construction β} {post : β → Prop}
    (h : Spares out m ok) (next : ∀ a, ok a → Spares out (f a) post) :
    Spares out (m >>= f) post := by
  intro site guards
  refine Ends.bind ((h site guards).imp ?_ fun _ h => h)
  rintro a site₁ ⟨good, log, logs⟩
  refine (next a good site₁ logs.guards).imp ?_ fun _ h => h
  rintro b site₂ ⟨done, log', logs'⟩
  exact ⟨done, _, logs.trans logs'⟩

theorem pure {a : α} (h : ok a) : Spares out (pure a) ok :=
  fun _ guards => ⟨h, [], .refl guards⟩

theorem get : Spares out (MonadState.get : Construction Site) fun _ => True :=
  fun _ guards => ⟨trivial, [], .refl guards⟩

/-- What is noted on the site is no entry. -/
theorem note {f : Site → Site} (same : ∀ site, (f site).document = site.document) :
    Spares out (modify f) fun _ => True := by
  intro site guards
  refine ⟨trivial, [], ?_⟩
  rw [same]
  exact .refl guards

theorem write {f : Document → Document} (logs : ∀ doc : Document, doc.Guards out →
    ∃ log, doc.Logs out log (f doc)) : Spares out (Plan.write f) fun _ => True :=
  fun site guards => ⟨trivial, logs site.document guards⟩

theorem loop {body : α → PUnit → Construction (ForInStep PUnit)}
    (turn : ∀ a, Spares out (body a ⟨⟩) (· = .yield ⟨⟩)) (xs : List α) :
    Spares out (forIn xs PUnit.unit body) fun _ => True := by
  induction xs with
  | nil => exact pure trivial
  | cons a rest ih =>
    rw [List.forIn_cons]
    refine (turn a).bind fun r same => ?_
    rw [same]
    exact ih

end Construction.Spares

namespace Plan

open Document Construction

variable {out : Set NodeId}

/-- A node that is created is none of those that were live. -/
theorem create_spares (operation : Operation) (content : Content) (m : NodeId → Mutation)
    {create : Document → NodeId × Document} (same : ∀ doc, operation.perform doc = (create doc).2)
    (made : ∀ doc, (create doc).1 = (doc.insert content).1)
    (noted : ∀ doc, operation.noted? doc = some (m (create doc).1)) (single : ∀ id, (m id).nodes = [id])
    (keeps : operation ≠ .takeJournal) (spares : ∀ id, operation ≠ .release id) :
    Spares out (editing create) fun id => id ∉ out := by
  intro site guards
  have fresh : (create site.document).1 ∉ out := by
    intro mem
    refine guards.live _ mem ?_
    rw [made]
    exact get?_insert_fst guards.sound content
  have logs := logs_at guards operation fresh keeps spares fun m' noted' => by
    rw [noted] at noted'
    cases noted'
    exact single _
  rw [same] at logs
  exact ⟨fresh, _, logs⟩

theorem wire_spares (scope : Scope) {id : NodeId} (outside : id ∉ out) (w : Wiring) :
    Spares out (wire scope id w) fun _ => True := by
  unfold wire
  split
  · rename_i f _
    refine Spares.write fun doc guards => ⟨_, logs_at guards (.setHandler id w.event f) outside
      (by intro same; cases same) (by intro other same; cases same) fun m noted => ?_⟩
    simp only [Operation.noted?] at noted
    split at noted <;> cases noted
    rfl
  · exact fun _ _ => trivial

theorem remember_spares (anchor : Option Nat) (id : NodeId) :
    Spares out (remember anchor id) fun _ => True := by
  cases anchor with
  | none => exact Spares.pure trivial
  | some slot => exact Spares.note fun _ => rfl

mutual

theorem build_spares (scope : Scope) : ∀ plan : Plan, Spares out (build scope plan) fun id => id ∉ out
  | .element tag attributes handlers kids anchor => by
    rw [build]
    refine (create_spares (.createElement tag) (.element tag [] []) (.createElement · tag)
      (fun _ => rfl) (fun _ => rfl) (fun _ => rfl) (fun _ => rfl) nofun nofun).bind
      fun id outside => ?_
    refine (Spares.loop (fun a => ?_) attributes).bind fun _ _ => ?_
    · refine (Spares.write fun doc guards => ⟨_, logs_at guards (.setAttribute id a.1 a.2) outside
        nofun nofun fun m noted => ?_⟩).bind fun _ _ => Spares.pure rfl
      obtain ⟨_, _, rfl⟩ := Option.map_eq_some_iff.mp noted
      rfl
    refine (Spares.loop (fun w => ?_) handlers).bind fun _ _ => ?_
    · exact (wire_spares scope outside w).bind fun _ _ => Spares.pure rfl
    refine (buildChildren_spares scope outside kids).bind fun _ _ => ?_
    exact (remember_spares anchor id).bind fun _ _ => Spares.pure outside
  | .text content anchor => by
    rw [build]
    refine (create_spares (.createText content) (.text content) (.createText · content)
      (fun _ => rfl) (fun _ => rfl) (fun _ => rfl) (fun _ => rfl) nofun nofun).bind
      fun id outside => ?_
    exact (remember_spares anchor id).bind fun _ _ => Spares.pure outside
  | .comment content => by
    rw [build]
    exact create_spares (.createComment content) (.comment content) .createComment
      (fun _ => rfl) (fun _ => rfl) (fun _ => rfl) (fun _ => rfl) nofun nofun
  | .placeholder index => by
    rw [build]
    refine (create_spares (.createComment "") (.comment "") .createComment
      (fun _ => rfl) (fun _ => rfl) (fun _ => rfl) (fun _ => rfl) nofun nofun).bind
      fun id outside => ?_
    exact (Spares.note fun _ => rfl).bind fun _ _ => Spares.pure outside

theorem buildChildren_spares (scope : Scope) {parent : NodeId} (outside : parent ∉ out) :
    ∀ plans : List Plan, Spares out (buildChildren scope parent plans) fun _ => True
  | [] => Spares.pure trivial
  | plan :: rest => by
    rw [buildChildren]
    refine (build_spares scope plan).bind fun id outside' => ?_
    refine Spares.bind (Spares.write fun doc guards => ⟨_, logs_perform guards
      (.appendChild parent id) nofun nofun fun m noted x named => ?_⟩)
      fun _ _ => buildChildren_spares scope outside rest
    simp only [Operation.noted?] at noted
    split at noted <;> cases noted
    rcases List.mem_cons.mp named with rfl | named
    · exact outside
    · rwa [List.mem_singleton.mp named]

end

end Plan

namespace Template

open Document

/-- Building a template names new nodes only. -/
theorem buildPlan_spares (scope : Scope) (t : Template) (out : Set NodeId) :
    Construction.Spares out (t.buildPlan scope) fun _ => True := by
  unfold buildPlan
  refine Construction.Spares.bind (Construction.Spares.write fun doc guards => ?_) fun _ _ => ?_
  · refine t.listen_induct (P := fun doc' => ∃ log, doc.Logs out log doc') ⟨[], .refl guards⟩ ?_
    rintro doc' event _ ⟨log, logs⟩
    exact ⟨_, logs.trans (logs_perform logs.guards (.ensureListening event) nofun nofun nofun)⟩
  · refine (t.plan.build_spares scope).bind fun root outside => ?_
    refine Construction.Spares.get.bind fun site _ => ?_
    cases anchorNodes root site.anchored t.anchors 0 with
    | error e => exact fun _ _ => trivial
    | ok nodes =>
      refine Construction.Spares.bind (Construction.Spares.write fun doc guards => ?_)
        fun _ _ => Construction.Spares.pure trivial
      exact ⟨_, logs_perform guards (.setAnchors root nodes) nofun nofun nofun⟩

end Template

/-! ## Writing -/

/-- What writes leave of a node: its links, its handlers and its anchors. -/
def Node.shape (n : Node) : Node := { n with content := .text "", handlerData := [] }

theorem Node.eq_of_shape {n n' : Node} (h : n'.shape = n.shape) :
    n'.parent = n.parent ∧ n'.children = n.children ∧ n'.handlers = n.handlers ∧
      n'.anchors = n.anchors := by
  obtain ⟨_, parent, children, handlers, _, anchors⟩ := Node.mk.inj h
  exact ⟨parent, children, handlers, anchors⟩

namespace Document

/-- The journal got entries of writes, and every node has kept its shape. -/
structure Touches (out : Set NodeId) (log : List Mutation) (doc doc' : Document) : Prop where
  logs : doc.Logs out log doc'
  writes : ∀ m ∈ log, m.reshapes = false
  shape : ∀ x, (doc'.get? x).map Node.shape = (doc.get? x).map Node.shape

namespace Touches

variable {out : Set NodeId} {log log' : List Mutation} {a b c : Document}

theorem refl (guards : a.Guards out) : a.Touches out [] a :=
  ⟨.refl guards, fun _ mem => (List.not_mem_nil mem).elim, fun _ => rfl⟩

theorem trans (h : a.Touches out log b) (k : b.Touches out log' c) :
    a.Touches out (log ++ log') c :=
  ⟨h.logs.trans k.logs, fun m mem => (List.mem_append.mp mem).elim (h.writes m) (k.writes m),
    fun x => (k.shape x).trans (h.shape x)⟩

/-- A node before and after. -/
theorem node (h : a.Touches out log b) {x : NodeId} {n : Node} (found : a.get? x = some n) :
    ∃ n', b.get? x = some n' ∧ n'.shape = n.shape := by
  have same := h.shape x
  rw [found, Option.map_some] at same
  exact Option.map_eq_some_iff.mp same

theorem children (h : a.Touches out log b) (x : NodeId) : b.children x = a.children x := by
  unfold Document.children
  have same := congrArg (Option.map Node.children) (h.shape x)
  rw [Option.map_map, Option.map_map] at same
  exact congrArg (·.getD []) same

theorem anchors? (h : a.Touches out log b) (x : NodeId) : b.anchors? x = a.anchors? x := by
  unfold Document.anchors?
  have same := congrArg (·.bind Node.anchors) (h.shape x)
  simp only [Option.bind_map] at same
  exact same

end Touches

/-- A write on one node. -/
theorem touches_at {out : Set NodeId} {doc : Document} (guards : doc.Guards out)
    (operation : Operation) {id : NodeId} (outside : id ∉ out) {f : Node → Node}
    (get : ∀ x, (operation.perform doc).get? x =
      if x = id then (doc.get? x).map f else doc.get? x) (shape : ∀ n, (f n).shape = n.shape)
    (keeps : operation ≠ .takeJournal) (spares : ∀ id, operation ≠ .release id)
    (single : ∀ m, operation.noted? doc = some m → m.nodes = [id] ∧ m.reshapes = false) :
    doc.Touches out (operation.noted? doc).toList (operation.perform doc) := by
  refine ⟨logs_at guards operation outside keeps spares fun m noted => (single m noted).1,
    fun m mem => (single m (Option.mem_toList.mp mem)).2, fun x => ?_⟩
  rw [get]
  split
  · rw [Option.map_map]
    exact congrArg (Option.map · _) (funext shape)
  · rfl

/-- What a binding writes. -/
theorem touches_writeTo {out : Set NodeId} {doc : Document} (guards : doc.Guards out) {id : NodeId}
    (outside : id ∉ out) (action : Action) (c : Computed) :
    ∃ log, doc.Touches out log (action.writeTo id c doc) := by
  have ofTag {m m' : Mutation} (noted : (doc.tag? id).map (fun _ => m) = some m') : m' = m := by
    obtain ⟨_, _, rfl⟩ := Option.map_eq_some_iff.mp noted
    rfl
  have named (name value : String) :
      ∃ log, doc.Touches out log (doc.setAttribute id name value) :=
    ⟨_, touches_at guards (.setAttribute id name value) outside
      (get?_setAttribute doc id name value) (fun _ => rfl) nofun nofun fun m noted => by
        rw [ofTag noted]
        exact ⟨rfl, rfl⟩⟩
  cases action with
  | setText text =>
    refine ⟨_, touches_at guards (.setText id c.text) outside (get?_setText doc id c.text)
      (fun _ => rfl) nofun nofun fun m noted => ?_⟩
    simp only [Operation.noted?] at noted
    split at noted <;> cases noted
    exact ⟨rfl, rfl⟩
  | replaceClass text => exact named "class" c.text
  | setAttribute name text => exact named name c.text
  | setEventData event args =>
    refine ⟨_, touches_at guards (.setHandlerData id event c.toArgs) outside
      (get?_setHandlerData doc id event c.toArgs) (fun _ => rfl) nofun nofun fun m noted => ?_⟩
    simp only [Operation.noted?] at noted
    split at noted <;> cases noted
    exact ⟨rfl, rfl⟩
  | applyDirective name directive e =>
    cases directive with
    | host other => exact ⟨[], .refl guards⟩
    | toggle =>
      cases c with
      | args vs => exact ⟨[], .refl guards⟩
      | value v =>
        refine ⟨_, touches_at guards (.setProperty id displayProperty _) outside
          (get?_setProperty doc id displayProperty _) (fun _ => rfl) nofun nofun fun m noted => ?_⟩
        rw [ofTag noted]
        exact ⟨rfl, rfl⟩

end Document

namespace Template

open Document

theorem applyAll_touches (host : Host κ) {root : NodeId} (previous : Option Snapshot)
    {out : Set NodeId} {values : List (Binding × Computed)}
    (builtin : ∀ p ∈ values, p.1.action.isBuiltin = true) {s s' : Stage κ}
    (guards : s.document.Guards out)
    (outside : ∀ p ∈ values, ∀ id, p.1.node? s.document root = some id → id ∉ out) {n : Nat}
    (run : applyAll host root previous values s = .ok n s') :
    ∃ log, s.document.Touches out log s'.document := by
  induction values generalizing s n with
  | nil =>
    cases run
    exact ⟨[], .refl guards⟩
  | cons p rest ih =>
    have builtin' := fun q hq => builtin q (List.mem_cons_of_mem p hq)
    have outside' := fun q hq => outside q (List.mem_cons_of_mem p hq)
    rw [applyAll] at run
    split at run
    · exact ih builtin' guards outside' run
    · obtain ⟨_, s₁, first, run⟩ := ok_of_bind run
      obtain ⟨m, s₂, others, run⟩ := ok_of_bind run
      cases run
      unfold Binding.applyTo at first
      split at first
      · cases first
      · rename_i id found
        cases first
        rw [Binding.write_own host id p.2
          (Action.not_hosted_of_builtin (builtin p List.mem_cons_self))] at others
        obtain ⟨log, touches⟩ := touches_writeTo guards (outside p List.mem_cons_self id found)
          p.1.action p.2
        -- The table of anchors is kept, so the bindings to come write where they would have.
        have reach (q : Binding × Computed) :
            q.1.node? (p.1.action.writeTo id p.2 s.document) root = q.1.node? s.document root := by
          unfold Binding.node? anchor?
          rw [touches.anchors? root]
        obtain ⟨log', touches'⟩ := ih builtin' touches.logs.guards
          (fun q hq id there => outside' q hq id ((reach q).symm.trans there)) others
        exact ⟨_, touches.trans touches'⟩

/-- A pass that succeeds has computed first, which leaves the document alone, and only then
written. -/
theorem update_applied {host : Host κ} (quiet : host.Quiet) {t : Template} {root : NodeId}
    {previous : Option Snapshot} {s s' : Stage κ} {scope : Scope} {snapshot : Snapshot}
    (run : t.update host scope root previous s = .ok snapshot s') :
    ∃ values mid n, mid.document = s.document ∧ (∀ p ∈ values, p.1 ∈ t.bindings) ∧
      applyAll host root previous values mid = .ok n s' := by
  unfold update at run
  split at run
  · cases run
  · obtain ⟨values, mid, computed, run⟩ := ok_of_bind run
    obtain ⟨n, _, applied, run⟩ := ok_of_bind run
    cases run
    have leaves : (Host.ending
        (computeAll host (scope.narrow t.vars).read t.bindings s)).document = s.document :=
      computeAll_leaves quiet t.bindings s
    rw [computed] at leaves
    exact ⟨values, mid, n, leaves,
      fun p mem => (computeAll_values computed).1 ▸ List.mem_map_of_mem mem, applied⟩

/-- A pass over the bindings of an instance. -/
theorem update_touches {host : Host κ} (quiet : host.Quiet) {t : Template}
    (builtin : ∀ b ∈ t.bindings, b.action.isBuiltin = true) {root : NodeId}
    {previous : Option Snapshot} {out : Set NodeId} {s s' : Stage κ} {scope : Scope}
    (guards : s.document.Guards out)
    (outside : ∀ b ∈ t.bindings, ∀ id, b.node? s.document root = some id → id ∉ out)
    {snapshot : Snapshot} (run : t.update host scope root previous s = .ok snapshot s') :
    ∃ log, s.document.Touches out log s'.document := by
  obtain ⟨values, mid, n, same, mem, applied⟩ := update_applied quiet run
  rw [← same] at guards outside ⊢
  exact applyAll_touches host previous (fun p hp => builtin p.1 (mem p hp)) guards
    (fun p hp => outside p.1 (mem p hp)) applied

end Template
end LiveTemplate
