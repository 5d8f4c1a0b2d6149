import LiveTemplate.Proofs.Compiling
import LiveTemplate.Proofs.Errors
import LiveTemplate.Proofs.Mounting

/-!
# LiveTemplate.Proofs.Detachment

Computations that never miss an anchor. A pass looks the nodes of its bindings up in the table of
its root; as long as that table has a node for every anchor, and the host leaves it alone, each of
them is found. Building a template stores such a table, and nested templates find theirs too.

  * `Finds`                   no error of a computation is about an anchor
  * `Template.update_sustains` one pass over the bindings
  * `Template.buildPlan_finds` building the plan
  * `Template.create_finds`   building with all that is mounted
-/

namespace LiveTemplate

/-- The error is about an anchor without a node, by itself or as the cause of another. -/
def EvalError.isDetached : EvalError → Bool
  | .detachedAnchor _ _ => true
  | .directive _ cause => cause.isDetached
  | _ => false

/-- A computation that gives a result as told, or an error that is not about an anchor. -/
def Finds {σ α : Type} (m : EStateM EvalError σ α) (s : σ) (post : α → σ → Prop) : Prop :=
  match m s with
  | .ok a t => post a t
  | .error e _ => e.isDetached = false

namespace Finds

variable {σ α β : Type} {m : EStateM EvalError σ α} {s : σ} {post : α → σ → Prop}

theorem imp {post' : α → σ → Prop} (h : Finds m s post) (weaker : ∀ a t, post a t → post' a t) :
    Finds m s post' := by
  unfold Finds at h ⊢
  cases run : m s with
  | ok a t => rw [run] at h; exact weaker a t h
  | error e t => rw [run] at h; exact h

theorem bind {f : α → EStateM EvalError σ β} {post : β → σ → Prop}
    (h : Finds m s fun a t => Finds (f a) t post) : Finds (m >>= f) s post := by
  unfold Finds at h ⊢
  cases run : m s with
  | ok a t =>
    rw [run] at h
    rw [bind_of_ok run]
    exact h
  | error e t =>
    rw [run] at h
    rw [bind_of_error run]
    exact h

theorem of_ok {a : α} {t : σ} (h : Finds m s post) (run : m s = .ok a t) : post a t := by
  unfold Finds at h
  rwa [run] at h

theorem of_error {e : EvalError} {t : σ} (h : Finds m s post) (run : m s = .error e t) :
    e.isDetached = false := by
  unfold Finds at h
  rwa [run] at h

/-- What is known of a result by other means. -/
theorem ends {ok : α → σ → Prop} {failed : σ → Prop} (h : Finds m s post)
    (ends : Ends m s ok failed) : Finds m s fun a t => post a t ∧ ok a t := by
  unfold Finds at h ⊢
  cases run : m s with
  | ok a t => rw [run] at h; exact ⟨h, ends.ok run⟩
  | error e t => rw [run] at h; exact h

theorem modify {f : σ → σ} {post : PUnit → σ → Prop} (h : post ⟨⟩ (f s)) :
    Finds (modify f) s post := h

theorem get {post : σ → σ → Prop} (h : post s s) : Finds get s post := h

end Finds

/-! ## Evaluation -/

/-- The condition is kept, and no error is about an anchor. -/
def Sustains {σ α : Type} (inv : σ → Prop) (m : EStateM EvalError σ α) : Prop :=
  ∀ s, inv s → Finds m s fun _ t => inv t

theorem ordinary_not_detached : EvalError.Ordinary fun e => e.isDetached = false :=
  ⟨fun _ _ => rfl, fun _ _ => rfl, fun _ _ same => same⟩

section

variable {σ α β : Type} {inv : σ → Prop}

theorem Raises.sustains {m : EStateM EvalError σ α}
    (h : Raises (fun e => e.isDetached = false) inv m) : Sustains inv m := h

theorem sustains_pure (a : α) : Sustains inv (pure a) := fun _ h => h

theorem Sustains.bind {m : EStateM EvalError σ α} {f : α → EStateM EvalError σ β}
    (h : Sustains inv m) (next : ∀ a, Sustains inv (f a)) : Sustains inv (m >>= f) :=
  fun s start => Finds.bind ((h s start).imp fun a t kept => next a t kept)

end

variable {κ : Type}

/-! ## One pass -/

/-- The host leaves the table of anchors of a root alone. -/
structure Host.LeavesTable (host : Host κ) (root : NodeId) : Prop where
  call : ∀ f args s, (host.call f args s).2.document.anchors? root = s.document.anchors? root
  apply : ∀ name id v s, (host.apply name id v s).document.anchors? root = s.document.anchors? root

section

variable {host : Host κ} {root : NodeId} {nodes : List NodeId}

theorem Host.LeavesTable.sustain (leaves : host.LeavesTable root) :
    host.calls.Sustain fun s => s.document.anchors? root = some nodes :=
  ⟨fun f args s kept => (leaves.call f args s).trans kept, fun _ kept => kept⟩

theorem Binding.anchors?_write (leaves : host.LeavesTable root) (id : NodeId) (b : Binding)
    (c : Computed) (s : Stage κ) :
    (Binding.write host id c b.action s).document.anchors? root = s.document.anchors? root := by
  cases own : b.action.isHosted with
  | false =>
    rw [Binding.write_own host id c own s]
    exact (Binding.written_writeTo True id b c s.document).anchors root
  | true =>
    cases found : b.action with
    | applyDirective name directive e =>
      cases directive with
      | toggle => rw [found] at own; cases own
      | host name =>
        cases c with
        | args vs => rfl
        | value v => exact leaves.apply name id v s
    | _ => rw [found] at own; cases own

theorem Template.computeAll_sustains {inv : Stage κ → Prop} (sustain : host.calls.Sustain inv)
    (env : String → Value) (bindings : List Binding) :
    Sustains inv (Template.computeAll host env bindings) :=
  (computeAll_raises ordinary_not_detached sustain env bindings).sustains

theorem Template.applyAll_sustains (leaves : host.LeavesTable root) (previous : Option Snapshot)
    {values : List (Binding × Computed)}
    (found : ∀ p ∈ values, ∀ slot, p.1.target = .anchor slot → nodes[slot]? ≠ none) :
    Sustains (fun s => s.document.anchors? root = some nodes)
      (Template.applyAll host root previous values) := by
  induction values with
  | nil => exact sustains_pure _
  | cons p rest ih =>
    obtain ⟨b, c⟩ := p
    have others := ih fun p mem => found p (List.mem_cons_of_mem _ mem)
    rw [Template.applyAll]
    split
    · exact others
    · refine Sustains.bind (fun s kept => ?_) fun _ => others.bind fun n => sustains_pure _
      have reached : ∃ id, b.node? s.document root = some id := by
        unfold Binding.node?
        cases target : b.target with
        | root => exact ⟨root, rfl⟩
        | anchor slot =>
          refine Option.ne_none_iff_exists'.mp ?_
          change (s.document.anchors? root).bind (·[slot]?) ≠ none
          rw [kept]
          exact found (b, c) List.mem_cons_self slot target
      obtain ⟨id, reached⟩ := reached
      unfold Finds Binding.applyTo
      rw [reached]
      exact (Binding.anchors?_write leaves id b c s).trans kept

/-- A pass finds the node of every binding in the table of its root. -/
theorem Template.update_sustains {t : Template} (leaves : host.LeavesTable root)
    (reach : ∀ b ∈ t.bindings, b.Reaches t.anchors)
    (found : ∀ slot < t.anchors.length, nodes[slot]? ≠ none) (scope : Scope)
    (previous : Option Snapshot) :
    Sustains (fun s => s.document.anchors? root = some nodes)
      (t.update host scope root previous) := by
  unfold Template.update
  split
  · exact fun _ _ => rfl
  · intro s kept
    have values : Ends (computeAll host (scope.narrow t.vars).read t.bindings) s
        (fun news _ => news.map Prod.fst = t.bindings) fun _ => True :=
      Ends.of_run (fun _ _ run => (computeAll_values run).1) fun _ _ _ => trivial
    refine Finds.bind (((computeAll_sustains leaves.sustain _ _ s kept).ends values).imp ?_)
    rintro news s₁ ⟨kept, bound⟩
    refine Finds.bind ((applyAll_sustains leaves previous ?_ s₁ kept).imp fun _ _ kept => kept)
    intro p mem slot target
    rcases reach p.1 (bound ▸ List.mem_map_of_mem mem) with ⟨other, _⟩ | ⟨_, same, path⟩
    · rw [target] at other
      cases other
    · rw [target] at same
      cases same
      exact found slot (List.getElem?_eq_some_iff.mp path).1

end

/-! ## Building -/

theorem Plan.build_finds (scope : Scope) (plan : Plan) (site : Site) :
    Finds (build scope plan) site fun _ _ => True :=
  (build_raises fun _ _ _ => rfl).sustains site trivial

namespace Template

theorem exists_anchorNodes {root : NodeId} {anchored : List (Nat × NodeId)} {paths : List Path}
    {slot : Nat} (found : ∀ i < paths.length, anchored.lookup (slot + i) ≠ none) :
    ∃ nodes, anchorNodes root anchored paths slot = .ok nodes := by
  induction paths generalizing slot with
  | nil => exact ⟨[], rfl⟩
  | cons path rest ih =>
    obtain ⟨id, here⟩ := Option.ne_none_iff_exists'.mp (found 0 (by simp))
    obtain ⟨nodes, others⟩ := @ih (slot + 1) fun i lt => by
      have := found (i + 1) (by simpa using lt)
      rwa [← Nat.add_assoc, Nat.add_right_comm] at this
    rw [Nat.add_zero] at here
    exact ⟨id :: nodes, by simp [anchorNodes, here, others, bind, Except.bind, pure, Except.pure]⟩

/-- What building a template relies on: compiling left it tidy, and every anchor is the one of a
part of the plan. -/
structure Sturdy (strict : Prop) (t : Template) : Prop where
  tidy : t.Tidy strict
  complete : ∀ slot < t.anchors.length, t.slotPath? slot ≠ none

variable {t : Template} {scope : Scope}

theorem buildPlan_finds (complete : ∀ slot < t.anchors.length, t.slotPath? slot ≠ none)
    {doc : Document} (sound : doc.Sound) :
    Finds (t.buildPlan scope) { document := doc } fun _ _ => True := by
  have sound₁ : (t.listen doc).Sound := sound.of_nodes_eq (t.nodes_listen doc)
  unfold buildPlan
  refine Finds.bind (Finds.modify (Finds.bind
    (((t.plan.build_finds scope _).ends (t.plan.build_ends scope _ sound₁)).imp ?_)))
  rintro _ site ⟨_, place, rfl, built⟩
  obtain ⟨nodes, found⟩ : ∃ nodes,
      anchorNodes (place []) site.anchored t.anchors 0 = .ok nodes := by
    refine exists_anchorNodes fun i lt => ?_
    rw [built.anchored, List.append_nil, Nat.zero_add, lookup_map_snd]
    rw [ne_eq, Option.map_eq_none_iff]
    exact complete i lt
  refine Finds.bind (Finds.get ?_)
  rw [found]
  exact Finds.bind (Finds.modify trivial)

end Template

/-! ## What is mounted -/

/-- Functions leave the document alone, and directives write attributes, properties and text. -/
structure Host.Tame (host : Host κ) : Prop where
  quiet : host.Quiet
  writes : ∀ name id v s, ∃ operations : List Document.Operation,
    (∀ o ∈ operations, o.isWrite = true) ∧
      (host.apply name id v s).document = s.document.performAll operations

/-- Nothing is told of contents and values. -/
abbrev Terms.least : Terms := ⟨False, False⟩

/-- A host that holds on to everything leaves no room for new references. -/
theorem Heap.not_covers_all (heap : Heap) (s : Stage κ) : ¬heap.Covers (fun _ _ => True) s := by
  intro covers
  have all : heap (.list s.nextRef []) := covers.held _ trivial
  exact Nat.lt_irrefl _ (covers.sound.below _ _ all rfl)

namespace Host.Tame

variable {host : Host κ}

theorem behaves (tame : host.Tame) : host.Behaves .least fun _ _ => True where
  quiet := tame.quiet
  consistent := False.elim
  decorates := .inr ⟨tame.writes, fun _ _ _ s heap covers => (heap.not_covers_all s covers).elim⟩

theorem leavesTable (tame : host.Tame) (root : NodeId) : host.LeavesTable root where
  call := fun f args s => by rw [tame.quiet f args s]
  apply := fun name id v s => by
    obtain ⟨operations, writes, same⟩ := tame.writes name id v s
    rw [same]
    exact (Document.written_performAll writes s.document).anchors root

end Host.Tame

/-- An update that did not stop at an anchor. -/
def Updated.Finds {α : Type} (updated : Updated α) : Prop :=
  ∀ e, updated.error = some e → e.isDetached = false

section

variable (terms : Terms) (host : Host κ) (scope : Scope)

def Subtree.CreateFinds (subtree : Subtree) : Prop :=
  ∀ s, s.document.Sound → Finds (subtree.create host scope) s fun _ _ => True

def Subtree.UpdateFinds (subtree : Subtree) : Prop :=
  ∀ m part s, s.document.Sound → subtree.Stands terms s.document m part →
    (∃ p, s.document.parent? m.node = some p ∧ p ∉ part) →
    (subtree.update host scope m s).1.Finds

def Template.UpdateFinds (t : Template) : Prop :=
  ∀ m part s, s.document.Sound → t.Stands terms s.document m part →
    (t.updateMount host scope m s).1.Finds

def Extension.CreateAllFinds (extensions : List Extension) : Prop :=
  ∀ placeholders index s, s.document.Sound →
    Finds (Extension.createAll host scope placeholders index extensions) s fun _ _ => True

def Extension.UpdateAllFinds (extensions : List Extension) : Prop :=
  ∀ ms part s, s.document.Sound → Extension.StandAll terms s.document extensions ms part →
    (∀ x ∈ ms.map Mount.node, ∃ p, s.document.parent? x = some p ∧ p ∉ part) →
    (Extension.updateAll host scope extensions ms s).1.Finds

end

variable {terms : Terms} {host : Host κ} {held : κ → Heap} {scope : Scope}

theorem Construction.onStage_finds {α : Type} {construction : Construction α} {s : Stage κ}
    {post : α → Site → Prop} (h : Finds construction { document := s.document } post) :
    Finds construction.onStage s fun _ _ => True := by
  unfold Finds at h ⊢
  unfold Construction.onStage
  cases run : construction { document := s.document } with
  | ok a site => trivial
  | error e site => rw [run] at h; exact h

theorem Condition.check_finds (quiet : host.Quiet) (scope : Scope) (condition : Condition)
    (s : Stage κ) : Finds (condition.check host scope) s fun _ s' => s'.document = s.document := by
  have sustain : host.calls.Sustain fun s' => s'.document = s.document :=
    ⟨fun f args t same => (quiet f args t).trans same, fun _ same => same⟩
  exact (condition.check_raises ordinary_not_detached sustain scope).sustains s rfl

theorem Extension.createAllFinds_cons {path : Path} {name : String} {subtree : Subtree}
    {extensions : List Extension} (loose : ¬terms.coherent)
    (creates : subtree.Creates terms host held scope) (first : subtree.CreateFinds host scope)
    (rest : Extension.CreateAllFinds host scope extensions) :
    Extension.CreateAllFinds host scope (⟨path, name, subtree⟩ :: extensions) := by
  intro placeholders index s sound
  rw [Extension.createAll]
  refine Finds.bind (((first s sound).ends
    (creates s (fun _ => False) sound fun hc => absurd hc loose)).imp ?_)
  rintro m s₁ ⟨_, part, created⟩
  have sound₁ := created.retains.sound
  cases placeholders.lookup index with
  | none =>
    exact Finds.bind ((rest placeholders (index + 1) s₁ sound₁).imp fun _ _ _ => trivial)
  | some placeholder =>
    refine Finds.bind (Finds.modify ?_)
    exact Finds.bind ((rest placeholders (index + 1) _
      (Document.sound_swapNodes sound₁ placeholder m.node)).imp fun _ _ _ => trivial)

theorem Extension.updateAllFinds_cons {path : Path} {name : String} {subtree : Subtree}
    {extensions : List Extension} (loose : ¬terms.coherent)
    (updates : subtree.Updates terms host held scope) (first : subtree.UpdateFinds terms host scope)
    (rest : Extension.UpdateAllFinds terms host scope extensions) :
    Extension.UpdateAllFinds terms host scope (⟨path, name, subtree⟩ :: extensions) := by
  intro ms part s sound mounted attached
  obtain ⟨m, ms, here, there, rfl, rfl, disjoint, stands, mounted⟩ := mounted.exists_cons
  obtain ⟨p, parent, out⟩ := attached m.node List.mem_cons_self
  have below : ∃ p, s.document.parent? m.node = some p ∧ p ∉ here :=
    ⟨p, parent, fun mem => out (.inl mem)⟩
  have finds := first m here s sound stands below
  obtain ⟨here', refreshed⟩ :=
    updates m here s (fun _ => False) sound (fun hc => absurd hc loose) stands below
  rw [Extension.updateAll]
  rcases run : subtree.update host scope m s with ⟨⟨m', error⟩, s₁⟩
  rw [run] at finds refreshed
  cases error with
  | some e => exact finds
  | none =>
    exact rest ms there s₁ refreshed.keeps.sound
      (mounted.agrees (refreshed.agrees stands disjoint mounted.region))
      (refreshed.attached disjoint mounted fun x mem => attached x (List.mem_cons_of_mem _ mem))

namespace Template

variable {t : Template}

theorem Own.table {terms : Terms} {doc : Document} {place : List Nat → NodeId}
    {values : List (Binding × Computed)} (own : t.Own terms doc place values) :
    ∃ nodes, doc.anchors? (place []) = some nodes ∧
      ∀ slot < t.anchors.length, nodes[slot]? ≠ none := by
  obtain ⟨nodes, kept, places⟩ := own.anchored
  refine ⟨nodes, kept, fun slot lt => ?_⟩
  obtain ⟨q, _, here⟩ := places slot lt
  rw [here]
  exact Option.some_ne_none _

/-- A pass over the bindings of an instance that stands. -/
theorem Own.update_finds {s : Stage κ} {place : List Nat → NodeId}
    {values : List (Binding × Computed)} (own : t.Own terms s.document place values)
    (behaves : host.Behaves terms held) (tidy : t.Tidy terms.builtin)
    (previous : Option Snapshot) :
    Finds (t.update host scope (place []) previous) s fun _ _ => True := by
  unfold update
  split
  · exact rfl
  · have sustain : host.calls.Sustain fun s' => s'.document = s.document :=
      ⟨fun f args t same => (behaves.quiet f args t).trans same, fun _ same => same⟩
    have bound : Ends (computeAll host (scope.narrow t.vars).read t.bindings) s
        (fun news _ => news.map Prod.fst = t.bindings) fun _ => True :=
      Ends.of_run (fun _ _ run => (computeAll_values run).1) fun _ _ _ => trivial
    refine Finds.bind (((computeAll_sustains sustain _ _ s rfl).ends bound).imp ?_)
    rintro news s₁ ⟨same, bound⟩
    have member : ∀ p ∈ news, p.1 ∈ t.bindings := fun p mem => bound ▸ List.mem_map_of_mem mem
    have unknown : False → Heap.Covers (fun _ => False) held s₁ ∧
        ∀ p ∈ news, p.2.Fits fun _ => False := False.elim
    obtain ⟨s₂, run, _⟩ := applyAll_written behaves.decorates (place []) previous
      (fun hs p mem => tidy.builtin hs p.1 (member p mem)) unknown fun p mem => by
        obtain ⟨_, _, _, _, _, reached⟩ := own.reach tidy (member p mem)
        rw [same]
        exact ⟨_, reached⟩
    refine Finds.bind ?_
    unfold Finds
    rw [run]
    trivial

theorem updateFinds (behaves : host.Behaves terms held) (loose : ¬terms.coherent)
    (tidy : t.Tidy terms.builtin)
    (rest : Extension.UpdateAllFinds terms host scope t.extensions) :
    t.UpdateFinds terms host scope := by
  intro m part s sound stands
  obtain ⟨root, snapshot, children, place, values, inner, rfl, rooted, rfl, mounted⟩ :=
    Template.stands_iff.mp stands
  have finds : Finds (t.update host scope (place []) snapshot) s fun _ _ => True :=
    rooted.own.update_finds behaves tidy snapshot
  rw [rooted.root] at finds
  rw [updateMount_template]
  cases run : t.update host scope root snapshot s with
  | error e s₁ =>
    intro e' same
    cases same
    exact finds.of_error run
  | ok next s₁ =>
    obtain ⟨sound₁, same, attached⟩ :=
      rooted.mounted_after_pass loose behaves tidy sound mounted run
    exact rest children inner s₁ sound₁ (mounted.agrees same) attached

theorem create_finds {strict : Prop} (sturdy : t.Sturdy strict)
    (rest : Extension.CreateAllFinds host scope t.extensions) {s : Stage κ} (sound : s.document.Sound) :
    Finds (t.create host scope) s fun _ _ => True := by
  unfold create
  refine Finds.bind (((Construction.onStage_finds (buildPlan_finds sturdy.complete sound)).ends
    (Construction.onStage_ends (buildPlan_ends scope t sound))).imp ?_)
  rintro ⟨root, site⟩ s₁ ⟨_, ⟨place, _, raised⟩, rfl⟩
  exact Finds.bind ((rest site.placeholders 0 _ raised.keeps.sound).imp fun _ _ _ => trivial)

theorem createFinds (loose : ¬terms.coherent) (sturdy : t.Sturdy terms.builtin)
    (all : Extension.CreatesAll terms host held scope t.extensions)
    (rest : Extension.CreateAllFinds host scope t.extensions)
    (updates : t.UpdateFinds terms host scope) : (Subtree.template t).CreateFinds host scope := by
  intro s sound
  rw [Subtree.create, createMount_eq]
  refine Finds.bind (((create_finds sturdy rest sound).ends
    (create_ends sturdy.tidy all sound (Heap.knows_nothing loose held scope s))).imp ?_)
  rintro ⟨root, children⟩ s₁ ⟨_, part, built⟩
  have finds := updates _ _ s₁ built.retains.sound built.stands
  unfold Finds
  dsimp only
  rcases run : t.updateMount host scope (.template root none children) s₁ with ⟨⟨live, error⟩, s₂⟩
  rw [run] at finds
  cases error with
  | none => trivial
  | some e => exact finds e rfl

end Template

namespace Subtree

variable {condition : Condition} {t : Template}

theorem conditional_createFinds (quiet : host.Quiet) {body : Subtree}
    (creates : body.CreateFinds host scope) :
    (Subtree.conditional condition body).CreateFinds host scope := by
  intro s sound
  rw [Subtree.create]
  refine Finds.bind ((condition.check_finds quiet scope s).imp fun b s₁ same => ?_)
  have sound₁ : s₁.document.Sound := same ▸ sound
  cases b with
  | true => exact Finds.bind ((creates s₁ sound₁).imp fun _ _ _ => trivial)
  | false => exact Finds.bind trivial

theorem conditional_updateFinds (quiet : host.Quiet)
    (creates : (Subtree.template t).CreateFinds host scope)
    (updates : t.UpdateFinds terms host scope) :
    (Subtree.conditional condition (.template t)).UpdateFinds terms host scope := by
  intro m part s sound stands attached
  have check := condition.check_finds quiet scope s
  obtain ⟨node, mounted, rfl⟩ := stands.exists_eq
  unfold Subtree.update
  cases run : condition.check host scope s with
  | error e s₁ =>
    intro e' same
    cases same
    exact check.of_error run
  | ok b s₁ =>
    have same : s₁.document = s.document := check.of_ok run
    have sound₁ : s₁.document.Sound := same ▸ sound
    cases b with
    | false => cases mounted <;> exact nofun
    | true =>
      cases mounted with
      | none =>
        dsimp only
        cases made : (Subtree.template t).create host scope s₁ with
        | error e s₂ =>
          intro e' same
          cases same
          exact (creates s₁ sound₁).of_error made
        | ok live s₂ => exact nofun
      | some live =>
        rw [Subtree.Stands] at stands
        obtain ⟨rfl, stands⟩ := stands
        rw [Subtree.Stands, ← same] at stands
        dsimp only
        rw [Subtree.update]
        exact updates live part s₁ sound₁ stands

end Subtree

mutual

/-- Nested templates find their anchors, too. -/
theorem Subtree.finds (behaves : host.Behaves terms held) (loose : ¬terms.coherent) :
    ∀ {subtree : Subtree}, subtree.Each (Template.Sturdy terms.builtin) →
      subtree.CreateFinds host scope ∧ subtree.UpdateFinds terms host scope
  | .template t, sturdy => by
    rw [Subtree.Each] at sturdy
    obtain ⟨creates, updates⟩ := Template.finds behaves loose sturdy
    refine ⟨creates, fun m part s sound stands _ => ?_⟩
    rw [Subtree.Stands] at stands
    rw [Subtree.update]
    exact updates m part s sound stands
  | .conditional condition (.template t), sturdy => by
    rw [Subtree.Each] at sturdy
    obtain ⟨creates, updates⟩ := Template.finds behaves loose sturdy
    exact ⟨Subtree.conditional_createFinds behaves.quiet creates,
      Subtree.conditional_updateFinds behaves.quiet creates updates⟩
  | .conditional _ (.conditional _ _), sturdy => by
    rw [Subtree.Each] at sturdy
    exact sturdy.elim

theorem Template.finds (behaves : host.Behaves terms held) (loose : ¬terms.coherent) :
    ∀ {t : Template}, t.Each (Template.Sturdy terms.builtin) →
      (Subtree.template t).CreateFinds host scope ∧ t.UpdateFinds terms host scope
  | ⟨id, plan, bindings, anchors, extensions, events, handlers⟩, sturdy => by
    rw [Template.Each] at sturdy
    obtain ⟨creates, updates⟩ := Extension.findsAll behaves loose sturdy.2
    have promised : Extension.CreatesAll terms host held scope extensions :=
      (Extension.promises behaves
        (Extension.AllEach.mono (fun _ sturdy => sturdy.tidy) sturdy.2)).1
    have own := Template.updateFinds behaves loose sturdy.1.tidy updates
    exact ⟨Template.createFinds loose sturdy.1 promised creates own, own⟩

theorem Extension.findsAll (behaves : host.Behaves terms held) (loose : ¬terms.coherent) :
    ∀ {extensions : List Extension},
      Extension.AllEach (Template.Sturdy terms.builtin) extensions →
      Extension.CreateAllFinds host scope extensions ∧
        Extension.UpdateAllFinds terms host scope extensions
  | [], _ => by
    refine ⟨fun placeholders index s sound => ?_, fun ms part s sound mounted attached => ?_⟩
    · rw [Extension.createAll]
      trivial
    · rw [Extension.updateAll_nil]
      exact nofun
  | ⟨path, name, subtree⟩ :: rest, sturdy => by
    rw [Extension.AllEach] at sturdy
    obtain ⟨creates, updates⟩ := Subtree.finds behaves loose sturdy.1
    obtain ⟨creates', updates'⟩ := Extension.findsAll behaves loose sturdy.2
    have promised : subtree.Creates terms host held scope ∧
        subtree.Updates terms host held scope :=
      Subtree.promises behaves (Subtree.Each.mono (fun _ sturdy => sturdy.tidy) sturdy.1)
    exact ⟨Extension.createAllFinds_cons loose promised.1 creates creates',
      Extension.updateAllFinds_cons loose promised.2 updates updates'⟩

end

/-- With a tame host, nothing is asked of the directives. -/
theorem Extension.finds (tame : host.Tame) {extensions : List Extension}
    (sturdy : Extension.AllEach (Template.Sturdy False) extensions) :
    Extension.CreateAllFinds host scope extensions ∧
      Extension.UpdateAllFinds .least host scope extensions :=
  Extension.findsAll tame.behaves False.elim sturdy

end LiveTemplate
