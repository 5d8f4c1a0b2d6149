import LiveTemplate.Proofs.Mounting

/-!
# LiveTemplate.Proofs.Runs

Runs: instances are created and updated on one document, in any order, and any call may fail.
After every run each instance stands in a part of the document of its own.

  * `Run`             calls, with the stage and the instances that they lead to
  * `Standing`        all instances stand, apart from each other
  * `Run.standing`    this holds after every run
-/

namespace LiveTemplate

variable {κ : Type}

/-- There are lists and maps to which all references lead: those of the scope, those that the
instances remember and those that the host holds on to. -/
def Coherent (held : κ → Heap) (s : Stage κ) (scope : Scope) (instances : List Instance) : Prop :=
  ∃ heap, Heap.Knows heap held scope s ∧ ∀ i ∈ instances, i.toMount.Fits heap

/-- The calls that lead from a document to a stage with the instances made so far. They create and
update instances of admitted templates. In between, the host may do what it likes with its own
state. -/
inductive Run (host : Host κ) (held : κ → Heap) (admitted : Template → Prop) (origin : Document) :
    Stage κ → List Instance → Type
  | start {s : Stage κ} (fresh : s.document = origin) : Run host held admitted origin s []
  | idle {s s' : Stage κ} {instances : List Instance}
      (run : Run host held admitted origin s instances) (same : s'.document = s.document) :
      Run host held admitted origin s' instances
  | create {s s' : Stage κ} {instances : List Instance} {t : Template} {i : Instance}
      (run : Run host held admitted origin s instances) (scope : Scope) (ok : admitted t)
      (coherent : Coherent held s scope instances)
      (made : t.createInstance host scope s = .ok i s') :
      Run host held admitted origin s' (instances ++ [i])
  | createFailed {s s' : Stage κ} {instances : List Instance} {t : Template} {e : EvalError}
      (run : Run host held admitted origin s instances) (scope : Scope) (ok : admitted t)
      (coherent : Coherent held s scope instances)
      (failed : t.createInstance host scope s = .error e s') :
      Run host held admitted origin s' instances
  | update {s s' : Stage κ} {instances : List Instance} {k : Nat} {i i' : Instance}
      {error : Option EvalError} (run : Run host held admitted origin s instances) (scope : Scope)
      (found : instances[k]? = some i) (coherent : Coherent held s scope instances)
      (updated : i.update host scope s = (⟨i', error⟩, s')) :
      Run host held admitted origin s' (instances.set k i')

/-- All instances stand, each in a part of the document of its own, and hang below no node. -/
structure Standing (terms : Terms) (doc : Document) (instances : List Instance)
    (parts : Nat → Set NodeId) : Prop where
  stands : ∀ (k : Nat) (i : Instance), instances[k]? = some i →
    i.template.Stands terms doc i.toMount (parts k)
  detached : ∀ (k : Nat) (i : Instance), instances[k]? = some i → doc.parent? i.root = none
  apart : ∀ (k l : Nat) (i j : Instance), instances[k]? = some i → instances[l]? = some j →
    k ≠ l → Disjoint (parts k) (parts l)

open Document

variable {terms : Terms} {host : Host κ} {held : κ → Heap} {admitted : Template → Prop}
  {origin : Document} {s s' : Stage κ} {instances : List Instance} {parts : Nat → Set NodeId}

theorem Template.Stands.toMount_ofMount {doc : Document} {t : Template} {m : Mount}
    {part : Set NodeId} (h : t.Stands terms doc m part) : (Instance.ofMount t m).toMount = m := by
  obtain ⟨_, _, _, _, _, _, rfl, _⟩ := Template.stands_iff.mp h
  rfl

theorem Instance.template_ofMount (t : Template) (m : Mount) :
    (Instance.ofMount t m).template = t := by
  cases m <;> rfl

theorem Instance.root_ofMount (t : Template) (m : Mount) :
    (Instance.ofMount t m).root = m.node := by
  cases m <;> rfl

theorem Instance.exists_mount_of_update {i i' : Instance} {scope : Scope} {error : Option EvalError}
    (updated : i.update host scope s = (⟨i', error⟩, s')) :
    ∃ live, i.template.updateMount host scope i.toMount s = (⟨live, error⟩, s') ∧
      i' = .ofMount i.template live := by
  unfold Instance.update at updated
  rcases run : i.template.updateMount host scope i.toMount s with ⟨⟨live, e⟩, s₁⟩
  rw [run] at updated
  cases updated
  exact ⟨live, rfl, rfl⟩

/-- What updating an instance comes to. -/
theorem Instance.update_comes (behaves : host.Behaves terms held) {i i' : Instance}
    (proper : i.template.Each (Template.Tidy terms.builtin)) {scope : Scope} {heap : Heap}
    {part : Set NodeId} (sound : s.document.Sound)
    (known : terms.coherent → heap.Knows held scope s ∧ i.toMount.Fits heap)
    (stands : i.template.Stands terms s.document i.toMount part) {error : Option EvalError}
    (updated : i.update host scope s = (⟨i', error⟩, s')) :
    i'.template = i.template ∧ i'.root = i.root ∧
      s'.document.parent? i.root = s.document.parent? i.root ∧
      ∃ part', (Subtree.template i.template).Refreshed terms host held scope heap s i.toMount part
        ⟨i'.toMount, error⟩ s' part' := by
  obtain ⟨kept, parent, part', refreshed⟩ :=
    (Template.promises behaves proper).2 i.toMount part s heap sound known stands
  obtain ⟨live, run, rfl⟩ := Instance.exists_mount_of_update updated
  rw [run] at kept parent refreshed
  have back : (Instance.ofMount i.template live).toMount = live := by
    have stands' := refreshed.stands
    rw [Subtree.Stands] at stands'
    exact stands'.toMount_ofMount
  refine ⟨Instance.template_ofMount _ _, (Instance.root_ofMount _ _).trans kept, parent, part', ?_⟩
  rw [back]
  exact refreshed

theorem Instance.update_refreshed (behaves : host.Behaves terms held) {i i' : Instance}
    (proper : i.template.Each (Template.Tidy terms.builtin)) {scope : Scope} {heap : Heap}
    {part : Set NodeId} (sound : s.document.Sound) (knows : heap.Knows held scope s) (fits : i.toMount.Fits heap)
    (stands : i.template.Stands terms s.document i.toMount part) {error : Option EvalError}
    (updated : i.update host scope s = (⟨i', error⟩, s')) :
    i'.template = i.template ∧ i'.root = i.root ∧
      s'.document.parent? i.root = s.document.parent? i.root ∧
      ∃ part', (Subtree.template i.template).Refreshed terms host held scope heap s i.toMount part
        ⟨i'.toMount, error⟩ s' part' :=
  Instance.update_comes behaves proper sound (fun _ => ⟨knows, fits⟩) stands updated

/-- What creating an instance comes to. If it fails, what was made by then is left behind. -/
theorem Template.createInstance_comes (behaves : host.Behaves terms held) {t : Template}
    (proper : t.Each (Template.Tidy terms.builtin)) {scope : Scope} {heap : Heap}
    (sound : s.document.Sound) (knows : terms.coherent → heap.Knows held scope s) :
    Ends (t.createInstance host scope) s
      (fun i s' => i.template = t ∧ ∃ part,
        (Subtree.template t).Created terms host held scope heap s i.toMount s' part)
      (fun s' => s.document.Retains terms.builtin s'.document ∧ s.document.Gains s'.document) := by
  have creates := (Template.promises behaves proper).1 s heap sound knows
  rw [Subtree.create] at creates
  unfold Template.createInstance
  refine Ends.bind (creates.imp ?_ fun _ h => ⟨h.1, h.2 t rfl⟩)
  rintro m s₁ ⟨part, created⟩
  refine ⟨Instance.template_ofMount t m, part, ?_⟩
  have stands := created.stands
  rw [Subtree.Stands] at stands
  rw [stands.toMount_ofMount]
  exact created

theorem Template.createInstance_ends (behaves : host.Behaves terms held) {t : Template}
    (proper : t.Each (Template.Tidy terms.builtin)) {scope : Scope} {heap : Heap}
    (sound : s.document.Sound) (knows : heap.Knows held scope s) :
    Ends (t.createInstance host scope) s
      (fun i s' => i.template = t ∧ ∃ part,
        (Subtree.template t).Created terms host held scope heap s i.toMount s' part)
      (fun s' => s.document.Retains terms.builtin s'.document) :=
  (Template.createInstance_comes behaves proper sound fun _ => knows).imp (fun _ _ h => h)
    fun _ h => h.1

namespace Standing

/-- Nodes that were there are kept. -/
theorem retains (h : Standing terms s.document instances parts)
    (keeps : s.document.Retains terms.builtin s'.document) :
    Standing terms s'.document instances parts := by
  refine ⟨fun k i found => ?_, fun k i found => ?_, h.apart⟩
  · have stands := h.stands k i found
    exact stands.agrees (keeps.agrees stands.region (Set.disjoint_empty _) fun _ _ => rfl)
  · have stands := h.stands k i found
    obtain ⟨node, live, _⟩ := stands.region _ stands.node_mem
    exact (keeps.parent (Set.notMem_empty _) live).trans (h.detached k i found)

/-- One more instance. -/
theorem create (h : Standing terms s.document instances parts) {i : Instance} {scope : Scope}
    {heap : Heap} {part : Set NodeId}
    (created : (Subtree.template i.template).Created terms host held scope heap s i.toMount s' part) :
    ∃ parts, Standing terms s'.document (instances ++ [i]) parts := by
  have kept := h.retains created.retains
  have stands := created.stands
  rw [Subtree.Stands] at stands
  have split {k : Nat} {j : Instance} (found : (instances ++ [i])[k]? = some j) :
      k < instances.length ∧ instances[k]? = some j ∨ k = instances.length ∧ j = i := by
    by_cases lt : k < instances.length
    · exact .inl ⟨lt, by rwa [List.getElem?_append_left lt] at found⟩
    · rw [List.getElem?_append_right (Nat.le_of_not_lt lt)] at found
      obtain ⟨last, same⟩ := List.getElem?_eq_some_iff.mp found
      have here : k = instances.length := by
        have last : k - instances.length < 1 := last
        omega
      subst here
      simp only [Nat.sub_self, List.getElem_cons_zero] at same
      exact .inr ⟨rfl, same.symm⟩
  refine ⟨fun k => if k < instances.length then parts k else part, ?_, ?_, ?_⟩
  · intro k j found
    rcases split found with ⟨lt, found⟩ | ⟨rfl, rfl⟩
    · rw [if_pos lt]
      exact kept.stands k j found
    · rw [if_neg (Nat.lt_irrefl _)]
      exact stands
  · intro k j found
    rcases split found with ⟨lt, found⟩ | ⟨rfl, rfl⟩
    · exact kept.detached k j found
    · exact created.detached
  · have new {k : Nat} {j : Instance} (found : instances[k]? = some j) :
        Disjoint (parts k) part := by
      refine Set.disjoint_left.mpr fun x mem mem' => ?_
      obtain ⟨node, live, _⟩ := (h.stands k j found).region x mem
      rw [created.fresh x mem'] at live
      cases live
    intro k l j j' hk hl other
    rcases split hk with ⟨lt, found⟩ | ⟨rfl, rfl⟩ <;> rcases split hl with ⟨lt', found'⟩ | ⟨rfl, rfl⟩
    · rw [if_pos lt, if_pos lt']
      exact kept.apart k l j j' found found' other
    · rw [if_pos lt, if_neg (Nat.lt_irrefl _)]
      exact new found
    · rw [if_neg (Nat.lt_irrefl _), if_pos lt']
      exact (new found').symm
    · exact absurd rfl other

/-- An instance is updated. -/
theorem update (h : Standing terms s.document instances parts) {k : Nat} {i i' : Instance}
    (found : instances[k]? = some i) (same : i'.template = i.template) (root : i'.root = i.root)
    (parent : s'.document.parent? i.root = s.document.parent? i.root) {scope : Scope} {heap : Heap}
    {error : Option EvalError} {part' : Set NodeId}
    (refreshed : (Subtree.template i.template).Refreshed terms host held scope heap s i.toMount
      (parts k) ⟨i'.toMount, error⟩ s' part') :
    ∃ parts, Standing terms s'.document (instances.set k i') parts := by
  have stands := refreshed.stands
  rw [Subtree.Stands, ← same] at stands
  have split {l : Nat} {j : Instance} (at' : (instances.set k i')[l]? = some j) :
      l = k ∧ j = i' ∨ l ≠ k ∧ instances[l]? = some j := by
    rw [List.getElem?_set] at at'
    by_cases here : k = l
    · rw [if_pos here, if_pos (List.getElem?_eq_some_iff.mp found).1] at at'
      exact .inl ⟨here.symm, (Option.some.inj at').symm⟩
    · rw [if_neg here] at at'
      exact .inr ⟨fun h => here h.symm, at'⟩
  have keeps : s.document.Spares terms.builtin (parts k) s'.document := by
    have keeps := refreshed.keeps
    rwa [show (⟨i'.toMount, error⟩ : Updated Mount).live.node = i.toMount.node from root,
      relabel_eq_id] at keeps
  have region {l : Nat} {j : Instance} (at' : instances[l]? = some j) :
      s.document.Region (parts l) := (h.stands l j at').region
  have new {l : Nat} {j : Instance} (other : l ≠ k) (at' : instances[l]? = some j) :
      Disjoint part' (parts l) := by
    refine Set.disjoint_left.mpr fun x mem mem' => ?_
    rcases refreshed.within x mem with mem | gone
    · exact Set.disjoint_left.mp (h.apart k l i j found at' other.symm) mem mem'
    · obtain ⟨node, live, _⟩ := region at' x mem'
      rw [gone] at live
      cases live
  refine ⟨fun l => if l = k then part' else parts l, ?_, ?_, ?_⟩
  · intro l j at'
    rcases split at' with ⟨rfl, rfl⟩ | ⟨other, at'⟩
    · rw [if_pos rfl]
      exact stands
    · rw [if_neg other]
      exact (h.stands l j at').agrees (keeps.agrees (region at')
        (h.apart l k j i at' found other) fun _ _ => rfl)
  · intro l j at'
    rcases split at' with ⟨rfl, rfl⟩ | ⟨other, at'⟩
    · rw [root, parent]
      exact h.detached l i found
    · obtain ⟨node, live, _⟩ := region at' j.root (h.stands l j at').node_mem
      have out := Set.disjoint_left.mp (h.apart l k j i at' found other) (h.stands l j at').node_mem
      exact (keeps.parent out live).trans (h.detached l j at')
  · intro l l' j j' hl hl' differ
    rcases split hl with ⟨rfl, rfl⟩ | ⟨other, at'⟩ <;>
      rcases split hl' with ⟨rfl, rfl⟩ | ⟨other', at''⟩
    · exact absurd rfl differ
    · rw [if_pos rfl, if_neg other']
      exact new other' at''
    · rw [if_neg other, if_pos rfl]
      exact (new other at').symm
    · rw [if_neg other, if_neg other']
      exact h.apart l l' j j' at' at'' differ

end Standing

/-- After every run, all instances stand. -/
theorem Run.standing (behaves : host.Behaves terms held)
    (proper : ∀ t, admitted t → t.Each (Template.Tidy terms.builtin)) (sound : origin.Sound)
    (run : Run host held admitted origin s instances) :
    s.document.Sound ∧ (origin.Heard → s.document.Heard) ∧ (∀ i ∈ instances, admitted i.template) ∧
      ∃ parts, Standing terms s.document instances parts := by
  induction run with
  | start fresh =>
    rw [fresh]
    refine ⟨sound, fun h => h, fun i mem => (List.not_mem_nil mem).elim, fun _ => ∅, ?_, ?_, ?_⟩
    all_goals intro k; intros; contradiction
  | idle _ same ih =>
    rw [same]
    exact ih
  | create _ _ ok coherent made ih =>
    obtain ⟨sound, heard, known, parts, standing⟩ := ih
    obtain ⟨heap, knows, _⟩ := coherent
    obtain ⟨rfl, part, created⟩ :=
      (Template.createInstance_ends behaves (proper _ ok) sound knows).ok made
    refine ⟨created.retains.sound, fun h => created.retains.heard (heard h), fun j mem => ?_,
      standing.create created⟩
    rcases List.mem_append.mp mem with mem | mem
    · exact known j mem
    · rw [List.mem_singleton.mp mem]
      exact ok
  | createFailed _ _ ok coherent failed ih =>
    obtain ⟨sound, heard, known, parts, standing⟩ := ih
    obtain ⟨heap, knows, _⟩ := coherent
    have retains := (Template.createInstance_ends behaves (proper _ ok) sound knows).error failed
    exact ⟨retains.sound, fun h => retains.heard (heard h), known, parts, standing.retains retains⟩
  | @update _ _ _ k i i' _ _ _ found coherent updated ih =>
    obtain ⟨sound, heard, known, parts, standing⟩ := ih
    obtain ⟨heap, knows, fits⟩ := coherent
    have mem := List.mem_of_getElem? found
    obtain ⟨same, root, parent, part', refreshed⟩ := Instance.update_refreshed behaves
      (proper _ (known i mem)) sound knows (fits i mem) (standing.stands k i found) updated
    refine ⟨refreshed.keeps.sound, fun h => refreshed.keeps.heard (heard h), fun j hj => ?_,
      standing.update found same root parent refreshed⟩
    rcases List.mem_or_eq_of_mem_set hj with hj | rfl
    · exact known j hj
    · rw [same]
      exact known i mem

end LiveTemplate
