import LiveTemplate.Proofs.Standing
import Mathlib.Logic.Relation

/-!
# LiveTemplate.Proofs.Reach

What is below a node. Freeing a node frees all of it, and the part of the document that belongs to
a live subtree is what is below its node, no less and no more.

  * `Document.Below`            a node and the nodes below it
  * `get?_freeAll_of_below`     freeing frees everything below
  * `Document.Exchanges`        a part gave way to another, and no other node came to life
  * `Subtree.Stands.mem_iff`    the part of a live subtree
-/

namespace LiveTemplate
namespace Document

/-- `x` is `r`, or it is reached from `r` from children to children. -/
def Below (doc : Document) (r x : NodeId) : Prop :=
  Relation.ReflTransGen (fun p c => c ∈ doc.children p) r x

/-- `c` is among the children of `p`. -/
def Lists (nodes : Slots Node) (p c : NodeId) : Prop :=
  ∃ node, nodes.get? p = some node ∧ c ∈ node.children

theorem mem_children {doc : Document} {p c : NodeId} :
    c ∈ doc.children p ↔ Lists doc.nodes p c := by
  unfold children Lists
  change c ∈ ((doc.nodes.get? p).map Node.children).getD [] ↔ _
  cases doc.nodes.get? p <;> simp

theorem Region.below {doc : Document} {part : Set NodeId} (region : doc.Region part)
    {r x : NodeId} (mem : r ∈ part) (below : doc.Below r x) : x ∈ part := by
  induction below with
  | refl => exact mem
  | tail _ step ih =>
    obtain ⟨node, found, listed⟩ := mem_children.mp step
    exact region.closed ih found listed

/-- What is below a node of a region stays below it as long as the region is left alone. -/
theorem Agrees.below {strict : Prop} {part : Set NodeId} {a b : Document}
    (h : a.Agrees strict part b) (region : a.Region part) {r x : NodeId} (mem : r ∈ part)
    (below : a.Below r x) : b.Below r x := by
  induction below with
  | refl => exact .refl
  | tail before step ih =>
    obtain ⟨node, found, listed⟩ := mem_children.mp step
    obtain ⟨node', found', follows⟩ := h.nodes _ node (region.below mem before) found
    refine ih.tail (mem_children.mpr ⟨node', found', ?_⟩)
    rwa [follows.children, List.map_id]

theorem below_of_descend {doc : Document} {r x : NodeId} {q : List Nat}
    (h : doc.descend r q = some x) : doc.Below r x := by
  induction q generalizing r with
  | nil => cases h; exact .refl
  | cons i q ih =>
    rw [descend] at h
    obtain ⟨node, found, h⟩ := Option.bind_eq_some_iff.mp h
    obtain ⟨c, listed, h⟩ := Option.bind_eq_some_iff.mp h
    exact .head (mem_children.mpr ⟨node, found, List.mem_of_getElem? listed⟩) (ih h)

/-! ## Freeing -/

/-- A way down from a node, seen after another node is gone: it stops there, it is as it was, or
it can be taken up from a child of the node that is gone. -/
theorem way_erase {nodes : Slots Node} {id y x : NodeId} {self : Node}
    (found : nodes.get? id = some self) (way : Relation.ReflTransGen (Lists nodes) y x) :
    x = id ∨ (y ≠ id ∧ Relation.ReflTransGen (Lists (nodes.erase id)) y x) ∨
      ∃ c ∈ self.children, Relation.ReflTransGen (Lists (nodes.erase id)) c x := by
  induction way using Relation.ReflTransGen.head_induction_on with
  | refl =>
    by_cases same : x = id
    · exact .inl same
    · exact .inr (.inl ⟨same, .refl⟩)
  | @head a b step _ ih =>
    obtain ⟨node, there, listed⟩ := step
    rcases ih with same | ⟨-, rest⟩ | later
    · exact .inl same
    · by_cases same : a = id
      · subst same
        rw [found] at there
        cases there
        exact .inr (.inr ⟨b, listed, rest⟩)
      · refine .inr (.inl ⟨same, .head ⟨node, ?_, listed⟩ rest⟩)
        rw [Slots.get?_erase, if_neg same]
        exact there
    · exact .inr (.inr later)

/-- Everything below a node on the stack is freed with it. -/
theorem get?_freeAll_of_below {nodes : Slots Node} {freed : Nat} {stack : List NodeId}
    {y x : NodeId} (mem : y ∈ stack) (way : Relation.ReflTransGen (Lists nodes) y x) :
    (freeAll nodes freed stack).2.get? x = none := by
  have stays {nodes : Slots Node} {freed : Nat} {stack : List NodeId}
      (gone : nodes.get? x = none) : (freeAll nodes freed stack).2.get? x = none := by
    by_contra live
    obtain ⟨node, found⟩ := Option.ne_none_iff_exists'.mp live
    rw [get?_of_freeAll found] at gone
    cases gone
  fun_induction freeAll nodes freed stack generalizing y with
  | case1 => cases mem
  | case2 nodes freed id stack dead ih =>
    rcases List.mem_cons.mp mem with rfl | mem
    · rcases way.cases_head with rfl | ⟨c, ⟨node, found, _⟩, _⟩
      · exact stays dead
      · rw [dead] at found
        cases found
    · exact ih mem way
  | case3 nodes freed id stack self found ih =>
    rcases way_erase found way with rfl | ⟨other, way⟩ | ⟨c, listed, way⟩
    · exact stays (by rw [Slots.get?_erase, if_pos rfl])
    · have later : y ∈ stack := (List.mem_cons.mp mem).resolve_left other
      exact ih (List.mem_append_right _ later) way
    · exact ih (List.mem_append_left _ (List.mem_reverse.mpr listed)) way

/-- A part of the document gave way to another. Besides, nothing is live that was not. -/
def Exchanges (part part' : Set NodeId) (doc doc' : Document) : Prop :=
  ∀ x, doc'.get? x ≠ none → x ∈ part' ∨ x ∉ part ∧ doc.get? x ≠ none

namespace Exchanges

variable {strict : Prop} {here here' there there' part : Set NodeId} {f : NodeId → NodeId}
  {a b c : Document}

theorem refl (part : Set NodeId) (a : Document) : Exchanges part part a a := by
  intro x live
  by_cases mem : x ∈ part
  · exact .inl mem
  · exact .inr ⟨mem, live⟩

theorem mono (h : Exchanges here here' a b) (less : there ⊆ here) (more : here' ⊆ there') :
    Exchanges there there' a b :=
  fun x live => (h x live).imp (fun mem => more mem) fun ⟨out, before⟩ =>
    ⟨fun mem => out (less mem), before⟩

/-- No node came to life. -/
theorem of_dead (dead : ∀ x, a.get? x = none → b.get? x = none) (part : Set NodeId) :
    Exchanges part part a b :=
  fun x live => refl part a x fun gone => live (dead x gone)

theorem union (first : Exchanges here here' a b) (second : Exchanges there there' b c) :
    Exchanges (here ∪ there) (here' ∪ there') a c := by
  intro x live
  rcases second x live with mem | ⟨out, live⟩
  · exact .inl (.inr mem)
  · rcases first x live with mem | ⟨out', live⟩
    · exact .inl (.inl mem)
    · exact .inr ⟨fun mem => mem.elim out' out, live⟩

/-- After one part, another one apart from it: nothing else came to life exactly if that is so for
the second. -/
theorem union_iff (first : Exchanges here here' a b) (keeps : a.Keeps strict here f b)
    (live : ∀ x ∈ here', b.get? x ≠ none) (apart : Disjoint here' there) :
    Exchanges (here ∪ there) (here' ∪ there') a c ↔ Exchanges there there' b c := by
  refine ⟨fun both x alive => ?_, first.union⟩
  rcases both x alive with (mem | mem) | ⟨out, before⟩
  · exact .inr ⟨Set.disjoint_left.mp apart mem, live x mem⟩
  · exact .inl mem
  · obtain ⟨node, found⟩ := Option.ne_none_iff_exists'.mp before
    exact .inr ⟨fun mem => out (.inr mem), keeps.live (fun mem => out (.inl mem)) found⟩

/-- A part that is left alone does not count. -/
theorem union_right_iff (region : a.Region there) (apart : Disjoint here there) :
    Exchanges (here ∪ there) (here' ∪ there) a b ↔ Exchanges here here' a b := by
  constructor
  · intro both x live
    rcases both x live with (mem | mem) | ⟨out, before⟩
    · exact .inl mem
    · obtain ⟨node, found, _⟩ := region x mem
      refine .inr ⟨fun mem' => Set.disjoint_left.mp apart mem' mem, ?_⟩
      rw [found]
      exact Option.some_ne_none node
    · exact .inr ⟨fun mem => out (.inl mem), before⟩
  · intro one x live
    by_cases mem : x ∈ there
    · exact .inl (.inr mem)
    · rcases one x live with mem' | ⟨out, before⟩
      · exact .inl (.inl mem')
      · exact .inr ⟨fun mem' => mem'.elim out mem, before⟩

end Exchanges

/-- A node that was not there before belongs to no part that was. -/
theorem Gains.not_exchanges {a b : Document} (gains : a.Gains b) {part : Set NodeId}
    (region : a.Region part) : ¬Exchanges part part a b := by
  intro exchanges
  obtain ⟨x, fresh, live⟩ := gains
  rcases exchanges x live with mem | ⟨_, before⟩
  · obtain ⟨node, found, _⟩ := region x mem
    rw [fresh] at found
    cases found
  · exact before fresh

/-- The subtree that is swapped away is freed. -/
theorem exchanges_swapNodes {doc : Document} (sound : doc.Sound) {part : Set NodeId}
    {old new p : NodeId} {node : Node} (mem : old ∈ part) (hp : doc.parent? old = some p)
    (out : p ∉ part) (region : doc.Region part) (below : ∀ x ∈ part, doc.Below old x)
    (hn : doc.get? new = some node) (apart : new ∉ part) (detached : doc.parent? new = none) :
    Exchanges part ∅ doc (swapNodes old new doc) := by
  have hne : old ≠ new := fun same => apart (same ▸ mem)
  intro x live
  by_cases inside : x ∈ part
  · refine (live ?_).elim
    rw [get?_swapNodes_eq mem hp out hn apart detached]
    refine get?_freeAll_of_below (List.mem_singleton_self old) ?_
    -- The way down from `old` stays in the part, where no children changed.
    have way : ∀ y, doc.Below old y →
        y ∈ part ∧ Relation.ReflTransGen (Lists (doc.supplant p old new).nodes) old y := by
      intro y hy
      induction hy with
      | refl => exact ⟨mem, .refl⟩
      | @tail y z _ step ih =>
        obtain ⟨n, found, listed⟩ := mem_children.mp step
        have other : y ≠ p := fun same => out (same ▸ ih.1)
        refine ⟨region.closed ih.1 found listed, ih.2.tail ⟨_, (get?_supplant doc hne p y).trans
          (congrArg _ found), ?_⟩⟩
        change z ∈ if y = p then _ else n.children
        rwa [if_neg other]
    exact (way x (below x inside)).2
  · rw [get?_swapNodes sound mem hp out region hn apart detached inside] at live
    refine .inr ⟨inside, fun gone => live ?_⟩
    rw [gone]
    rfl

end Document

/-! ## Live subtrees -/

section

variable {terms : Terms} {doc : Document}

theorem Extension.StandAll.length_eq {doc : Document} {extensions : List Extension}
    {ms : List Mount} {part : Set NodeId} (h : Extension.StandAll terms doc extensions ms part) :
    ms.length = extensions.length := by
  induction extensions generalizing ms part with
  | nil =>
    cases h.eq_nil
    rfl
  | cons extension rest ih =>
    obtain ⟨path, name, subtree⟩ := extension
    obtain ⟨m, ms, _, _, rfl, _, _, _, others⟩ := h.exists_cons
    exact congrArg (· + 1) (ih others)

/-- Nothing is mounted but at an extension point. -/
theorem Template.Tidy.hole_of_mounted {t : Template} (tidy : t.Tidy terms.builtin)
    {place : List Nat → NodeId} {mounted : List NodeId} (filled : t.Filled place mounted)
    (length : mounted.length = t.extensions.length) {x : NodeId} (mem : x ∈ mounted) :
    ∃ index q, (index, q) ∈ t.plan.holes ∧ x = place q := by
  obtain ⟨i, found⟩ := List.mem_iff_getElem?.mp mem
  have hi : i ∈ t.plan.holes.map Prod.fst := by
    rw [tidy.holes, List.mem_reverse, List.mem_range, ← length]
    exact (List.getElem?_eq_some_iff.mp found).1
  obtain ⟨⟨index, q⟩, spot, rfl⟩ := List.mem_map.mp hi
  refine ⟨index, q, spot, ?_⟩
  rw [filled index q spot] at found
  exact (Option.some.inj found).symm

/-- The places of a plan are below the root, those of extension points too. -/
theorem Template.Own.below {t : Template} {place : List Nat → NodeId}
    {values : List (Binding × Computed)} (own : t.Own terms doc place values) {q : List Nat}
    {p : Plan} (found : t.plan.at? q = some p) : doc.Below (place []) (place q) :=
  Document.below_of_descend (own.descend (Plan.at?_nil _) found)

mutual

theorem Subtree.Stands.below : ∀ {subtree : Subtree} {m : Mount} {part : Set NodeId},
    subtree.Each (Template.Tidy terms.builtin) → subtree.Stands terms doc m part →
      ∀ x ∈ part, doc.Below m.node x
  | .template t, m, part, tidy, h, x, mem => by
    rw [Subtree.Each] at tidy
    rw [Subtree.Stands] at h
    exact Template.Stands.below tidy h x mem
  | .conditional condition (.template t), .conditional node (some m), part, tidy, h, x, mem => by
    rw [Subtree.Each] at tidy
    rw [Subtree.Stands, Subtree.Stands] at h
    obtain ⟨rfl, h⟩ := h
    exact Template.Stands.below tidy h x mem
  | .conditional condition (.conditional _ _), .conditional node (some m), part, tidy, h, x, mem => by
    rw [Subtree.Each] at tidy
    exact tidy.elim
  | .conditional condition body, .conditional node none, part, tidy, h, x, mem => by
    rw [Subtree.Stands] at h
    obtain ⟨rfl, _⟩ := h
    cases mem
    exact .refl
  | .conditional condition body, .template root snapshot children, part, tidy, h, x, mem => by
    rw [Subtree.Stands] at h
    exact h.elim

theorem Template.Stands.below : ∀ {t : Template} {m : Mount} {part : Set NodeId},
    t.Each (Template.Tidy terms.builtin) → t.Stands terms doc m part →
      ∀ x ∈ part, doc.Below m.node x
  | ⟨id, plan, bindings, anchors, extensions, events, handlers⟩, m, part, tidy, h, x, mem => by
    obtain ⟨root, _, children, place, _, _, rfl, rooted, rfl, mounted⟩ := Template.stands_iff.mp h
    rw [Template.Each] at tidy
    change doc.Below root x
    rw [← rooted.root]
    rcases mem with ⟨q, p, found, _, rfl⟩ | mem
    · exact rooted.own.below found
    · obtain ⟨m, listed, below⟩ := Extension.StandAll.below tidy.2 mounted x mem
      have length : (children.map Mount.node).length = extensions.length := by
        rw [List.length_map, mounted.length_eq]
      obtain ⟨index, q, spot, same⟩ :=
        tidy.1.hole_of_mounted rooted.filled length (List.mem_map_of_mem listed)
      rw [same] at below
      exact (rooted.own.below (Plan.mem_holes.mp spot)).trans below

theorem Extension.StandAll.below : ∀ {extensions : List Extension} {ms : List Mount}
    {part : Set NodeId}, Extension.AllEach (Template.Tidy terms.builtin) extensions →
      Extension.StandAll terms doc extensions ms part →
        ∀ x ∈ part, ∃ m ∈ ms, doc.Below m.node x
  | [], [], part, tidy, h, x, mem => by
    rw [Extension.StandAll] at h
    rw [h] at mem
    exact (Set.notMem_empty x mem).elim
  | ⟨path, name, subtree⟩ :: rest, m :: ms, part, tidy, h, x, mem => by
    rw [Extension.AllEach] at tidy
    rw [Extension.StandAll] at h
    obtain ⟨here, there, rfl, _, stands, others⟩ := h
    rcases mem with mem | mem
    · exact ⟨m, List.mem_cons_self, Subtree.Stands.below tidy.1 stands x mem⟩
    · obtain ⟨n, listed, below⟩ := Extension.StandAll.below tidy.2 others x mem
      exact ⟨n, List.mem_cons_of_mem _ listed, below⟩
  | [], m :: ms, part, tidy, h, x, mem => by rw [Extension.StandAll] at h; exact h.elim
  | _ :: _, [], part, tidy, h, x, mem => by rw [Extension.StandAll] at h; exact h.elim

end

/-- The part of a live subtree is its node with everything below. -/
theorem Subtree.Stands.mem_iff {subtree : Subtree} {m : Mount} {part : Set NodeId}
    (h : subtree.Stands terms doc m part) (tidy : subtree.Each (Template.Tidy terms.builtin))
    {x : NodeId} : x ∈ part ↔ doc.Below m.node x :=
  ⟨h.below tidy x, h.region.below h.node_mem⟩

end
end LiveTemplate
