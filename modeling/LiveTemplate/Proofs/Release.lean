import LiveTemplate.Proofs.Lifetimes

/-!
# LiveTemplate.Proofs.Release

What releasing a node frees. The loop takes nodes off a stack and puts their children onto it, out
of a document that changes under it; all the same it frees what was below the node before, no more
and no less, and no node twice.

  * `Slots.Frees`                            live nodes, all different, are freed in turn
  * `Document.freeAll_frees`                 that is what the loop does
  * `Document.release_frees_exactly_below`   one release
-/

namespace LiveTemplate

namespace Slots

variable {α : Type}

theorem size_erase {s : Slots α} {id : NodeId} {a : α} (live : s.get? id = some a) :
    (s.erase id).size + 1 = s.size := by
  have absent : id ∉ (s.erase id).ids := by
    intro mem
    obtain ⟨b, found⟩ := mem_ids.mp mem
    rw [get?_erase, if_pos rfl] at found
    cases found
  have same : (id :: (s.erase id).ids).Perm s.ids := by
    refine (List.perm_ext_iff_of_nodup (List.nodup_cons.mpr ⟨absent, nodup_ids _⟩)
      (nodup_ids s)).mpr fun x => ?_
    rw [List.mem_cons, mem_ids, mem_ids, get?_erase]
    by_cases here : x = id
    · simp [here, live]
    · simp [here]
  have := same.length_eq
  rwa [List.length_cons, length_ids, length_ids] at this

/-- Storages with the same ids in use. -/
theorem size_eq_of_contains {s t : Slots α} (same : ∀ x, s.contains x = t.contains x) :
    s.size = t.size := by
  have ids : s.ids.Perm t.ids := by
    refine (List.perm_ext_iff_of_nodup (nodup_ids s) (nodup_ids t)).mpr fun x => ?_
    simpa [mem_ids, contains, Option.isSome_iff_exists] using Bool.eq_iff_iff.mp (same x)
  have := ids.length_eq
  rwa [length_ids, length_ids] at this

theorem free_erase {s : Slots α} {id : NodeId} {a : α} (live : s.get? id = some a) :
    (s.erase id).free = id.index :: s.free := by
  simp [erase, live]

/-- The ids are live, all different, and freed one after the other. -/
structure Frees (s : Slots α) (ids : List NodeId) (s' : Slots α) : Prop where
  nodup : ids.Nodup
  live : ∀ id ∈ ids, ∃ a, s.get? id = some a
  get? : ∀ x, s'.get? x = if x ∈ ids then none else s.get? x
  free : s'.free = ids.reverse.map NodeId.index ++ s.free
  size : s'.size + ids.length = s.size

namespace Frees

variable {s s' : Slots α} {ids : List NodeId}

theorem nil (s : Slots α) : s.Frees [] s :=
  ⟨List.nodup_nil, fun _ mem => (List.not_mem_nil mem).elim, fun x => by simp, by simp, by simp⟩

theorem cons {id : NodeId} {a : α} (found : s.get? id = some a)
    (rest : (s.erase id).Frees ids s') : s.Frees (id :: ids) s' := by
  have apart : id ∉ ids := by
    intro mem
    obtain ⟨b, again⟩ := rest.live id mem
    rw [get?_erase, if_pos rfl] at again
    cases again
  refine ⟨List.nodup_cons.mpr ⟨apart, rest.nodup⟩, fun x mem => ?_, fun x => ?_, ?_, ?_⟩
  · rcases List.mem_cons.mp mem with rfl | mem
    · exact ⟨a, found⟩
    · obtain ⟨b, later⟩ := rest.live x mem
      have other : x ≠ id := fun same => apart (same ▸ mem)
      rw [get?_erase, if_neg other] at later
      exact ⟨b, later⟩
  · rw [rest.get?, get?_erase]
    by_cases here : x = id
    · simp [here]
    · simp [here]
  · rw [rest.free, free_erase found]
    simp
  · have := size_erase found
    have := rest.size
    rw [List.length_cons]
    omega

end Frees
end Slots

namespace Document

open Relation (ReflTransGen)

/-- One turn of the loop frees the node on top of the stack, if it is live; what was freed in the
end was live before and lies below the stack. -/
theorem freeAll_frees (nodes : Slots Node) (freed : Nat) (stack : List NodeId) :
    ∃ ids, nodes.Frees ids (freeAll nodes freed stack).2 ∧
      (freeAll nodes freed stack).1 = freed + ids.length ∧
      ∀ x ∈ ids, ∃ y ∈ stack, ReflTransGen (Lists nodes) y x := by
  fun_induction freeAll nodes freed stack with
  | case1 nodes freed => exact ⟨[], .nil nodes, rfl, fun _ mem => (List.not_mem_nil mem).elim⟩
  | case2 nodes freed id stack dead ih =>
    obtain ⟨ids, frees, count, below⟩ := ih
    refine ⟨ids, frees, count, fun x mem => ?_⟩
    obtain ⟨y, later, way⟩ := below x mem
    exact ⟨y, List.mem_cons_of_mem _ later, way⟩
  | case3 nodes freed id stack self found ih =>
    obtain ⟨ids, frees, count, below⟩ := ih
    have before {p c : NodeId} (step : Lists (nodes.erase id) p c) : Lists nodes p c := by
      obtain ⟨node, there, listed⟩ := step
      rw [Slots.get?_erase] at there
      split at there
      · cases there
      · exact ⟨node, there, listed⟩
    refine ⟨id :: ids, .cons found frees, ?_, fun x mem => ?_⟩
    · rw [count, List.length_cons]
      omega
    · rcases List.mem_cons.mp mem with rfl | mem
      · exact ⟨x, List.mem_cons_self, .refl⟩
      · obtain ⟨y, mem, way⟩ := below x mem
        have way := ReflTransGen.mono (fun _ _ => before) y x way
        rcases List.mem_append.mp mem with child | later
        · exact ⟨id, List.mem_cons_self, way.head ⟨self, found, List.mem_reverse.mp child⟩⟩
        · exact ⟨y, List.mem_cons_of_mem _ later, way⟩

theorem Linked.live_of_below {doc : Document} (linked : doc.Linked) {r x : NodeId}
    (live : doc.contains r = true) (below : doc.Below r x) : doc.contains x = true := by
  induction below with
  | refl => exact live
  | tail _ step _ =>
    obtain ⟨node, found, listed⟩ := mem_children.mp step
    obtain ⟨child, there, _⟩ := linked.pointsBack found listed
    exact contains_iff.mpr ⟨child, there⟩

/-- Detaching takes links away and makes none. -/
theorem below_of_detach {doc : Document} {n r x : NodeId}
    (way : ReflTransGen (Lists (doc.detach n).nodes) r x) : doc.Below r x := by
  refine ReflTransGen.mono (fun p c step => mem_children.mpr ?_) r x way
  cases up : doc.parent? n with
  | none => rwa [detach_of_detached up] at step
  | some q =>
    obtain ⟨node, there, listed⟩ := step
    change (doc.detach n).get? p = some node at there
    rw [get?_detach up] at there
    obtain ⟨old, found, rfl⟩ := Option.map_eq_some_iff.mp there
    dsimp only at listed
    split at listed
    · exact ⟨old, found, (List.mem_filter.mp listed).1⟩
    · exact ⟨old, found, listed⟩

/-- A node other than the one that is detached keeps all but, for the parent, its place among the
children. -/
theorem get?_detach_of_ne {doc : Document} {n x : NodeId} (other : x ≠ n) :
    (doc.detach n).get? x = if doc.parent? n = some x
      then (doc.get? x).map fun node => { node with children := node.children.filter (· ≠ n) }
      else doc.get? x := by
  cases up : doc.parent? n with
  | none => rw [detach_of_detached up, if_neg (by simp)]
  | some p =>
    rw [get?_detach up]
    by_cases here : x = p
    · simp [here, here ▸ other]
    · have apart : ¬some p = some x := fun same => here (Option.some.inj same).symm
      simp [here, other, apart]

/-- Releasing a live node frees that node and what is below it, each node once: their slots are
added to the free ones and their number is what the release returns and what the node count goes
down by. Other nodes stay as they are, except that the parent, if it stays, loses the node from its
children. The document may have cycles. -/
theorem release_frees_exactly_below {doc : Document} (reachable : doc.Reachable) {n : NodeId}
    (live : doc.contains n = true) :
    ∃ ids : List NodeId, ids.Nodup ∧ (∀ x, x ∈ ids ↔ doc.Below n x) ∧
      (∀ x ∈ ids, doc.contains x = true) ∧ (doc.release n).1 = ids.length ∧
      (doc.release n).2.nodeCount + ids.length = doc.nodeCount ∧
      (doc.release n).2.nodes.free = ids.reverse.map NodeId.index ++ doc.nodes.free ∧
      ∀ x, (doc.release n).2.get? x =
        if x ∈ ids then none
        else if doc.parent? n = some x then
          (doc.get? x).map fun node => { node with children := node.children.filter (· ≠ n) }
        else doc.get? x := by
  obtain ⟨ids, frees, count, stacked⟩ := freeAll_frees (doc.detach n).nodes 0 [n]
  have run : doc.release n = ((freeAll (doc.detach n).nodes 0 [n]).1,
      { doc.detach n with nodes := (freeAll (doc.detach n).nodes 0 [n]).2 }.record
        (.release n)) := by
    unfold release
    rw [if_pos live]
  have after (x : NodeId) : (doc.release n).2.get? x =
      if x ∈ ids then none else (doc.detach n).get? x := by
    rw [run]
    exact frees.get? x
  have below (x : NodeId) : x ∈ ids ↔ doc.Below n x := by
    refine ⟨fun mem => ?_, fun below => ?_⟩
    · obtain ⟨y, top, way⟩ := stacked x mem
      rw [List.mem_singleton.mp top] at way
      exact below_of_detach way
    · by_contra out
      have there := reachable.sound.links.live_of_below live below
      have gone := contains_release_of_below below there
      rw [← contains_detach doc n] at there
      obtain ⟨node, found⟩ := contains_iff.mp there
      rw [Bool.eq_false_iff] at gone
      exact gone (contains_iff.mpr ⟨node, by rw [after, if_neg out, found]⟩)
  have size : (doc.detach n).nodes.size = doc.nodes.size :=
    Slots.size_eq_of_contains (contains_detach doc n)
  have free : (doc.detach n).nodes.free = doc.nodes.free := by
    unfold detach
    split
    · rfl
    · simp [modify, Slots.free_modify]
  refine ⟨ids, frees.nodup, below, fun x mem => ?_, ?_, ?_, ?_, fun x => ?_⟩
  · exact reachable.sound.links.live_of_below live ((below x).mp mem)
  · rw [run, count, Nat.zero_add]
  · rw [run]
    exact frees.size.trans size
  · rw [run]
    exact frees.free.trans (by rw [free])
  · rw [after]
    by_cases mem : x ∈ ids
    · rw [if_pos mem, if_pos mem]
    · have other : x ≠ n := fun same => mem (same ▸ (below n).mpr .refl)
      rw [if_neg mem, if_neg mem, get?_detach_of_ne other]

/-- Two nodes are each other's children, and one of them is released. -/
theorem release_frees_exactly_below_cycle :
    let doc := (new true).performAll [.createElement "ul", .createElement "a", .createElement "b",
      .appendChild ⟨1, 1⟩ ⟨2, 1⟩, .appendChild ⟨2, 1⟩ ⟨1, 1⟩]
    doc.Reachable ∧ doc.contains ⟨1, 1⟩ = true ∧ doc.nodeCount = 3 ∧ doc.Below ⟨1, 1⟩ ⟨2, 1⟩ ∧
      doc.Below ⟨2, 1⟩ ⟨1, 1⟩ ∧ (doc.release ⟨1, 1⟩).1 = 2 ∧
      (doc.release ⟨1, 1⟩).2.nodeCount = 1 := by
  intro doc
  have reachable : doc.Reachable := ⟨true, _, rfl⟩
  have live : doc.contains ⟨1, 1⟩ = true := by decide +kernel
  have count : doc.nodeCount = 3 := by decide +kernel
  have down : doc.Below ⟨1, 1⟩ ⟨2, 1⟩ := by
    refine .single ?_
    decide +kernel
  have up : doc.Below ⟨2, 1⟩ ⟨1, 1⟩ := by
    refine .single ?_
    decide +kernel
  obtain ⟨ids, nodup, below, _, freed, left, _, _⟩ := release_frees_exactly_below reachable live
  -- The list is not below the two, so it is not among what is freed.
  have closed (x : NodeId) (h : doc.Below ⟨1, 1⟩ x) : x ∈ [(⟨1, 1⟩ : NodeId), ⟨2, 1⟩] := by
    have kids : doc.children ⟨1, 1⟩ = [⟨2, 1⟩] ∧ doc.children ⟨2, 1⟩ = [⟨1, 1⟩] := by
      decide +kernel
    induction h with
    | refl => simp
    | tail _ step ih =>
      simp only [List.mem_cons, List.not_mem_nil, or_false] at ih
      rcases ih with rfl | rfl
      · rw [kids.1] at step
        exact List.mem_cons_of_mem _ step
      · rw [kids.2] at step
        simp [List.mem_singleton.mp step]
  have same : ids.Perm [⟨1, 1⟩, ⟨2, 1⟩] := by
    refine (List.perm_ext_iff_of_nodup nodup (by decide)).mpr fun x => ?_
    refine (below x).trans ⟨closed x, fun mem => ?_⟩
    rcases List.mem_pair.mp mem with rfl | rfl
    · exact .refl
    · exact down
  have two : ids.length = 2 := same.length_eq
  refine ⟨reachable, live, count, down, up, freed.trans two, ?_⟩
  omega

end Document
end LiveTemplate
