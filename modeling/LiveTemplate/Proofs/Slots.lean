import LiveTemplate.Document.Slots
import Mathlib

/-!
# LiveTemplate.Proofs.Slots

Node storage as a map from ids to contents: each operation is described by what `get?` finds
after it.

* `Sound` says that the free indexes are distinct and that their slots are empty. It is what makes
  the id of a new node differ from every live one, whatever the versions have counted to.
* `length_le_size`: distinct live ids cannot outnumber the slots.
* `size_lt_size`: one more id in use is one more content.
-/

namespace LiveTemplate
namespace Slots

variable {α : Type}

/-- The free list is in order. -/
structure Sound (s : Slots α) : Prop where
  nodup : s.free.Nodup
  vacant : ∀ i ∈ s.free, ∃ slot, s.slots[i]? = some slot ∧ slot.content = none

theorem get?_eq_some {s : Slots α} {id : NodeId} {a : α} :
    s.get? id = some a ↔ s.slots[id.index]? = some ⟨id.version, some a⟩ := by
  unfold get?
  constructor
  · intro h
    split at h
    · rename_i slot found
      split at h
      · rename_i same
        obtain ⟨version, content⟩ := slot
        rw [found, ← same, ← h]
      · cases h
    · cases h
  · intro h
    rw [h]
    simp

theorem index_lt_of_get? {s : Slots α} {id : NodeId} {a : α} (h : s.get? id = some a) :
    id.index < s.slots.size :=
  (Array.getElem?_eq_some_iff.mp (get?_eq_some.mp h)).1

/-- Two live ids with one index are the same id. -/
theorem eq_of_index_eq {s : Slots α} {x y : NodeId} {a b : α} (hx : s.get? x = some a)
    (hy : s.get? y = some b) (h : x.index = y.index) : x = y := by
  have hx' := get?_eq_some.mp hx
  have hy' := get?_eq_some.mp hy
  rw [h, hy'] at hx'
  obtain ⟨index, version⟩ := x
  obtain ⟨index', version'⟩ := y
  simp only [Option.some.injEq, Slot.mk.injEq] at hx'
  simp only [NodeId.mk.injEq]
  exact ⟨h, hx'.1.symm⟩

theorem get?_modify (s : Slots α) (id : NodeId) (f : α → α) (x : NodeId) :
    (s.modify id f).get? x = if x = id then (s.get? x).map f else s.get? x := by
  unfold modify
  split
  · rename_i a found
    have bound := index_lt_of_get? found
    by_cases same : x = id
    · subst same
      rw [if_pos rfl, found]
      simp [get?, bound]
    · rw [if_neg same]
      by_cases index : x.index = id.index
      · have dead : s.get? x = none := by
          cases hx : s.get? x with
          | none => rfl
          | some b => exact absurd (eq_of_index_eq hx found index) same
        have version : ¬id.version = x.version := by
          intro h
          apply same
          cases x; cases id
          simp_all
        rw [dead]
        simp [get?, index, bound, version]
      · simp [get?, Ne.symm index]
  · rename_i dead
    split
    · rename_i same
      rw [same, dead]
      rfl
    · rfl

theorem get?_erase (s : Slots α) (id x : NodeId) :
    (s.erase id).get? x = if x = id then none else s.get? x := by
  unfold erase
  split
  · rename_i a found
    have bound := index_lt_of_get? found
    by_cases index : x.index = id.index
    · have gone : (⟨s.slots.setIfInBounds id.index ⟨id.version + 1, none⟩, id.index :: s.free⟩ :
          Slots α).get? x = none := by
        simp [get?, index, bound]
      rw [gone]
      split
      · rfl
      · rename_i other
        cases hx : s.get? x with
        | none => rfl
        | some b => exact absurd (eq_of_index_eq hx found index) other
    · have other : x ≠ id := fun h => index (by rw [h])
      rw [if_neg other]
      simp [get?, Ne.symm index]
  · rename_i dead
    split
    · rename_i same
      rw [same, dead]
    · rfl

/-- Where `insert` puts a new node: a slot that nothing lives in. -/
theorem insert_spec {s : Slots α} (h : s.Sound) (a : α) :
    s.get? (s.insert a).1 = none ∧
      ∀ x, (s.insert a).2.get? x = if x = (s.insert a).1 then some a else s.get? x := by
  have pushed (free : List Nat) : s.get? ⟨s.slots.size, 1⟩ = none ∧
      ∀ x, (⟨s.slots.push ⟨1, some a⟩, free⟩ : Slots α).get? x =
        if x = ⟨s.slots.size, 1⟩ then some a else s.get? x := by
    constructor
    · simp [get?]
    · intro x
      by_cases index : x.index = s.slots.size
      · by_cases version : x.version = 1
        · have same : x = ⟨s.slots.size, 1⟩ := by cases x; simp_all
          rw [same]
          simp [get?]
        · have other : x ≠ ⟨s.slots.size, 1⟩ := fun e => version (by rw [e])
          rw [if_neg other]
          simp [get?, index, Ne.symm version]
      · have other : x ≠ ⟨s.slots.size, 1⟩ := fun e => index (by rw [e])
        rw [if_neg other]
        simp [get?, Array.getElem?_push, index]
  unfold insert
  split
  · rename_i index rest free
    obtain ⟨slot, found, vacant⟩ := h.vacant index (by rw [free]; simp)
    obtain ⟨bound, -⟩ := Array.getElem?_eq_some_iff.mp found
    simp only [found]
    constructor
    · simp [get?, found, vacant]
    · intro x
      by_cases same : x.index = index
      · have dead : s.get? x = none := by simp [get?, same, found, vacant]
        rw [dead]
        by_cases version : x.version = slot.version ||| 1
        · have equal : x = ⟨index, slot.version ||| 1⟩ := by cases x; simp_all
          rw [equal]
          simp [get?, bound]
        · have other : x ≠ ⟨index, slot.version ||| 1⟩ := fun e => version (by rw [e])
          rw [if_neg other]
          simp [get?, same, bound, Ne.symm version]
      · have other : x ≠ ⟨index, slot.version ||| 1⟩ := fun e => same (by rw [e])
        rw [if_neg other]
        simp [get?, Ne.symm same]
  · exact pushed []

/-! ## The free list -/

theorem sound_empty : (empty : Slots α).Sound :=
  ⟨List.nodup_nil, by simp [empty]⟩

theorem sound_modify {s : Slots α} (h : s.Sound) (id : NodeId) (f : α → α) :
    (s.modify id f).Sound := by
  unfold modify
  split
  · rename_i a found
    refine ⟨h.nodup, fun i hi => ?_⟩
    obtain ⟨slot, there, vacant⟩ := h.vacant i hi
    have other : id.index ≠ i := by
      intro e
      rw [← e, get?_eq_some.mp found] at there
      cases there
      cases vacant
    exact ⟨slot, by simp [other, there], vacant⟩
  · exact h

theorem sound_erase {s : Slots α} (h : s.Sound) (id : NodeId) : (s.erase id).Sound := by
  unfold erase
  split
  · rename_i a found
    have bound := index_lt_of_get? found
    have live : id.index ∉ s.free := by
      intro hi
      obtain ⟨slot, there, vacant⟩ := h.vacant _ hi
      rw [get?_eq_some.mp found] at there
      cases there
      cases vacant
    refine ⟨List.nodup_cons.mpr ⟨live, h.nodup⟩, fun i hi => ?_⟩
    by_cases same : i = id.index
    · subst same
      exact ⟨⟨id.version + 1, none⟩, by simp [bound], rfl⟩
    · obtain ⟨slot, there, vacant⟩ := h.vacant i (by simpa [same] using hi)
      exact ⟨slot, by simp [Ne.symm same, there], vacant⟩
  · exact h

theorem sound_insert {s : Slots α} (h : s.Sound) (a : α) : (s.insert a).2.Sound := by
  unfold insert
  split
  · rename_i index rest free
    have fresh : index ∉ rest ∧ rest.Nodup := by
      have := h.nodup
      rw [free] at this
      exact List.nodup_cons.mp this
    obtain ⟨slot, found, -⟩ := h.vacant index (by rw [free]; simp)
    rw [found]
    refine ⟨fresh.2, fun i hi => ?_⟩
    have other : index ≠ i := fun e => fresh.1 (by rw [e]; exact hi)
    obtain ⟨slot', there, vacant⟩ := h.vacant i (by rw [free]; simp [show i ∈ rest from hi])
    exact ⟨slot', by simp [other, there], vacant⟩
  · exact ⟨List.nodup_nil, fun i hi => by cases hi⟩

/-- Distinct live ids have distinct slots. -/
theorem length_le_size {s : Slots α} {ids : List NodeId} (distinct : ids.Nodup)
    (live : ∀ id ∈ ids, ∃ a, s.get? id = some a) : ids.length ≤ s.slots.size := by
  have indexes : (ids.map NodeId.index).Nodup := by
    rw [List.nodup_map_iff_inj_on distinct]
    intro x hx y hy same
    obtain ⟨a, ha⟩ := live x hx
    obtain ⟨b, hb⟩ := live y hy
    exact eq_of_index_eq ha hb same
  have bounded : ids.map NodeId.index ⊆ List.range s.slots.size := by
    intro i hi
    obtain ⟨x, hx, rfl⟩ := List.mem_map.mp hi
    obtain ⟨a, ha⟩ := live x hx
    exact List.mem_range.mpr (index_lt_of_get? ha)
  have := (List.subperm_of_subset indexes bounded).length_le
  simpa using this

/-- The ids in use, in the order of their slots. -/
def ids (s : Slots α) : List NodeId :=
  s.slots.toList.zipIdx.filterMap fun (slot, i) => slot.content.map fun _ => ⟨i, slot.version⟩

theorem mem_ids {s : Slots α} {x : NodeId} : x ∈ s.ids ↔ ∃ a, s.get? x = some a := by
  simp only [ids, List.mem_filterMap, Prod.exists, List.mem_zipIdx_iff_getElem?,
    Array.getElem?_toList, Option.map_eq_some_iff, get?_eq_some]
  constructor
  · rintro ⟨⟨version, content⟩, i, found, a, rfl, rfl⟩
    exact ⟨a, found⟩
  · rintro ⟨a, found⟩
    exact ⟨_, _, found, a, rfl, rfl⟩

theorem nodup_ids (s : Slots α) : s.ids.Nodup := by
  have indexes : s.slots.toList.zipIdx.Pairwise fun p q => p.2 ≠ q.2 := by
    have distinct : (s.slots.toList.zipIdx.map Prod.snd).Nodup := by
      rw [List.zipIdx_map_snd]
      exact List.nodup_range'
    rwa [List.Nodup, List.pairwise_map] at distinct
  refine List.pairwise_filterMap.mpr (indexes.imp fun other x hx y hy same => other ?_)
  obtain ⟨_, _, rfl⟩ := Option.map_eq_some_iff.mp hx
  obtain ⟨_, _, rfl⟩ := Option.map_eq_some_iff.mp hy
  exact congrArg NodeId.index same

theorem length_ids (s : Slots α) : s.ids.length = s.size := by
  rw [ids, List.length_filterMap_eq_countP, size, ← Array.countP_toList]
  nth_rewrite 2 [← List.zipIdx_map_fst 0 s.slots.toList]
  rw [List.countP_map]
  simp only [Option.isSome_map, Function.comp_def]

/-- What is in use stays so, and one id more is. -/
theorem size_lt_size {s t : Slots α} (kept : ∀ x a, s.get? x = some a → ∃ b, t.get? x = some b)
    {x : NodeId} {b : α} (fresh : s.get? x = none) (live : t.get? x = some b) :
    s.size < t.size := by
  have new : x ∉ s.ids := by
    intro mem
    obtain ⟨a, found⟩ := mem_ids.mp mem
    rw [fresh] at found
    cases found
  have inside : x :: s.ids ⊆ t.ids := by
    intro y mem
    rcases List.mem_cons.mp mem with rfl | mem
    · exact mem_ids.mpr ⟨b, live⟩
    · obtain ⟨a, found⟩ := mem_ids.mp mem
      exact mem_ids.mpr (kept y a found)
  have := (List.subperm_of_subset (List.nodup_cons.mpr ⟨new, s.nodup_ids⟩) inside).length_le
  rwa [List.length_cons, length_ids, length_ids] at this

end Slots
end LiveTemplate
