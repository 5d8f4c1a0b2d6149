/-!
# LiveTemplate.Document.Slots

Storage for nodes. A slot can be used again once its node is gone; each use has its own version,
so an id that outlived its node finds nothing. Versions are odd while the slot is in use and even
while it is free, and they count modulo `2 ^ 32`.
-/

namespace LiveTemplate

/-- Names one use of one slot. -/
structure NodeId where
  index : Nat
  version : UInt32
  deriving DecidableEq, Repr, Inhabited

namespace NodeId

/-- Slots are counted from one. -/
def text (id : NodeId) : String := s!"#{id.index + 1}v{id.version.toNat}"

end NodeId

structure Slot (α : Type) where
  version : UInt32
  content : Option α

/-- Slots in the order in which they were made, and the indexes of the free ones, the one freed
last in front. -/
structure Slots (α : Type) where
  slots : Array (Slot α) := #[]
  free : List Nat := []

namespace Slots

variable {α : Type}

def empty : Slots α := ⟨#[], []⟩

def get? (s : Slots α) (id : NodeId) : Option α :=
  match s.slots[id.index]? with
  | some slot => if slot.version = id.version then slot.content else none
  | none => none

def contains (s : Slots α) (id : NodeId) : Bool := (s.get? id).isSome

/-- Puts `a` into the slot that was freed last, or into a new one. -/
def insert (s : Slots α) (a : α) : NodeId × Slots α :=
  match s.free with
  | index :: rest =>
    match s.slots[index]? with
    | some slot =>
      let version := slot.version ||| 1
      (⟨index, version⟩, ⟨s.slots.setIfInBounds index ⟨version, some a⟩, rest⟩)
    | none => (⟨s.slots.size, 1⟩, ⟨s.slots.push ⟨1, some a⟩, rest⟩)
  | [] => (⟨s.slots.size, 1⟩, ⟨s.slots.push ⟨1, some a⟩, []⟩)

/-- Changes what an id names; an id that names nothing changes nothing. -/
def modify (s : Slots α) (id : NodeId) (f : α → α) : Slots α :=
  match s.get? id with
  | some a => { s with slots := s.slots.setIfInBounds id.index ⟨id.version, some (f a)⟩ }
  | none => s

/-- Frees the slot of a live id. -/
def erase (s : Slots α) (id : NodeId) : Slots α :=
  match s.get? id with
  | some _ => ⟨s.slots.setIfInBounds id.index ⟨id.version + 1, none⟩, id.index :: s.free⟩
  | none => s

/-- How many slots are in use. -/
def size (s : Slots α) : Nat := s.slots.countP fun slot => slot.content.isSome

theorem size_erase_lt {s : Slots α} {id : NodeId} {a : α} (h : s.get? id = some a) :
    (s.erase id).size < s.size := by
  have live := h
  simp only [get?] at live
  split at live
  · rename_i slot found
    split at live
    · obtain ⟨bound, rfl⟩ := Array.getElem?_eq_some_iff.mp found
      have positive : 0 < s.size := by
        rw [size, Array.countP_pos_iff]
        exact ⟨_, Array.getElem_mem bound, by rw [live]; rfl⟩
      simp only [erase, h, size, Array.setIfInBounds, dif_pos bound]
      rw [Array.countP_set]
      simp only [size] at positive
      simp only [live, Option.isSome_some, Option.isSome_none, if_true, Bool.false_eq_true, if_false]
      omega
    · cases live
  · cases live

end Slots
end LiveTemplate
