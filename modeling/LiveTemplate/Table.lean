/-!
# LiveTemplate.Table

Finite maps from names, kept as a list in increasing order of the names.
-/

namespace LiveTemplate

abbrev Table (α : Type) := List (String × α)

namespace Table

variable {α : Type}

/-- Sets the entry of a name, in place if the name is there already. -/
def insert (name : String) (value : α) : Table α → Table α
  | [] => [(name, value)]
  | (other, held) :: rest =>
    if name < other then (name, value) :: (other, held) :: rest
    else if name = other then (name, value) :: rest
    else (other, held) :: insert name value rest

/-- The table of these entries; of two with one name the later counts. -/
def ofEntries (entries : List (String × α)) : Table α :=
  entries.foldl (fun table (name, value) => table.insert name value) []

def names (table : Table α) : List String := table.map Prod.fst

theorem lookup_insert_self (name : String) (value : α) (table : Table α) :
    (table.insert name value).lookup name = some value := by
  induction table with
  | nil => simp [insert]
  | cons entry rest ih =>
    obtain ⟨other, held⟩ := entry
    simp only [insert]
    split
    · simp
    · split
      · simp
      · rename_i h
        rw [List.lookup_cons]
        simp [beq_false_of_ne h, ih]

theorem lookup_insert_of_ne {name other : String} (h : other ≠ name) (value : α)
    (table : Table α) : (table.insert name value).lookup other = table.lookup other := by
  induction table with
  | nil => simp [insert, List.lookup_cons, beq_false_of_ne h]
  | cons entry rest ih =>
    obtain ⟨key, held⟩ := entry
    simp only [insert]
    split
    · simp [List.lookup_cons, beq_false_of_ne h]
    · split
      · rename_i same
        subst same
        simp [List.lookup_cons, beq_false_of_ne h]
      · simp only [List.lookup_cons, ih]

end Table

/-- A set of names as a list in increasing order. -/
abbrev NameSet := List String

namespace NameSet

def insert (name : String) : NameSet → NameSet
  | [] => [name]
  | other :: rest =>
    if name < other then name :: other :: rest
    else if name = other then other :: rest
    else other :: insert name rest

/-- The set of the names in a list. -/
def ofNames (names : List String) : NameSet := names.foldl (fun set name => insert name set) []

def union (a b : NameSet) : NameSet := b.foldl (fun set name => insert name set) a

theorem mem_insert (name other : String) (set : NameSet) :
    other ∈ insert name set ↔ other = name ∨ other ∈ set := by
  induction set with
  | nil => simp [insert]
  | cons head rest ih =>
    simp only [insert]
    split
    · simp
    · split
      · rename_i h
        subst h
        simp
      · simp only [List.mem_cons, ih]
        constructor <;> (intro h; rcases h with h | h | h <;> simp [h])

theorem mem_union (a b : NameSet) (name : String) :
    name ∈ union a b ↔ name ∈ a ∨ name ∈ b := by
  unfold union
  induction b generalizing a with
  | nil => simp
  | cons head rest ih =>
    simp only [List.foldl_cons, ih, mem_insert, List.mem_cons]
    constructor
    · rintro ((h | h) | h) <;> simp [h]
    · rintro (h | h | h) <;> simp [h]

end NameSet
end LiveTemplate
