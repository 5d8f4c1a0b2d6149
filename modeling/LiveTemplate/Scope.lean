import LiveTemplate.Value

/-!
# LiveTemplate.Scope

The named values that a template reads.
-/

namespace LiveTemplate

structure Scope where
  vars : Table Value := []
  deriving Inhabited

namespace Scope

def empty : Scope := ⟨[]⟩

def ofEntries (entries : List (String × Value)) : Scope := ⟨Table.ofEntries entries⟩

def set (scope : Scope) (name : String) (value : Value) : Scope :=
  ⟨scope.vars.insert name value⟩

def get? (scope : Scope) (name : String) : Option Value := scope.vars.lookup name

/-- The value of a name; a name that was never set reads as undefined. -/
def read (scope : Scope) (name : String) : Value := (scope.get? name).getD .undefined

def contains (scope : Scope) (name : String) : Bool := (scope.get? name).isSome

def names (scope : Scope) : List String := scope.vars.names

def size (scope : Scope) : Nat := scope.vars.length

/-- The part of the scope under these names. A name that is not set stays unset. -/
def narrow (scope : Scope) (names : List String) : Scope :=
  ofEntries (names.filterMap fun name => (scope.get? name).map (name, ·))

/-- The same names with values of the same content. -/
def alike (a b : Scope) : Bool := Value.entriesAlike a.vars b.vars

end Scope
end LiveTemplate
