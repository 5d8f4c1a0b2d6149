/-!
# LiveTemplate.Template.Anchor

Places in a template: a node by its path from the root, and a binding by its node and by what it
drives there.
-/

namespace LiveTemplate

/-- The way from the root to a node, as positions among the children. Positions are 32-bit. -/
structure Path where
  indexes : List UInt32
  deriving DecidableEq, Repr

namespace Path

def root : Path := ⟨[]⟩

def child (path : Path) (index : Nat) : Path := ⟨path.indexes ++ [index.toUInt32]⟩

def isRoot (path : Path) : Bool := path.indexes.isEmpty

/-- A slash before each position; the root alone is a slash. -/
def text (path : Path) : String :=
  if path.isRoot then "/" else String.join (path.indexes.map fun i => s!"/{i.toNat}")

end Path

/-- What a binding drives on its node. -/
inductive Facet where
  | text
  | attribute (name : String)
  | event (name : String)
  | directive (name : String)
  deriving DecidableEq, Repr

def Facet.mark : Facet → String
  | .text => "#text"
  | .attribute name => ":" ++ name
  | .event name => "@" ++ name
  | .directive name => "*" ++ name

/-- Tells the bindings of one template apart. -/
structure Anchor where
  path : Path
  facet : Facet
  deriving DecidableEq, Repr

def Anchor.text (anchor : Anchor) : String := anchor.path.text ++ anchor.facet.mark

end LiveTemplate
