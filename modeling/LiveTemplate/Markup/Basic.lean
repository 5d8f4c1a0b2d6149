/-!
# LiveTemplate.Markup.Basic

Markup as a tree: elements with attributes and children, text and comments. Attribute values and
text keep their expression spans as written.
-/

namespace LiveTemplate

inductive Markup where
  | element (tag : String) (attributes : List (String × String)) (children : List Markup)
  | text (content : String)
  | comment (content : String)
  deriving Inhabited

namespace Markup

/-- Elements that have no content and no closing tag. -/
def voidTags : List String :=
  ["area", "base", "br", "col", "embed", "hr", "img", "input", "link", "meta", "source", "track",
   "wbr"]

def tag? : Markup → Option String
  | .element tag _ _ => some tag
  | _ => none

/-- The first attribute of that name. -/
def attribute? (m : Markup) (name : String) : Option String :=
  match m with
  | .element _ attributes _ => attributes.lookup name
  | _ => none

/-- The same markup without the attributes of that name on its outermost element. -/
def withoutAttribute (m : Markup) (name : String) : Markup :=
  match m with
  | .element tag attributes children => .element tag (attributes.filter (·.1 ≠ name)) children
  | m => m

end Markup
end LiveTemplate
