import LiveTemplate.Table

/-!
# LiveTemplate.Json.Basic

JSON documents. A number without fraction and exponent that fits a 64-bit integer is kept as an
integer, every other one as a float. The members of an object are in increasing order of name.
-/

namespace LiveTemplate

inductive Json where
  | null
  | bool (b : Bool)
  | integer (n : Int)
  | float (x : Float)
  | string (s : String)
  | array (items : List Json)
  | object (members : List (String × Json))
  deriving Inhabited

namespace Json

/-- The object with these members; of two with one name the later counts. -/
def ofMembers (members : List (String × Json)) : Json := .object (Table.ofEntries members)

/-- The member of that name, if this is an object that has one. -/
def get? (json : Json) (name : String) : Option Json :=
  match json with
  | .object members => members.lookup name
  | _ => none

end Json
end LiveTemplate
