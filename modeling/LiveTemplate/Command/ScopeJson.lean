import LiveTemplate.Json.Printer
import LiveTemplate.Json.Reader
import LiveTemplate.Scope

/-!
# LiveTemplate.Command.ScopeJson

Scopes given as JSON objects.
-/

namespace LiveTemplate
namespace Json

mutual

/-- The value of a JSON document. Lists and maps get references from `ref` on; the next free one is
returned. -/
def toValue : Json → Ref → Value × Ref
  | .null, ref => (.null, ref)
  | .bool b, ref => (.bool b, ref)
  | .integer n, ref => (.number (Float.ofInt n), ref)
  | .float x, ref => (.number x, ref)
  | .string s, ref => (.string s, ref)
  | .array items, ref =>
    let (values, next) := toValues items (ref + 1)
    (.list ref values, next)
  | .object members, ref =>
    let (entries, next) := toEntries members (ref + 1)
    (.map ref entries, next)

def toValues : List Json → Ref → List Value × Ref
  | [], ref => ([], ref)
  | item :: rest, ref =>
    let (value, ref) := item.toValue ref
    let (values, ref) := toValues rest ref
    (value :: values, ref)

def toEntries : List (String × Json) → Ref → List (String × Value) × Ref
  | [], ref => ([], ref)
  | (name, item) :: rest, ref =>
    let (value, ref) := item.toValue ref
    let (entries, ref) := toEntries rest ref
    ((name, value) :: entries, ref)

end

end Json

/-- Why a text gives no scope. -/
inductive ScopeFault where
  | invalidJson
  | notAnObject (json : Json)

/-- Reads a scope from the text of a JSON object. -/
def Scope.ofJson (source : String) (ref : Ref) : Except ScopeFault (Scope × Ref) :=
  match Json.parse? source with
  | none => .error .invalidJson
  | some (.object members) =>
    let (entries, ref) := Json.toEntries members ref
    .ok (⟨entries⟩, ref)
  | some json => .error (.notAnObject json)

end LiveTemplate
