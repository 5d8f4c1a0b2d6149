import LiveTemplate.Command.Arguments
import LiveTemplate.Json.Printer
import LiveTemplate.Template.Basic

/-!
# LiveTemplate.Command.Inspect

The bindings of a template, as a table or as JSON.
-/

namespace LiveTemplate
namespace Command

/-- Fills up with spaces on the right. -/
def padded (width : Nat) (s : String) : String :=
  s ++ String.ofList (List.replicate (width - s.length) ' ')

def bindingLine (b : Binding) : String :=
  " ".intercalate
    [padded 16 b.anchor.text, padded 10 b.action.kind, padded 8 b.target.text,
     padded 24 b.action.text, b.source] ++ "\n"

def extensionLine (e : Extension) : String := s!"{e.path.text} extension {e.name}\n"

def bindingTable (t : Template) : String :=
  let names := if t.vars.isEmpty then "-" else ", ".intercalate t.vars
  s!"{t.bindings.length} binding(s); variables: {names}\n"
    ++ String.join (t.bindings.map bindingLine)
    ++ String.join (t.extensions.map extensionLine)

def jsonOfNames (names : NameSet) : Json := .array (names.map .string)

def jsonOfBinding (b : Binding) : Json := .ofMembers
  [("anchor", .string b.anchor.text), ("kind", .string b.action.kind),
   ("expression", .string b.source), ("variables", jsonOfNames b.vars),
   ("target", .string b.target.text), ("operation", .string b.action.text)]

def jsonOfExtension (e : Extension) : Json := .ofMembers
  [("path", .string e.path.text), ("name", .string e.name)]

def jsonOfTemplate (t : Template) : Json := .ofMembers
  [("variables", jsonOfNames t.vars), ("events", jsonOfNames t.events),
   ("handlers", jsonOfNames t.handlers),
   ("bindings", .array (t.bindings.map jsonOfBinding)),
   ("extensions", .array (t.extensions.map jsonOfExtension))]

/-- Describes the bindings of a template. -/
def inspection (t : Template) : Format → String
  | .markup => bindingTable t
  | .json => (jsonOfTemplate t).pretty ++ "\n"

end Command
end LiveTemplate
