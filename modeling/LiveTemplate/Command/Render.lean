import LiveTemplate.Command.Arguments
import LiveTemplate.Json.Printer
import LiveTemplate.Template.Instance

/-!
# LiveTemplate.Command.Render

Rendering a template: an instance is made from a scope and updated with further scopes, each laid
over the one before. Handlers that the scope lacks are supplied; they do nothing.
-/

namespace LiveTemplate
namespace Command

variable {κ : Type}

/-- What a rendering runs on: the host of the functions in the scopes, and the functions that are
supplied for handlers by name. These do nothing. -/
structure Backing (κ : Type) where
  host : Host κ
  supplied : String → Function
  silent : ∀ name args s, host.call (supplied name) args s = (.undefined, s)

/-- A host whose functions return undefined and do nothing. -/
def idleHost : Host Unit where
  call := fun _ _ s => (.undefined, s)
  hear := fun _ _ s => s
  apply := fun _ _ _ s => s

/-- For scopes without functions. -/
def Backing.idle : Backing Unit where
  host := idleHost
  supplied := Function.mk
  silent := fun _ _ _ => rfl

/-- What one pass over an instance did. -/
structure Pass where
  applied : Nat
  mutations : Nat
  deriving DecidableEq, Repr

structure Rendered where
  markup : String
  /-- The one that made the instance first. -/
  passes : List Pass
  deriving DecidableEq, Repr

/-- Why a template cannot be rendered. Updates are counted from one. -/
inductive RenderFault where
  | creation (cause : EvalError)
  | update (number : Nat) (cause : EvalError)

/-- The scope with a function for each handler that it lacks. -/
def withHandlers (supplied : String → Function) (t : Template) (scope : Scope) : Scope :=
  t.handlers.foldl
    (fun scope name =>
      if scope.contains name then scope else scope.set name (.function (supplied name)))
    scope

/-- Sets every name of `next` in `scope`. -/
def overlay (scope next : Scope) : Scope :=
  next.vars.foldl (fun scope (name, value) => scope.set name value) scope

/-- Ends a pass: counts what it did and empties the journal. -/
def closePass (i : Instance) (s : Stage κ) : Pass × Stage κ :=
  let (entries, document) := s.document.takeJournal
  (⟨i.applied, entries.length⟩, { s with document })

/-- Updates an instance with further scopes in turn, the first being the update of that number. -/
def renderUpdates (host : Host κ) (i : Instance) (scope : Scope) (number : Nat) (s : Stage κ) :
    List Scope → Except RenderFault Rendered
  | [] => .ok ⟨s.document.markup i.root, []⟩
  | next :: rest =>
    let scope := overlay scope next
    match i.update host scope s with
    | (⟨_, some e⟩, _) => .error (.update number e)
    | (⟨i, none⟩, s) => do
      let (pass, s) := closePass i s
      let rendered ← renderUpdates host i scope (number + 1) s rest
      return { rendered with passes := pass :: rendered.passes }

/-- Renders a template for a host in some state. References from `nextRef` on are free. -/
def render (backing : Backing κ) (own : κ) (t : Template) (scope : Scope) (updates : List Scope)
    (nextRef : Ref) : Except RenderFault Rendered :=
  let scope := withHandlers backing.supplied t scope
  let stage : Stage κ := ⟨.withJournal, nextRef, own⟩
  match t.createInstance backing.host scope stage with
  | .error e _ => .error (.creation e)
  | .ok i s => do
    let (pass, s) := closePass i s
    let rendered ← renderUpdates backing.host i scope 1 s updates
    return { rendered with passes := pass :: rendered.passes }

def passLine (index : Nat) (pass : Pass) : String :=
  let label := if index = 0 then "create" else s!"update {index}"
  s!"{label}: {pass.applied} binding(s) applied, {pass.mutations} mutation(s)\n"

def jsonOfPass (pass : Pass) : Json := .ofMembers
  [("applied", .integer pass.applied), ("mutations", .integer pass.mutations)]

/-- The markup with a line for each pass, or the same as JSON. -/
def Rendered.text (rendered : Rendered) : Format → String
  | .markup =>
    rendered.markup ++ "\n" ++ String.join (rendered.passes.mapIdx passLine)
  | .json =>
    let passes := Json.array (rendered.passes.map jsonOfPass)
    (Json.ofMembers [("markup", .string rendered.markup), ("passes", passes)]).pretty ++ "\n"

end Command
end LiveTemplate
