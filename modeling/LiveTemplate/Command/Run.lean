import LiveTemplate.Command.Inspect
import LiveTemplate.Command.Render
import LiveTemplate.Command.ScopeJson
import LiveTemplate.Template.Analysis

/-!
# LiveTemplate.Command.Run

The command line as a function from the files it may read to its output.
-/

namespace LiveTemplate
namespace Command

/-- One reason in the chain behind a failure. -/
inductive Reason where
  | text (s : String)
  /-- A file could not be read. -/
  | unreadable
  /-- A text is no JSON. -/
  | notJson
  deriving DecidableEq, Repr

/-- Why a task failed: the outermost reason first. -/
structure Failure where
  reasons : List Reason

/-- Puts a reason in front. -/
def Failure.within (reason : String) (failure : Failure) : Failure :=
  ⟨.text reason :: failure.reasons⟩

/-- An error and the errors that caused it. -/
def reasonsOf (e : EvalError) : List Reason :=
  match e with
  | .directive _ cause => .text e.message :: reasonsOf cause
  | _ => [.text e.message]

def Failure.ofScopeFault : ScopeFault → Failure
  | .invalidJson => ⟨[.text "invalid scope JSON", .notJson]⟩
  | .notAnObject json => ⟨[.text s!"scope must be a JSON object, got {json.compact}"]⟩

def Failure.ofRenderFault : RenderFault → Failure
  | .creation cause => ⟨.text "failed to build instance" :: reasonsOf cause⟩
  | .update number cause => ⟨.text s!"update {number} failed" :: reasonsOf cause⟩

/-- The files that can be read. -/
abbrev Files := String → Option String

/-- The file that an argument names with an at sign in front. -/
def fileOf? (arg : String) : Option String :=
  match arg.toList with
  | '@' :: path => some (String.ofList path)
  | _ => none

/-- A scope from JSON in the argument itself or in the file that it names. -/
def loadScope (files : Files) (arg : String) (ref : Ref) : Except Failure (Scope × Ref) :=
  match fileOf? arg with
  | none => (Scope.ofJson arg ref).mapError .ofScopeFault
  | some path =>
    match files path with
    | none => .error ⟨[.text s!"failed to read scope file {path}", .unreadable]⟩
    | some source =>
      (Scope.ofJson source ref).mapError fun fault =>
        (Failure.ofScopeFault fault).within s!"in scope file {path}"

def loadScopes (files : Files) : List String → Ref → Except Failure (List Scope × Ref)
  | [], ref => .ok ([], ref)
  | arg :: rest, ref => do
    let (scope, ref) ← loadScope files arg ref
    let (scopes, ref) ← loadScopes files rest ref
    return (scope :: scopes, ref)

/-- The template in a file, compiled with the standard directives. -/
def loadTemplate (files : Files) (path : String) : Except Failure Template :=
  match files path with
  | none => .error ⟨[.text s!"failed to read {path}", .unreadable]⟩
  | some source =>
    match Template.ofSource .standard 1 source with
    | .error e => .error ⟨[.text s!"failed to compile {path}", .text e.message]⟩
    | .ok (t, _) => .ok t

/-- Does a task and gives its output. -/
def run (files : Files) : Task → Except Failure String
  | .inspect input format => do
    let t ← loadTemplate files input
    return inspection t format
  | .render input scope updates format => do
    let t ← loadTemplate files input
    let (scope, ref) ←
      match scope with
      | some arg => loadScope files arg 0
      | none => pure (.empty, 0)
    let (updates, ref) ← loadScopes files updates ref
    let rendered ← (render .idle () t scope updates ref).mapError .ofRenderFault
    return rendered.text format

/-- The files that a task may read. -/
def Task.files : Task → List String
  | .inspect input _ => [input]
  | .render input scope updates _ => input :: (scope.toList ++ updates).filterMap fileOf?

end Command
end LiveTemplate
