import LiveTemplate.Document.Events
import LiveTemplate.Template.Basic

/-!
# LiveTemplate.Template.Build

Building the nodes of a plan. A child is attached once everything below it is there. Handlers are
wired as their element is made, so a handler that is missing leaves the nodes made before it.
-/

namespace LiveTemplate

/-- The document under construction, with the nodes made for anchors and extension points, the
latest first. -/
structure Site where
  document : Document
  anchored : List (Nat × NodeId) := []
  placeholders : List (Nat × NodeId) := []

abbrev Construction := EStateM EvalError Site

namespace Plan

/-- Runs an operation on the document. -/
def editing {α : Type} (f : Document → α × Document) : Construction α := fun site =>
  let (a, document) := f site.document
  .ok a { site with document }

/-- Changes the document. -/
def write (f : Document → Document) : Construction Unit :=
  modify fun site => { site with document := f site.document }

def remember (anchor : Option Nat) (id : NodeId) : Construction Unit :=
  match anchor with
  | none => pure ()
  | some slot => modify fun site => { site with anchored := (slot, id) :: site.anchored }

def wire (scope : Scope) (id : NodeId) (wiring : Wiring) : Construction Unit :=
  match scope.read wiring.handler with
  | .function f => write (·.setHandler id wiring.event f)
  | other => throw (.missingHandler wiring.event wiring.handler other.typeName)

mutual

def build (scope : Scope) : Plan → Construction NodeId
  | .element tag attributes handlers children anchor => do
    let id ← editing (·.createElement tag)
    for (name, value) in attributes do
      write (·.setAttribute id name value)
    for wiring in handlers do
      wire scope id wiring
    buildChildren scope id children
    remember anchor id
    return id
  | .text content anchor => do
    let id ← editing (·.createText content)
    remember anchor id
    return id
  | .comment content => editing (·.createComment content)
  | .placeholder index => do
    let id ← editing (·.createComment "")
    modify fun site => { site with placeholders := (index, id) :: site.placeholders }
    return id

def buildChildren (scope : Scope) (parent : NodeId) : List Plan → Construction Unit
  | [] => pure ()
  | plan :: rest => do
    let id ← build scope plan
    write (·.appendChild parent id)
    buildChildren scope parent rest

end

end Plan

namespace Template

/-- The node of each anchor, in order. -/
def anchorNodes (root : NodeId) (anchored : List (Nat × NodeId)) (paths : List Path)
    (slot : Nat) : Except EvalError (List NodeId) :=
  match paths with
  | [] => .ok []
  | path :: rest => do
    match anchored.lookup slot with
    | none => throw (.detachedAnchor path.text root)
    | some id => return id :: (← anchorNodes root anchored rest (slot + 1))

/-- Makes the document hear the events of a template. -/
def listen (t : Template) (doc : Document) : Document :=
  t.events.foldl (fun doc event => (doc.ensureListening event).2) doc

/-- Builds the fixed nodes of a template and stores its anchors on the root. -/
def buildPlan (t : Template) (scope : Scope) : Construction NodeId := do
  Plan.write t.listen
  let root ← t.plan.build scope
  match anchorNodes root (← get).anchored t.anchors 0 with
  | .error e => throw e
  | .ok nodes => Plan.write (·.setAnchors root nodes)
  return root

end Template
end LiveTemplate
