import LiveTemplate.Stage
import LiveTemplate.Template.Basic

/-!
# LiveTemplate.Template.Update

One pass over the bindings of a template: every value is computed first, then those that are not
identical to the value of the last pass are written to the document.
-/

namespace LiveTemplate

/-- What the bindings of a template came to in one pass. -/
structure Snapshot where
  template : TemplateId
  values : List (Anchor × Computed)
  /-- How many of them were written. -/
  applied : Nat

namespace Snapshot

def get? (snapshot : Snapshot) (anchor : Anchor) : Option Computed :=
  snapshot.values.lookup anchor

/-- The value of the anchor that is printed so. -/
def getByName? (snapshot : Snapshot) (name : String) : Option Computed :=
  (snapshot.values.find? fun (anchor, _) => anchor.text = name).map Prod.snd

def size (snapshot : Snapshot) : Nat := snapshot.values.length

end Snapshot

/-- The property that hides an element. -/
def displayProperty : String := "style.display"

namespace Binding

variable {κ : Type}

/-- The node that a binding of the instance at `root` writes to. -/
def node? (binding : Binding) (doc : Document) (root : NodeId) : Option NodeId :=
  match binding.target with
  | .root => some root
  | .anchor slot => doc.anchor? root slot

/-- Writes a computed value to a node. -/
def write (host : Host κ) (id : NodeId) (computed : Computed) (action : Action) (s : Stage κ) :
    Stage κ :=
  match action with
  | .setText _ => s.edit (·.setText id computed.text)
  | .replaceClass _ => s.edit (·.setAttribute id "class" computed.text)
  | .setAttribute name _ => s.edit (·.setAttribute id name computed.text)
  | .setEventData event _ => s.edit (·.setHandlerData id event computed.toArgs)
  | .applyDirective _ directive _ =>
    match computed.asValue? with
    | none => s
    | some v =>
      match directive with
      | .toggle =>
        s.edit (·.setProperty id displayProperty (.string (if v.isTruthy then "" else "none")))
      | .host name => host.apply name id v s

/-- Brings a computed value into the document. -/
def applyTo (host : Host κ) (root : NodeId) (binding : Binding) (computed : Computed) :
    Eval (Stage κ) Unit := fun s =>
  match binding.node? s.document root with
  | none => .error (.detachedAnchor binding.anchor.text root) s
  | some id => .ok () (write host id computed binding.action s)

/-- Whether a value is the one of the last pass. -/
def isUnchanged (previous : Option Snapshot) (binding : Binding) (computed : Computed) : Bool :=
  match previous.bind (·.get? binding.anchor) with
  | some old => old.identical computed
  | none => false

end Binding

namespace Template

variable {κ : Type}

/-- Computes bindings in order. -/
def computeAll (host : Host κ) (env : String → Value) :
    List Binding → Eval (Stage κ) (List (Binding × Computed))
  | [] => return []
  | binding :: rest => do
    let computed ← binding.compute host.calls env
    let more ← computeAll host env rest
    return (binding, computed) :: more

/-- Writes the values that changed, in order, and counts them. -/
def applyAll (host : Host κ) (root : NodeId) (previous : Option Snapshot) :
    List (Binding × Computed) → Eval (Stage κ) Nat
  | [] => return 0
  | (binding, computed) :: rest => do
    if binding.isUnchanged previous computed then applyAll host root previous rest
    else
      binding.applyTo host root computed
      let applied ← applyAll host root previous rest
      return applied + 1

/-- One pass for the instance at `root`. A snapshot of another template is refused. Without one,
every binding is written. -/
def update (host : Host κ) (t : Template) (scope : Scope) (root : NodeId)
    (previous : Option Snapshot) : Eval (Stage κ) Snapshot := do
  if previous.any (·.template ≠ t.id) then throw .foreignSnapshot
  let locals := scope.narrow t.vars
  let computed ← computeAll host locals.read t.bindings
  let applied ← applyAll host root previous computed
  return ⟨t.id, computed.map fun (binding, value) => (binding.anchor, value), applied⟩

end Template
end LiveTemplate
