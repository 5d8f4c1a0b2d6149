import LiveTemplate.Template.Mount

/-!
# LiveTemplate.Template.Instance

Live instances of a template.
-/

namespace LiveTemplate

variable {κ : Type}

/-- An instance of a template: its root in the document, what its bindings came to in the last
pass, and what is mounted at its extension points. -/
structure Instance where
  template : Template
  root : NodeId
  snapshot : Option Snapshot
  children : List Mount

namespace Template

/-- Builds the nodes of a template and mounts its extension points, without a first update. -/
def create (host : Host κ) (t : Template) (scope : Scope) :
    Eval (Stage κ) (NodeId × List Mount) := do
  let (root, site) ← (t.buildPlan scope).onStage
  let children ← Extension.createAll host scope site.placeholders 0 t.extensions
  return (root, children)

end Template

namespace Instance

/-- The live side of an instance, apart from its template. -/
def toMount (i : Instance) : Mount := .template i.root i.snapshot i.children

def ofMount (t : Template) : Mount → Instance
  | .template root snapshot children => ⟨t, root, snapshot, children⟩
  | .conditional node _ => ⟨t, node, none, []⟩

/-- How many bindings the last pass wrote. -/
def applied (i : Instance) : Nat := (i.snapshot.map Snapshot.applied).getD 0

/-- Writes what changed, then passes the scope on to the extension points. -/
def update (host : Host κ) (i : Instance) (scope : Scope) (s : Stage κ) :
    Updated Instance × Stage κ :=
  let (updated, s) := i.template.updateMount host scope i.toMount s
  (⟨ofMount i.template updated.live, updated.error⟩, s)

end Instance

namespace Template

/-- Makes an instance and runs its first update. -/
def createInstance (host : Host κ) (t : Template) (scope : Scope) :
    Eval (Stage κ) Instance := do
  let mount ← t.createMount host scope
  return Instance.ofMount t mount

end Template
end LiveTemplate
