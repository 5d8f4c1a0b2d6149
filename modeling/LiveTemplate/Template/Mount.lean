import LiveTemplate.Template.Build
import LiveTemplate.Template.Update

/-!
# LiveTemplate.Template.Mount

Live subtrees: instances of templates with what is mounted at their extension points. Creating one
builds its nodes and runs a first update; updating one goes through its own bindings first and
then through its extension points. A condition that changes swaps the nodes mounted for it.
-/

namespace LiveTemplate

/-- The live side of a subtree, to be read together with the subtree it was made from. -/
inductive Mount where
  | template (root : NodeId) (snapshot : Option Snapshot) (children : List Mount)
  /-- `node` stands in the document: the mounted body, or a comment while nothing is shown. -/
  | conditional (node : NodeId) (body : Option Mount)

/-- The node that stands for a live subtree. -/
def Mount.node : Mount → NodeId
  | .template root _ _ => root
  | .conditional node _ => node

variable {κ : Type}

/-- Runs a construction on the stage's document. -/
def Construction.onStage {α : Type} (construction : Construction α) :
    Eval (Stage κ) (α × Site) := fun s =>
  match construction { document := s.document } with
  | .ok a site => .ok (a, site) { s with document := site.document }
  | .error e site => .error e { s with document := site.document }

/-- Puts `new` where `old` stands and frees `old`. -/
def swapNodes (old new : NodeId) (doc : Document) : Document :=
  ((doc.replaceNode old new).release old).2

/-- Makes the comment that stands where a condition shows nothing. -/
def makeHidden (s : Stage κ) : NodeId × Stage κ :=
  let (id, document) := s.document.createComment "v-if"
  (id, { s with document })

/-- Whether a condition holds; an error in it names the directive. -/
def Condition.check (host : Host κ) (scope : Scope) (condition : Condition) :
    Eval (Stage κ) Bool := fun s =>
  match condition.holds host.calls scope s with
  | .ok b s => .ok b s
  | .error e s => .error (.directive Condition.directiveName e) s

/-- What an update leaves behind: the live side, also when it stopped at an error. -/
structure Updated (α : Type) where
  live : α
  error : Option EvalError := none

mutual

/-- Makes a subtree live. -/
def Subtree.create (host : Host κ) (scope : Scope) : Subtree → Eval (Stage κ) Mount
  | .template t => t.createMount host scope
  | .conditional condition body => do
    if ← condition.check host scope then
      let mounted ← body.create host scope
      return .conditional mounted.node (some mounted)
    else
      return .conditional (← modifyGet makeHidden) none

/-- Makes an instance of a template: its nodes, what is mounted in them, and a first update. -/
def Template.createMount (host : Host κ) (scope : Scope) : Template → Eval (Stage κ) Mount
  | t@⟨_, _, _, _, extensions, _, _⟩ => do
    let (root, site) ← (t.buildPlan scope).onStage
    let children ← Extension.createAll host scope site.placeholders 0 extensions
    let snapshot ← t.update host scope root none
    let updated ← modifyGet (Extension.updateAll host scope extensions children)
    match updated.error with
    | some e => throw e
    | none => return .template root (some snapshot) updated.live

/-- Mounts extension points in order, each in place of its placeholder. -/
def Extension.createAll (host : Host κ) (scope : Scope) (placeholders : List (Nat × NodeId))
    (index : Nat) : List Extension → Eval (Stage κ) (List Mount)
  | [] => return []
  | ⟨_, _, subtree⟩ :: rest => do
    let mounted ← subtree.create host scope
    match placeholders.lookup index with
    | some placeholder => modify (·.edit (swapNodes placeholder mounted.node))
    | none => pure ()
    let more ← Extension.createAll host scope placeholders (index + 1) rest
    return mounted :: more

/-- Updates a live subtree. -/
def Subtree.update (host : Host κ) (scope : Scope) :
    Subtree → Mount → Stage κ → Updated Mount × Stage κ
  | .template t, mount, s => t.updateMount host scope mount s
  | .conditional condition body, .conditional node mounted, s =>
    match condition.check host scope s, mounted with
    | .error e s, _ => (⟨.conditional node mounted, some e⟩, s)
    | .ok true s, some live =>
      let (updated, s) := body.update host scope live s
      (⟨.conditional node (some updated.live), updated.error⟩, s)
    | .ok true s, none =>
      match body.create host scope s with
      | .error e s => (⟨.conditional node none, some e⟩, s)
      | .ok live s =>
        (⟨.conditional live.node (some live), none⟩, s.edit (swapNodes node live.node))
    | .ok false s, some _ =>
      let (hidden, s) := makeHidden s
      (⟨.conditional hidden none, none⟩, s.edit (swapNodes node hidden))
    | .ok false s, none => (⟨.conditional node none, none⟩, s)
  | .conditional _ _, mount, s => (⟨mount, none⟩, s)

/-- Updates an instance: its own bindings, then its extension points. -/
def Template.updateMount (host : Host κ) (scope : Scope) :
    Template → Mount → Stage κ → Updated Mount × Stage κ
  | t@⟨_, _, _, _, extensions, _, _⟩, .template root snapshot children, s =>
    match t.update host scope root snapshot s with
    | .error e s => (⟨.template root snapshot children, some e⟩, s)
    | .ok next s =>
      let (updated, s) := Extension.updateAll host scope extensions children s
      (⟨.template root (some next) updated.live, updated.error⟩, s)
  | _, mount, s => (⟨mount, none⟩, s)

/-- Updates extension points in order, up to the first error. -/
def Extension.updateAll (host : Host κ) (scope : Scope) :
    List Extension → List Mount → Stage κ → Updated (List Mount) × Stage κ
  | ⟨_, _, subtree⟩ :: rest, mount :: mounts, s =>
    match subtree.update host scope mount s with
    | (⟨live, some e⟩, s) => (⟨live :: mounts, some e⟩, s)
    | (⟨live, none⟩, s) =>
      let (updated, s) := Extension.updateAll host scope rest mounts s
      (⟨live :: updated.live, updated.error⟩, s)
  | _, mounts, s => (⟨mounts, none⟩, s)

end

end LiveTemplate
