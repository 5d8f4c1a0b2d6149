import LiveTemplate.Interpolation

/-!
# LiveTemplate.Template.Binding

Bindings: the places of a template whose content follows the scope. A binding says which node it
writes to, what it computes, and what it does with the result.
-/

namespace LiveTemplate

/-- A directive that acts on the element it stands on. -/
inductive AttributeDirective where
  /-- Hides the element while its value is falsy. -/
  | toggle
  /-- Belongs to the host. -/
  | host (name : String)
  deriving DecidableEq, Repr

/-- How a binding's node is reached from the root of an instance. -/
inductive Target where
  | root
  /-- By its place among the anchors kept on the root. -/
  | anchor (slot : Nat)
  deriving DecidableEq, Repr

/-- What a binding computes and does. -/
inductive Action where
  | setText (content : Interpolation)
  | replaceClass (content : Interpolation)
  | setAttribute (name : String) (content : Interpolation)
  | setEventData (event : String) (args : List Expr)
  | applyDirective (name : String) (directive : AttributeDirective) (e : Expr)

structure Binding where
  path : Path
  target : Target
  action : Action
  /-- The expression as the template has it. -/
  source : String

/-- What a binding's expressions come to. -/
inductive Computed where
  | value (v : Value)
  | args (vs : List Value)

def Target.text : Target → String
  | .root => "root"
  | .anchor slot => s!"ref[{slot}]"

namespace Action

/-- The name for the kind of binding. -/
def kind : Action → String
  | .setText _ => "text"
  | .replaceClass _ => "class"
  | .setAttribute _ _ => "attribute"
  | .setEventData _ _ => "event-args"
  | .applyDirective _ _ _ => "directive"

def text : Action → String
  | .setText _ => "set text"
  | .replaceClass _ => "replace class"
  | .setAttribute name _ => s!"set attribute `{name}`"
  | .setEventData event _ => s!"set `{event}` data"
  | .applyDirective name _ _ => s!"apply v-{name}"

def facet : Action → Facet
  | .setText _ => .text
  | .replaceClass _ => .attribute "class"
  | .setAttribute name _ => .attribute name
  | .setEventData event _ => .event event
  | .applyDirective name _ _ => .directive name

/-- The names that are read to compute the value. -/
def vars : Action → NameSet
  | .setText content | .replaceClass content | .setAttribute _ content => content.vars
  | .setEventData _ args => NameSet.ofNames (Expr.namesOfAll args)
  | .applyDirective _ _ e => e.vars

def compute {σ : Type} (calls : Calls σ) (env : String → Value) : Action → Eval σ Computed
  | .setText content | .replaceClass content | .setAttribute _ content => do
    let v ← content.eval calls env
    return .value v
  | .setEventData _ args => do
    let vs ← Expr.evalAll calls env args
    return .args vs
  | .applyDirective _ _ e => do
    let v ← e.eval calls env
    return .value v

end Action

namespace Binding

def anchor (binding : Binding) : Anchor := ⟨binding.path, binding.action.facet⟩

def vars (binding : Binding) : NameSet := binding.action.vars

def reads (binding : Binding) (name : String) : Bool := binding.vars.contains name

/-- Computes the value of a binding; an error in a directive's expression names the directive. -/
def compute {σ : Type} (calls : Calls σ) (env : String → Value) (binding : Binding) :
    Eval σ Computed :=
  match binding.action with
  | .applyDirective name _ _ => fun s =>
    match binding.action.compute calls env s with
    | .ok v s => .ok v s
    | .error e s => .error (.directive name e) s
  | action => action.compute calls env

end Binding

namespace Computed

/-- Argument lists are identical when they are so item by item. -/
def identical : Computed → Computed → Bool
  | .value a, .value b => a.identical b
  | .args as, .args bs =>
    as.length == bs.length && (as.zip bs).all fun (a, b) => a.identical b
  | _, _ => false

/-- Equality of content. -/
def alike : Computed → Computed → Bool
  | .value a, .value b => a.alike b
  | .args as, .args bs => Value.itemsAlike as bs
  | _, _ => false

def asValue? : Computed → Option Value
  | .value v => some v
  | .args _ => none

/-- As the arguments of a handler. -/
def toArgs : Computed → List Value
  | .value v => [v]
  | .args vs => vs

def text : Computed → String
  | .value v => v.text
  | .args vs => "(" ++ ", ".intercalate (vs.map Value.text) ++ ")"

end Computed
end LiveTemplate
