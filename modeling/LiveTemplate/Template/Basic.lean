import LiveTemplate.Template.Binding
import LiveTemplate.Template.Condition

/-!
# LiveTemplate.Template.Basic

Compiled templates. A template is a plan for the nodes that never change, bindings for what
follows the scope, and extension points where other subtrees are mounted.
-/

namespace LiveTemplate

/-- A handler that is looked up by name when the element is built. -/
structure Wiring where
  event : String
  handler : String
  deriving DecidableEq, Repr

/-- The nodes to build. Some are anchors of bindings, some stand in for an extension point. -/
inductive Plan where
  | element (tag : String) (attributes : List (String × String)) (handlers : List Wiring)
      (children : List Plan) (anchor : Option Nat)
  | text (content : String) (anchor : Option Nat)
  | comment (content : String)
  | placeholder (extension : Nat)

/-- Two templates are the same when their ids are. -/
abbrev TemplateId := Nat

mutual

structure Template where
  id : TemplateId
  plan : Plan
  bindings : List Binding
  /-- The nodes that bindings write to, apart from the root. -/
  anchors : List Path
  extensions : List Extension
  events : NameSet
  /-- The names of the functions that are wired as handlers. -/
  handlers : NameSet

/-- A place that another subtree takes over. The name is that of a component or a directive. -/
structure Extension where
  path : Path
  name : String
  subtree : Subtree

/-- What can be mounted at an extension point. -/
inductive Subtree where
  | template (t : Template)
  /-- Mounted while the condition holds. -/
  | conditional (condition : Condition) (body : Subtree)

end

namespace Template

/-- The names that the bindings read. -/
def vars (t : Template) : NameSet :=
  NameSet.ofNames (t.bindings.flatMap Binding.vars)

/-- How many bindings apply a directive. -/
def directiveCount (t : Template) : Nat :=
  t.bindings.countP fun b =>
    match b.action with
    | .applyDirective _ _ _ => true
    | _ => false

end Template

/-! ## Registry -/

/-- A directive that takes an element over. -/
inductive StructuralDirective where
  /-- Shows the element on a condition. -/
  | conditional
  /-- Mounts a template in place of the element. -/
  | template (t : Template)

inductive Directive where
  | structural (d : StructuralDirective)
  | onElement (d : AttributeDirective)

/-- Directives by name and components by tag. -/
structure Registry where
  directives : Table Directive := []
  components : Table Template := []

namespace Registry

def empty : Registry := {}

/-- The registry with the directives `if` and `show`. -/
def standard : Registry where
  directives := Table.ofEntries
    [(Condition.directiveName, .structural .conditional), ("show", .onElement .toggle)]

def registerDirective (registry : Registry) (name : String) (directive : Directive) : Registry :=
  { registry with directives := registry.directives.insert name directive }

def registerComponent (registry : Registry) (tag : String) (t : Template) : Registry :=
  { registry with components := registry.components.insert tag t }

def directive? (registry : Registry) (name : String) : Option Directive :=
  registry.directives.lookup name

def component? (registry : Registry) (tag : String) : Option Template :=
  registry.components.lookup tag

end Registry

/-- Tags that name a component: with a hyphen, or a capital in front. -/
def isComponentTag (tag : String) : Bool :=
  tag.toList.contains '-' || (match tag.toList with | c :: _ => c.isUpper | [] => false)

end LiveTemplate
