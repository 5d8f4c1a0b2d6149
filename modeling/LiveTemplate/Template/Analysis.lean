import LiveTemplate.Markup.Reader
import LiveTemplate.Template.Basic

/-!
# LiveTemplate.Template.Analysis

Compiling markup. One walk over the tree sorts every attribute and every text into what is fixed
and goes into the plan, and what follows the scope and becomes a binding. Elements with a
structural directive, and then component tags, become extension points and are not entered.
-/

namespace LiveTemplate

/-! ## Attribute names and values -/

/-- The name of the directive that an attribute applies. -/
def directiveName? (name : String) : Option String :=
  (Text.dropPrefix? ['v', '-'] name.toList).map String.ofList

/-- The event that an attribute handles, in lower case. -/
def eventName? (name : String) : Option String :=
  match Text.dropPrefix? ['o', 'n'] (name.toList.map Char.toLower) with
  | none | some [] => none
  | some event =>
    if event.all fun c => c.isAlphanum || c = '-' then some (String.ofList event) else none

/-- The text behind an opening parenthesis up to the one that closes it, and what follows. Quoted
text does not count. -/
def closeParen? (depth : Nat) (quote : Option Char) (escaped : Bool) :
    List Char → Option (List Char × List Char)
  | [] => none
  | c :: rest =>
    let keep (inner : Option (List Char × List Char)) :=
      inner.map fun (inside, after) => (c :: inside, after)
    match quote with
    | some q =>
      if escaped then keep (closeParen? depth quote false rest)
      else if c = '\\' then keep (closeParen? depth quote true rest)
      else if c = q then keep (closeParen? depth none false rest)
      else keep (closeParen? depth quote false rest)
    | none =>
      if c = '\'' || c = '"' then keep (closeParen? depth (some c) false rest)
      else if c = '(' then keep (closeParen? (depth + 1) none false rest)
      else if c = ')' then
        if depth = 0 then some ([], rest) else keep (closeParen? (depth - 1) none false rest)
      else keep (closeParen? depth none false rest)

/-- Splits the call of a handler into its name and the text between the parentheses, if it has
them. -/
def splitHandler (body : List Char) : Except HandlerFault (String × Option (List Char)) := do
  let (name, args) ←
    match Text.breakOn? ['('] body with
    | none => pure (body, none)
    | some (name, rest) =>
      match closeParen? 0 none false rest with
      | none => throw .unbalancedParentheses
      | some (args, after) =>
        if !(Text.trimChars after).isEmpty then throw .trailingText
        pure (name, some args)
  let name := Text.trimChars name
  if !isIdentifier name then throw .missingName
  return (String.ofList name, args)

/-- A handler as an event attribute gives it: its name and, if it has any, its arguments with their
text. -/
structure HandlerCall where
  handler : String
  args : Option (String × List Expr)

/-- Reads the value of an event attribute. Arguments are only allowed inside a span that is the
whole value. -/
def parseHandler (event value : String) : Except CompileError HandlerCall := do
  let split ← splitText value
  let invalid (fault : HandlerFault) : CompileError := .invalidEventHandler event value fault
  let (body, spanned) ←
    match split.first, split.rest with
    | literal, [] => pure (literal, false)
    | [], [(body, [])] => pure (body, true)
    | _, [_] => throw (invalid .surroundingText)
    | _, _ => throw (invalid .severalExpressions)
  match splitHandler (Text.trimChars body) with
  | .error fault => throw (invalid fault)
  | .ok (handler, none) => return ⟨handler, none⟩
  | .ok (handler, some args) =>
    if !spanned then throw (invalid .argumentsOutsideSpan)
    let source := String.ofList args
    match Expr.parseArguments source with
    | .error e => throw (.invalidExpression source e.offset)
    | .ok [] => return ⟨handler, none⟩
    | .ok exprs => return ⟨handler, some (Text.trim source, exprs)⟩

/-- The text between the marks of a span that is the whole value, or the value itself. -/
def unwrapSpan (value : List Char) : List Char :=
  let trimmed := Text.trimChars value
  let between (mark : SpanMark) : Option (List Char) := do
    let rest ← Text.dropPrefix? mark.opening.toList trimmed
    Text.dropSuffix? mark.closing.toList rest
  ((between .dollar).or (between .braces)).getD trimmed

/-- Reads the value of a directive that acts on its element. -/
def parseDirectiveValue (name value : String) : Except CompileError Expr := do
  let source := String.ofList (Text.trimChars (unwrapSpan value.toList))
  if source = "" then throw (.invalidDirective name value .missingExpression)
  parseExpr source

/-! ## The state of an analysis -/

/-- What was found so far, and the id for the next template. -/
structure Draft where
  bindings : List Binding := []
  anchors : List Path := []
  extensions : List Extension := []
  events : NameSet := []
  handlers : NameSet := []
  nextId : TemplateId

abbrev Analysis := StateT Draft (Except CompileError)

namespace Analysis

/-- The place of a node among the anchors. -/
def anchorSlot? (path : Path) : Analysis (Option Nat) := do
  return (← get).anchors.findIdx? (· = path)

/-- How bindings reach a node. A node other than the root becomes an anchor. -/
def targetOf (path : Path) : Analysis Target := do
  if path.isRoot then return .root
  match ← anchorSlot? path with
  | some slot => return .anchor slot
  | none =>
    let slot := (← get).anchors.length
    modify fun draft => { draft with anchors := draft.anchors ++ [path] }
    return .anchor slot

/-- Adds a binding. Each facet of a node can be bound once. -/
def bind (path : Path) (action : Action) (source : String) : Analysis Unit := do
  let anchor : Anchor := ⟨path, action.facet⟩
  if (← get).bindings.any fun b => b.anchor = anchor then throw (.duplicateBinding anchor)
  let target ← targetOf path
  modify fun draft =>
    { draft with bindings := draft.bindings ++ [⟨path, target, action, source⟩] }

/-- Adds what an event attribute asks for, and gives the handler to wire. -/
def addEvent (path : Path) (event value : String) : Analysis Wiring := do
  let call ← parseHandler event value
  modify fun draft =>
    { draft with
      events := draft.events.insert event
      handlers := draft.handlers.insert call.handler }
  match call.args with
  | some (source, args) => bind path (.setEventData event args) source
  | none => pure ()
  return ⟨event, call.handler⟩

/-- Adds what a directive that acts on its element asks for. -/
def addDirective (registry : Registry) (path : Path) (name value : String) :
    Analysis Unit := do
  match registry.directive? name with
  | none => throw (.unknownDirective name)
  | some (.structural _) => pure ()
  | some (.onElement directive) =>
    let e ← parseDirectiveValue name value
    bind path (.applyDirective name directive e) value

/-- Goes through the attributes of an element and gives the fixed ones and the handlers. -/
def attributes (registry : Registry) (path : Path) :
    List (String × String) → List (String × String) → List Wiring →
      Analysis (List (String × String) × List Wiring)
  | [], fixed, handlers => return (fixed, handlers)
  | (name, value) :: rest, fixed, handlers => do
    match directiveName? name with
    | some directive =>
      addDirective registry path directive value
      attributes registry path rest fixed handlers
    | none =>
      match eventName? name with
      | some event =>
        let wiring ← addEvent path event value
        if handlers.any (·.event = event) then
          throw (.duplicateBinding ⟨path, .event event⟩)
        attributes registry path rest fixed (handlers ++ [wiring])
      | none =>
        let content ← Interpolation.parse value
        if content.isStatic then
          attributes registry path rest (fixed ++ [(name, value)]) handlers
        else
          let action :=
            if name = "class" then Action.replaceClass content
            else .setAttribute name content
          bind path action value
          attributes registry path rest fixed handlers

/-- A text: dropped if blank, else fixed or bound. -/
def text (path : Path) (content : String) : Analysis (Option Plan) := do
  if Text.isBlankText content then return none
  let parsed ← Interpolation.parse content
  if parsed.isStatic then return some (.text content none)
  bind path (.setText parsed) content
  return some (.text "" (← anchorSlot? path))

/-- An element that no extension takes over, given the analysis of its children. -/
def plainElement (registry : Registry) (tag : String) (attrs : List (String × String))
    (children : Analysis (List Plan)) (path : Path) : Analysis Plan := do
  let (fixed, handlers) ← attributes registry path attrs [] []
  let anchor ← anchorSlot? path
  let kids ← children
  return .element tag fixed handlers kids anchor

/-! ## Extension points -/

/-- The first structural directive among the attributes, with its attribute. -/
def structural? (registry : Registry) :
    List (String × String) → Option ((String × String) × StructuralDirective)
  | [] => none
  | (name, value) :: rest =>
    match (directiveName? name).bind registry.directive? with
    | some (.structural directive) => some ((name, value), directive)
    | _ => structural? registry rest

/-- The subtree of a component. A component takes neither directives nor handlers. -/
def component (registry : Registry) (tag : String) (attrs : List (String × String)) :
    Except CompileError Subtree :=
  match registry.component? tag with
  | none => .error (.unknownComponent tag)
  | some t =>
    match attrs.find? fun (name, _) =>
        (directiveName? name).isSome || (eventName? name).isSome with
    | some (name, _) => .error (.unsupportedOnComponent tag name)
    | none => .ok (.template t)

/-- Makes the place at `path` an extension point. -/
def mount (path : Path) (name : String) (subtree : Subtree) : Analysis Plan := do
  let index := (← get).extensions.length
  modify fun draft => { draft with extensions := draft.extensions ++ [⟨path, name, subtree⟩] }
  return .placeholder index

/-- The template that a finished analysis amounts to. -/
def template (plan : Plan) (draft : Draft) : Template where
  id := draft.nextId
  plan := plan
  bindings := draft.bindings
  anchors := draft.anchors
  extensions := draft.extensions
  events := draft.events
  handlers := draft.handlers

/-- Compiles a subtree of its own, apart from what was found so far. -/
def isolated (analysis : Analysis Plan) : Analysis Template := do
  let (plan, inner) ← (analysis.run { nextId := (← get).nextId } : Except _ _)
  modify fun draft => { draft with nextId := inner.nextId + 1 }
  return template plan inner

/-- A conditional element, given the analysis of its children as a template of their own. What is
left of the element may be a component but no further extension. -/
def conditional (registry : Registry) (tag : String) (attrs : List (String × String))
    (children : Analysis (List Plan)) (source : String) : Analysis Subtree := do
  let condition ← Condition.parse source
  if isComponentTag tag then
    let body ← component registry tag attrs
    return .conditional condition body
  else
    match structural? registry attrs with
    | some ((name, _), _) => throw (.extensionAtRoot name)
    | none =>
      let body ← isolated (plainElement registry tag attrs children .root)
      return .conditional condition (.template body)

/-- The extension that takes an element over, if there is one. -/
def extension? (registry : Registry) (tag : String) (attrs : List (String × String))
    (children : Analysis (List Plan)) (path : Path) : Analysis (Option Plan) := do
  match structural? registry attrs with
  | some ((name, value), directive) =>
    if path.isRoot then throw (.extensionAtRoot name)
    let subtree ←
      match directive with
      | .template t => pure (.template t)
      | .conditional =>
        conditional registry tag (attrs.filter (·.1 ≠ name)) children value
    return some (← mount path name subtree)
  | none =>
    if isComponentTag tag then
      if path.isRoot then throw (.extensionAtRoot tag)
      let subtree ← component registry tag attrs
      return some (← mount path tag subtree)
    else return none

/-! ## The walk -/

mutual

/-- The plan of a node, nothing for blank text. -/
def node (registry : Registry) : Markup → Path → Analysis (Option Plan)
  | .comment content, _ => return some (.comment content)
  | .text content, path => text path content
  | .element tag attrs children, path => do
    match ← extension? registry tag attrs (nodes registry children .root 0) path with
    | some plan => return some plan
    | none => return some (← plainElement registry tag attrs (nodes registry children path 0) path)

/-- The plans of the children of the node at `path`, from the child at `index` on. -/
def nodes (registry : Registry) : List Markup → Path → Nat → Analysis (List Plan)
  | [], _, _ => return []
  | child :: rest, path, index => do
    let plan ← node registry child (path.child index)
    let plans ← nodes registry rest path (index + 1)
    return plan.toList ++ plans

end

end Analysis

/-- Compiles markup. Ids from `nextId` on are given to the templates made; the next free one is
returned. -/
def Template.compile (registry : Registry) (nextId : TemplateId) (m : Markup) :
    Except CompileError (Template × TemplateId) := do
  let (plan, draft) ← (Analysis.node registry m .root).run { nextId }
  return (Analysis.template (plan.getD (.text "" none)) draft, draft.nextId + 1)

/-- Compiles the source of a template. -/
def Template.ofSource (registry : Registry) (nextId : TemplateId) (source : String) :
    Except CompileError (Template × TemplateId) := do
  let m ← (Markup.parseTemplate source).mapError .markup
  Template.compile registry nextId m

end LiveTemplate
