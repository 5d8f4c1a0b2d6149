import LiveTemplate.Document.Mutation

/-!
# LiveTemplate.Document.Basic

A document: live nodes, a journal of the changes made to them, and the listeners at its root. This
file has the nodes themselves with their attributes, properties and text.

An operation on an id that names no live node does nothing and leaves no trace in the journal.
-/

namespace LiveTemplate

/-- What a node is. Attributes keep the order in which they were first set. -/
inductive Content where
  | element (tag : String) (attributes : List (String × String)) (properties : Table Value)
  | text (content : String)
  | comment (content : String)

/-- A live node with its links, its event handlers and, on the root of a template instance, the
nodes that the template's bindings write to. -/
structure Node where
  content : Content
  parent : Option NodeId := none
  children : List NodeId := []
  handlers : Table Function := []
  handlerData : Table (List Value) := []
  anchors : Option (List NodeId) := none

/-- Hears every event of one name. -/
inductive Listener where
  /-- Passes the event to the nearest handler at or above its target. -/
  | delegate
  /-- Belongs to the host. -/
  | host (name : String)
  deriving DecidableEq, Repr

structure Document where
  nodes : Slots Node := .empty
  /-- Nothing for a document that keeps no journal. -/
  journal : Option (Array Mutation) := none
  listeners : Table (List Listener) := []
  /-- The events for which the delegating listener is there. -/
  listening : NameSet := []

namespace Document

def empty : Document := {}

def withJournal : Document := { journal := some #[] }

def get? (doc : Document) (id : NodeId) : Option Node := doc.nodes.get? id

def contains (doc : Document) (id : NodeId) : Bool := doc.nodes.contains id

/-- How many nodes are live, attached or not. -/
def nodeCount (doc : Document) : Nat := doc.nodes.size

/-- Enters a change into the journal, if there is one. -/
def record (doc : Document) (mutation : Mutation) : Document :=
  { doc with journal := doc.journal.map (·.push mutation) }

def modify (doc : Document) (id : NodeId) (f : Node → Node) : Document :=
  { doc with nodes := doc.nodes.modify id f }

def insert (doc : Document) (content : Content) : NodeId × Document :=
  let (id, nodes) := doc.nodes.insert { content }
  (id, { doc with nodes })

/-! ## Journal -/

def isJournaling (doc : Document) : Bool := doc.journal.isSome

/-- The changes since the journal was last taken. -/
def entries (doc : Document) : List Mutation := (doc.journal.map Array.toList).getD []

/-- Empties the journal. -/
def takeJournal (doc : Document) : List Mutation × Document :=
  (doc.entries, { doc with journal := doc.journal.map fun _ => #[] })

/-- One line on the size of the document and of its journal. -/
def summary (doc : Document) : String :=
  let journal :=
    match doc.journal with
    | some entries => s!"Some({entries.size})"
    | none => "None"
  s!"Document \x7b nodes: {doc.nodeCount}, journal: {journal} \x7d"

/-! ## Creation -/

def createElement (doc : Document) (tag : String) : NodeId × Document :=
  let (id, doc) := doc.insert (.element tag [] [])
  (id, doc.record (.createElement id tag))

def createText (doc : Document) (content : String) : NodeId × Document :=
  let (id, doc) := doc.insert (.text content)
  (id, doc.record (.createText id content))

def createComment (doc : Document) (content : String) : NodeId × Document :=
  let (id, doc) := doc.insert (.comment content)
  (id, doc.record (.createComment id))

/-! ## Attributes, properties and text -/

/-- Sets an entry in place, or adds it at the end. -/
def setEntry (name value : String) : List (String × String) → List (String × String)
  | [] => [(name, value)]
  | (other, held) :: rest =>
    if other = name then (name, value) :: rest else (other, held) :: setEntry name value rest

def setAttribute (doc : Document) (id : NodeId) (name value : String) : Document :=
  match doc.get? id with
  | some { content := .element tag attributes properties, .. } =>
    let content := Content.element tag (setEntry name value attributes) properties
    (doc.modify id ({ · with content })).record (.setAttribute id name value)
  | _ => doc

def removeAttribute (doc : Document) (id : NodeId) (name : String) : Document :=
  match doc.get? id with
  | some { content := .element tag attributes properties, .. } =>
    let content := Content.element tag (attributes.filter (·.1 ≠ name)) properties
    (doc.modify id ({ · with content })).record (.removeAttribute id name)
  | _ => doc

def attributes (doc : Document) (id : NodeId) : List (String × String) :=
  match doc.get? id with
  | some { content := .element _ attributes _, .. } => attributes
  | _ => []

def attribute? (doc : Document) (id : NodeId) (name : String) : Option String :=
  (doc.attributes id).lookup name

def setProperty (doc : Document) (id : NodeId) (name : String) (value : Value) : Document :=
  match doc.get? id with
  | some { content := .element tag attributes properties, .. } =>
    let content := Content.element tag attributes (properties.insert name value)
    (doc.modify id ({ · with content })).record (.setProperty id name value)
  | _ => doc

def property (doc : Document) (id : NodeId) (name : String) : Value :=
  match doc.get? id with
  | some { content := .element _ _ properties, .. } => (properties.lookup name).getD .undefined
  | _ => .undefined

/-- Replaces the content of a text or a comment. -/
def setText (doc : Document) (id : NodeId) (content : String) : Document :=
  match doc.get? id with
  | some { content := .text _, .. } =>
    (doc.modify id ({ · with content := .text content })).record (.setText id content)
  | some { content := .comment _, .. } =>
    (doc.modify id ({ · with content := .comment content })).record (.setText id content)
  | _ => doc

def content? (doc : Document) (id : NodeId) : Option Content := (doc.get? id).map Node.content

def tag? (doc : Document) (id : NodeId) : Option String :=
  match doc.content? id with
  | some (.element tag _ _) => some tag
  | _ => none

/-- More steps than any path through the links of a document without cycles can have. -/
def walkBound (doc : Document) : Nat := doc.nodes.slots.size + 1

/-- The texts below a node, in order; comments are left out. -/
def collectText (doc : Document) : Nat → NodeId → String
  | 0, _ => ""
  | n + 1, id =>
    match doc.get? id with
    | some { content := .text content, .. } => content
    | some { content := .element _ _ _, children, .. } =>
      String.join (children.map (doc.collectText n))
    | _ => ""

/-- The content of a text or a comment, or all text below an element. -/
def text (doc : Document) (id : NodeId) : String :=
  match doc.content? id with
  | some (.comment content) => content
  | _ => doc.collectText doc.walkBound id

/-! ## Handlers and anchors -/

def setHandler (doc : Document) (id : NodeId) (event : String) (f : Function) : Document :=
  if doc.contains id then
    (doc.modify id fun node => { node with handlers := node.handlers.insert event f }).record
      (.setHandler id event)
  else doc

def handler? (doc : Document) (id : NodeId) (event : String) : Option Function :=
  (doc.get? id).bind (·.handlers.lookup event)

def hasHandler (doc : Document) (id : NodeId) (event : String) : Bool :=
  (doc.handler? id event).isSome

/-- Stores the arguments with which the handler of an event is called. -/
def setHandlerData (doc : Document) (id : NodeId) (event : String) (args : List Value) :
    Document :=
  if doc.contains id then
    (doc.modify id fun node =>
      { node with handlerData := node.handlerData.insert event args }).record
        (.setHandlerData id event args)
  else doc

def handlerData? (doc : Document) (id : NodeId) (event : String) : Option (List Value) :=
  (doc.get? id).bind (·.handlerData.lookup event)

/-- Stores the nodes that the bindings of the instance at this root write to. The journal does not
show it. -/
def setAnchors (doc : Document) (root : NodeId) (anchors : List NodeId) : Document :=
  doc.modify root ({ · with anchors := some anchors })

def anchors? (doc : Document) (root : NodeId) : Option (List NodeId) :=
  (doc.get? root).bind Node.anchors

def anchor? (doc : Document) (root : NodeId) (slot : Nat) : Option NodeId :=
  (doc.anchors? root).bind (·[slot]?)

end Document
end LiveTemplate
