import LiveTemplate.Document.Tree

/-!
# LiveTemplate.Document.Events

Where events go. Nodes have handlers but no listeners of their own: one listener at the root for
each event name passes the event to the nearest handler at or above its target.
-/

namespace LiveTemplate

structure Event where
  name : String
  target : NodeId
  deriving DecidableEq, Repr

namespace Document

def listenersOf (doc : Document) (event : String) : List Listener :=
  (doc.listeners.lookup event).getD []

def addListener (doc : Document) (event : String) (listener : Listener) : Document :=
  { doc with listeners := doc.listeners.insert event (doc.listenersOf event ++ [listener]) }

def isListening (doc : Document) (event : String) : Bool := doc.listening.contains event

/-- Adds the delegating listener for an event, once. Tells whether it was added. -/
def ensureListening (doc : Document) (event : String) : Bool × Document :=
  if doc.isListening event then (false, doc)
  else
    let doc := { doc with listening := doc.listening.insert event }
    (true, doc.addListener event .delegate)

/-- The first node with a handler for the event, from `origin` upwards. -/
def findHandler? (doc : Document) (origin : NodeId) (event : String) : Option NodeId :=
  (doc.climb doc.walkBound (some origin)).find? (doc.hasHandler · event)

end Document
end LiveTemplate
