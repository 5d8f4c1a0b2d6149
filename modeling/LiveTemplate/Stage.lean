import LiveTemplate.Document.Events
import LiveTemplate.Document.Markup
import LiveTemplate.Expr.Eval

/-!
# LiveTemplate.Stage

What running code works on: a document, a supply of references, and whatever the host keeps for
itself. The host's functions, listeners and directives get all of it and may change all of it,
also in the middle of an update.
-/

namespace LiveTemplate

structure Stage (κ : Type) where
  document : Document
  nextRef : Ref := 0
  host : κ

/-- The host's side: what its functions, root listeners and attribute directives do. -/
structure Host (κ : Type) where
  call : Function → List Value → Stage κ → Value × Stage κ
  hear : String → Event → Stage κ → Stage κ
  apply : String → NodeId → Value → Stage κ → Stage κ

namespace Stage

variable {κ : Type}

def fresh (s : Stage κ) : Ref × Stage κ := (s.nextRef, { s with nextRef := s.nextRef + 1 })

/-- Changes the document. -/
def edit (f : Document → Document) (s : Stage κ) : Stage κ :=
  { s with document := f s.document }

end Stage

namespace Host

variable {κ : Type}

def calls (host : Host κ) : Calls (Stage κ) := ⟨host.call, Stage.fresh⟩

/-! ## Events -/

/-- Calls the nearest handler at or above `origin` with the arguments stored beside it, and gives
the node that has it. Without a handler nothing happens. -/
def dispatch (host : Host κ) (origin : NodeId) (event : String) (s : Stage κ) :
    Option NodeId × Stage κ :=
  match s.document.findHandler? origin event with
  | none => (none, s)
  | some id =>
    match s.document.handler? id event with
    | none => (none, s)
    | some f =>
      let args := (s.document.handlerData? id event).getD []
      (some id, (host.call f args s).2)

/-- Passes an event to one listener. -/
def notify (host : Host κ) (event : Event) (listener : Listener) (s : Stage κ) : Stage κ :=
  match listener with
  | .delegate => (host.dispatch event.target event.name s).2
  | .host name => host.hear name event s

/-- Passes an event to every listener that is there when it arrives, and counts them. -/
def fire (host : Host κ) (target : NodeId) (event : String) (s : Stage κ) : Nat × Stage κ :=
  let listeners := s.document.listenersOf event
  (listeners.length,
    listeners.foldl (fun s listener => host.notify ⟨event, target⟩ listener s) s)

end Host
end LiveTemplate
