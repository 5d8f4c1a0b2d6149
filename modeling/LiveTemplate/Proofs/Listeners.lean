import LiveTemplate.Proofs.Operations
import LiveTemplate.Template.Build

/-!
# LiveTemplate.Proofs.Listeners

The listeners at the root of a document. Operations on nodes leave them alone; making the document
hear the events of a template adds at most the one delegating listener for each of them.
-/

namespace LiveTemplate
namespace Document

/-- Everything that says who hears what. -/
def hearing (doc : Document) : Table (List Listener) × NameSet := (doc.listeners, doc.listening)

theorem hearing_setAttribute (doc : Document) (id : NodeId) (name value : String) :
    (doc.setAttribute id name value).hearing = doc.hearing := by
  unfold setAttribute; split <;> rfl

theorem hearing_removeAttribute (doc : Document) (id : NodeId) (name : String) :
    (doc.removeAttribute id name).hearing = doc.hearing := by
  unfold removeAttribute; split <;> rfl

theorem hearing_setProperty (doc : Document) (id : NodeId) (name : String) (value : Value) :
    (doc.setProperty id name value).hearing = doc.hearing := by
  unfold setProperty; split <;> rfl

theorem hearing_setText (doc : Document) (id : NodeId) (content : String) :
    (doc.setText id content).hearing = doc.hearing := by
  unfold setText; split <;> rfl

theorem hearing_setHandler (doc : Document) (id : NodeId) (event : String) (f : Function) :
    (doc.setHandler id event f).hearing = doc.hearing := by
  unfold setHandler; split <;> rfl

theorem hearing_setHandlerData (doc : Document) (id : NodeId) (event : String)
    (args : List Value) : (doc.setHandlerData id event args).hearing = doc.hearing := by
  unfold setHandlerData; split <;> rfl

theorem hearing_detach (doc : Document) (id : NodeId) : (doc.detach id).hearing = doc.hearing := by
  unfold detach; split <;> rfl

theorem hearing_appendChild (doc : Document) (parent child : NodeId) :
    (doc.appendChild parent child).hearing = doc.hearing := by
  unfold appendChild
  split
  · exact hearing_detach doc child
  · rfl

theorem hearing_replaceNode (doc : Document) (old new : NodeId) :
    (doc.replaceNode old new).hearing = doc.hearing := by
  unfold replaceNode
  split
  · rfl
  · split
    · rfl
    · exact hearing_detach doc new

theorem hearing_release (doc : Document) (id : NodeId) :
    (doc.release id).2.hearing = doc.hearing := by
  unfold release
  split
  · exact hearing_detach doc id
  · rfl

/-! ## The delegating listener -/

/-- An event has the delegating listener and no other, or none at all. -/
def Heard (doc : Document) : Prop :=
  ∀ event, doc.listenersOf event = if event ∈ doc.listening then [.delegate] else []

theorem Heard.of_hearing {doc doc' : Document} (h : doc.Heard) (same : doc'.hearing = doc.hearing) :
    doc'.Heard := by
  obtain ⟨listeners, listening⟩ := Prod.mk.inj same
  intro event
  unfold listenersOf
  rw [listeners, listening]
  exact h event

theorem isListening_iff {doc : Document} {event : String} :
    doc.isListening event = true ↔ event ∈ doc.listening := List.contains_iff_mem

theorem mem_listening_ensureListening (doc : Document) (event other : String) :
    other ∈ (doc.ensureListening event).2.listening ↔ other = event ∨ other ∈ doc.listening := by
  unfold ensureListening
  split
  · rename_i there
    have mem := isListening_iff.mp there
    exact ⟨.inr, fun h => h.elim (fun same => same ▸ mem) id⟩
  · exact NameSet.mem_insert event other doc.listening

theorem Heard.ensureListening {doc : Document} (h : doc.Heard) (event : String) :
    (doc.ensureListening event).2.Heard := by
  by_cases there : doc.isListening event = true
  · unfold Document.ensureListening
    rw [if_pos there]
    exact h
  · intro other
    have added := mem_listening_ensureListening doc event other
    have absent : doc.listenersOf event = [] := by
      rw [h event, if_neg (fun mem => there (isListening_iff.mpr mem))]
    have listeners : (doc.ensureListening event).2.listenersOf other =
        ((doc.listeners.insert event [.delegate]).lookup other).getD [] := by
      unfold Document.ensureListening
      rw [if_neg there]
      change ((doc.listeners.insert event (doc.listenersOf event ++ [.delegate])).lookup other).getD
        [] = _
      rw [absent, List.nil_append]
    rw [listeners]
    by_cases same : other = event
    · subst same
      rw [Table.lookup_insert_self, if_pos (added.mpr (.inl rfl))]
      rfl
    · rw [Table.lookup_insert_of_ne same]
      have heard := h other
      unfold listenersOf at heard
      rw [heard]
      exact if_congr ⟨fun mem => added.mpr (.inr mem), fun mem => (added.mp mem).resolve_left same⟩
        rfl rfl

theorem nodes_ensureListening (doc : Document) (event : String) :
    (doc.ensureListening event).2.nodes = doc.nodes := by
  unfold ensureListening; split <;> rfl

end Document

namespace Template

theorem listen_induct {P : Document → Prop} (t : Template) {doc : Document} (start : P doc)
    (step : ∀ doc event, event ∈ t.events → P doc → P (doc.ensureListening event).2) :
    P (t.listen doc) := by
  unfold listen
  suffices gen : ∀ events : List String, (∀ e ∈ events, e ∈ t.events) → ∀ doc, P doc →
      P (events.foldl (fun doc event => (doc.ensureListening event).2) doc) from
    gen t.events (fun _ h => h) doc start
  intro events
  induction events with
  | nil => exact fun _ doc h => h
  | cons event rest ih =>
    intro sub doc h
    exact ih (fun e he => sub e (List.mem_cons_of_mem _ he)) _
      (step doc event (sub event List.mem_cons_self) h)

theorem nodes_listen (t : Template) (doc : Document) : (t.listen doc).nodes = doc.nodes :=
  t.listen_induct (P := fun d => d.nodes = doc.nodes) rfl fun d event _ h =>
    (d.nodes_ensureListening event).trans h

theorem heard_listen (t : Template) {doc : Document} (h : doc.Heard) : (t.listen doc).Heard :=
  t.listen_induct h fun _ event _ heard => heard.ensureListening event

theorem mem_listening_listen (t : Template) (doc : Document) (e : String) :
    e ∈ (t.listen doc).listening ↔ e ∈ t.events ∨ e ∈ doc.listening := by
  unfold listen
  induction t.events generalizing doc with
  | nil => simp
  | cons event rest ih =>
    rw [List.foldl_cons, ih, Document.mem_listening_ensureListening, List.mem_cons, or_left_comm,
      or_assoc]

end Template
end LiveTemplate
