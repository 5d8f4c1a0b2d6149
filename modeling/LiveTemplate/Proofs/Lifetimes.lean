import LiveTemplate.Proofs.Reach
import LiveTemplate.Proofs.Replay

/-!
# LiveTemplate.Proofs.Lifetimes

How long an id names a node. The version of a slot counts how often the slot was taken and freed,
modulo `2 ^ 32`, so an id is given out once until its slot was freed `2 ^ 31` times. Nothing in an
id tells which document it belongs to.

  * `Slots.Passes`                        what one operation can do to one slot
  * `Document.frees`                      how often a slot was freed
  * `Document.counted_performAll`         the version of a slot says so
  * `Document.perform_of_dead`            operations on dead ids
  * `Document.released_ids_stay_dead`     ids of one document
  * `Document.ignores_foreign_iff`        ids of another document
-/

namespace LiveTemplate

/-! ## Slots -/

namespace Slots

variable {α : Type}

/-- The version of a slot and whether the slot is in use. Nothing for a slot that is not there. -/
def state? (s : Slots α) (i : Nat) : Option (UInt32 × Bool) :=
  s.slots[i]?.map fun slot => (slot.version, slot.content.isSome)

def inUse (s : Slots α) (i : Nat) : Bool := (s.state? i).any Prod.snd

theorem contains_iff_state? {s : Slots α} {id : NodeId} :
    s.contains id = true ↔ s.state? id.index = some (id.version, true) := by
  unfold contains get? state?
  cases s.slots[id.index]? with
  | none => simp
  | some slot =>
    by_cases same : slot.version = id.version
    · simp [same]
    · simp [same]

theorem inUse_iff {s : Slots α} {i : Nat} :
    s.inUse i = true ↔ ∃ version, s.state? i = some (version, true) := by
  unfold inUse
  cases s.state? i with
  | none => simp
  | some state => cases state; simp

@[simp] theorem state?_modify (s : Slots α) (id : NodeId) (f : α → α) (i : Nat) :
    (s.modify id f).state? i = s.state? i := by
  unfold state?
  rw [slots_modify, Option.map_map]
  congr 1
  funext slot
  simp only [Function.comp_apply]
  split <;> simp

theorem state?_erase {s : Slots α} {id : NodeId} (live : s.contains id = true) (i : Nat) :
    (s.erase id).state? i = if id.index = i then some (id.version + 1, false) else s.state? i := by
  obtain ⟨slot, here, same⟩ := Option.map_eq_some_iff.mp (contains_iff_state?.mp live)
  obtain ⟨version, used⟩ := Prod.mk.inj same
  unfold state?
  rw [slots_erase]
  split
  case isTrue same =>
    subst same
    simp [here, used, version]
  case isFalse other =>
    have never (version : UInt32) : ¬id = ⟨i, version⟩ := fun same => other (by rw [same])
    simp [never]

/-- The slot of a new node: a new one, or one that was free. -/
theorem state?_insert {s : Slots α} (h : s.Sound) (a : α) :
    (s.state? (s.insert a).1.index = none ∧ (s.insert a).1.version = 1 ∨
      ∃ version, s.state? (s.insert a).1.index = some (version, false) ∧
        (s.insert a).1.version = version ||| 1) ∧
    ∀ i, (s.insert a).2.state? i =
      if (s.insert a).1.index = i then some ((s.insert a).1.version, true) else s.state? i := by
  unfold insert state?
  split
  case h_1 index rest free =>
    obtain ⟨slot, found, vacant⟩ := h.vacant index (by rw [free]; exact List.mem_cons_self)
    obtain ⟨bound, -⟩ := Array.getElem?_eq_some_iff.mp found
    simp only [found]
    refine ⟨.inr ⟨slot.version, by simp [vacant], rfl⟩, fun i => ?_⟩
    by_cases same : index = i
    · subst same
      simp [bound]
    · simp [same]
  case h_2 =>
    refine ⟨.inl ⟨by simp, rfl⟩, fun i => ?_⟩
    by_cases same : s.slots.size = i
    · subst same
      simp
    · simp [same, Array.getElem?_push, Ne.symm same]

/-- What one operation can do to the slot `i`, when it gives out the id `issued` or none. -/
inductive Passes (issued : Option NodeId) (i : Nat) :
    Option (UInt32 × Bool) → Option (UInt32 × Bool) → Prop
  | stays (state : Option (UInt32 × Bool)) (other : ∀ id ∈ issued, id.index ≠ i) :
      Passes issued i state state
  | made (here : issued = some ⟨i, 1⟩) : Passes issued i none (some (1, true))
  | reused (version : UInt32) (here : issued = some ⟨i, version ||| 1⟩) :
      Passes issued i (some (version, false)) (some (version ||| 1, true))
  | freed (version : UInt32) (none : issued = none) :
      Passes issued i (some (version, true)) (some (version + 1, false))

theorem Passes.insert {s : Slots α} (h : s.Sound) (a : α) (i : Nat) :
    Passes (some (s.insert a).1) i (s.state? i) ((s.insert a).2.state? i) := by
  obtain ⟨before, after⟩ := state?_insert h a
  rw [after]
  split
  case isTrue same =>
    subst same
    rcases before with ⟨absent, version⟩ | ⟨version, vacant, odd⟩
    · rw [absent, version]
      exact .made (by rw [← version])
    · rw [vacant, odd]
      exact .reused version (by rw [← odd])
  case isFalse other =>
    exact .stays _ fun id mem => by rw [← Option.some.inj mem]; exact other

end Slots

/-! ## One operation -/

namespace Document

open Slots (Passes)

/-- Freeing takes every slot at most once. -/
theorem passes_freeAll (nodes : Slots Node) (freed : Nat) (stack : List NodeId) (i : Nat) :
    Passes none i (nodes.state? i) ((freeAll nodes freed stack).2.state? i) := by
  have unissued {state : Option (UInt32 × Bool)} : Passes none i state state :=
    .stays state fun _ mem => by cases mem
  fun_induction freeAll nodes freed stack with
  | case1 => exact unissued
  | case2 nodes freed id stack dead ih => exact ih
  | case3 nodes freed id stack self found ih =>
    have live : nodes.contains id = true := by simp [Slots.contains, found]
    rw [Slots.state?_erase live] at ih
    split at ih
    case isTrue same =>
      subst same
      have held := Slots.contains_iff_state?.mp live
      rw [held]
      -- A slot that was freed is not in use, so nothing more happens to it.
      generalize (freeAll _ _ _).2.state? id.index = later at ih
      cases ih with
      | stays _ _ => exact .freed id.version rfl
      | reused _ here => cases here
    case isFalse => exact ih

namespace Operation

/-- The id that a call gives out. -/
def issued? (doc : Document) : Operation → Option NodeId
  | createElement tag => some (doc.createElement tag).1
  | createText content => some (doc.createText content).1
  | createComment content => some (doc.createComment content).1
  | _ => none

/-- The nodes that a call is about. The entries of a table of anchors are stored and not looked
at. -/
def given : Operation → List NodeId
  | setAttribute id _ _ | removeAttribute id _ | setProperty id _ _ | setText id _
  | removeNode id | release id | setHandler id _ _ | setHandlerData id _ _
  | setAnchors id _ => [id]
  | appendChild parent child => [parent, child]
  | replaceNode old new => [old, new]
  | createElement _ | createText _ | createComment _ | addListener _ _ | ensureListening _
  | takeJournal => []

theorem passes_perform {doc : Document} (sound : doc.Sound) (operation : Operation) (i : Nat) :
    Passes (operation.issued? doc) i (doc.nodes.state? i)
      ((operation.perform doc).nodes.state? i) := by
  have still {doc' : Document} (same : doc'.nodes.state? i = doc.nodes.state? i) :
      Passes none i (doc.nodes.state? i) (doc'.nodes.state? i) := by
    rw [same]
    exact .stays _ fun _ mem => by cases mem
  have detached (id : NodeId) : (doc.detach id).nodes.state? i = doc.nodes.state? i := by
    unfold detach
    split
    · rfl
    · simp [Document.modify]
  cases operation with
  | createElement tag => exact .insert sound.slots _ i
  | createText content => exact .insert sound.slots _ i
  | createComment content => exact .insert sound.slots _ i
  | release id =>
    simp only [perform, Document.release, issued?]
    split
    · rw [← detached id]
      exact passes_freeAll _ 0 [id] i
    · exact still rfl
  | appendChild parent child =>
    refine still ?_
    simp only [perform, Document.appendChild]
    split
    · simpa [Document.modify, record] using detached child
    · rfl
  | replaceNode old new =>
    refine still ?_
    simp only [perform, Document.replaceNode]
    split
    · rfl
    · split
      · rfl
      · simpa [Document.modify, record] using detached new
  | removeNode id =>
    refine still ?_
    simp only [perform, Document.removeNode]
    split
    · exact detached id
    · rfl
  | ensureListening event =>
    refine still ?_
    simp only [perform, Document.ensureListening]
    split <;> rfl
  | addListener event listener => exact still rfl
  | takeJournal => exact still rfl
  | setAnchors root anchors => exact still (Slots.state?_modify _ _ _ i)
  | setAttribute | removeAttribute | setProperty | setText | setHandler | setHandlerData =>
    refine still ?_
    simp only [perform, Document.setAttribute, Document.removeAttribute, Document.setProperty,
      Document.setText, Document.setHandler, Document.setHandlerData]
    split <;> simp [Document.modify, record]

end Operation

/-- An operation on a dead id changes nothing. -/
theorem perform_of_dead {doc : Document} {id : NodeId} (dead : doc.contains id = false)
    {operation : Operation} (given : id ∈ operation.given) : operation.perform doc = doc := by
  have gone : doc.get? id = none := by
    simpa [contains, Slots.contains, get?] using dead
  cases operation with
  | appendChild parent child =>
    have either : (doc.contains parent && doc.contains child) = false := by
      rcases List.mem_pair.mp given with rfl | rfl <;> simp [dead]
    simp [Operation.perform, Document.appendChild, either]
  | replaceNode old new =>
    simp only [Operation.perform, Document.replaceNode]
    rcases List.mem_pair.mp given with rfl | rfl
    · have detached : doc.parent? id = none := by simp [parent?, gone]
      simp [detached]
    · simp [dead]
  | setAnchors root anchors =>
    obtain rfl := List.mem_singleton.mp given
    have gone : doc.nodes.get? id = none := gone
    simp [Operation.perform, Document.setAnchors, Document.modify, Slots.modify, gone]
  | setAttribute | removeAttribute | setProperty | setText | removeNode | release | setHandler
  | setHandlerData =>
    obtain rfl := List.mem_singleton.mp given
    simp [Operation.perform, Document.setAttribute, Document.removeAttribute, Document.setProperty,
      Document.setText, Document.removeNode, Document.release, Document.setHandler,
      Document.setHandlerData, gone, dead]
  | createElement | createText | createComment | addListener | ensureListening | takeJournal =>
    cases given

/-- An event at a dead id reaches no handler. -/
theorem dispatch_of_dead {κ : Type} (host : Host κ) {s : Stage κ} {id : NodeId}
    (dead : s.document.contains id = false) (event : String) :
    host.dispatch id event s = (none, s) := by
  have gone : s.document.get? id = none := by
    simpa [contains, Slots.contains, get?] using dead
  have nobody : s.document.findHandler? id event = none := by
    simp [findHandler?, walkBound, climb, parent?, hasHandler, handler?, gone, climb_none]
  simp [Host.dispatch, nobody]

/-- Only a live node has nodes below it. -/
theorem Below.live {doc : Document} {r x : NodeId} (below : doc.Below r x)
    (live : doc.contains x = true) : doc.contains r = true := by
  rcases below.cases_head with rfl | ⟨c, step, _⟩
  · exact live
  · obtain ⟨node, found, _⟩ := mem_children.mp step
    exact contains_iff.mpr ⟨node, found⟩

/-- Releasing a node frees it and all below it. -/
theorem contains_release_of_below {doc : Document} {r x : NodeId} (below : doc.Below r x)
    (live : doc.contains x = true) : (doc.release r).2.contains x = false := by
  -- Detaching changes one list of children: the parent of `r` loses `r`, where the way began.
  have way : Relation.ReflTransGen (Lists (doc.detach r).nodes) r x := by
    clear live
    induction below with
    | refl => exact .refl
    | @tail y z _ step ih =>
      by_cases back : z = r
      · rw [back]
      · obtain ⟨node, found, listed⟩ := mem_children.mp step
        refine ih.tail ?_
        cases up : doc.parent? r with
        | none =>
          rw [detach_of_detached up]
          exact ⟨node, found, listed⟩
        | some p =>
          have changed := get?_detach up y
          rw [show doc.get? y = some node from found] at changed
          refine ⟨_, changed, ?_⟩
          dsimp only
          split
          · exact List.mem_filter.mpr ⟨listed, by simpa using back⟩
          · exact listed
  unfold release
  rw [if_pos (below.live live)]
  simp [contains, Slots.contains, record, get?_freeAll_of_below (List.mem_singleton_self r) way]

/-! ## Histories -/

/-- How often the slot `i` is freed while the operations are carried out. -/
def frees (doc : Document) : List Operation → Nat → Nat
  | [], _ => 0
  | operation :: rest, i =>
    (if doc.nodes.inUse i && !(operation.perform doc).nodes.inUse i then 1 else 0) +
      (operation.perform doc).frees rest i

/-- The ids that the operations give out, in their order. -/
def issued (doc : Document) : List Operation → List NodeId
  | [] => []
  | operation :: rest => (operation.issued? doc).toList ++ (operation.perform doc).issued rest

theorem frees_append (doc : Document) (before after : List Operation) (i : Nat) :
    doc.frees (before ++ after) i = doc.frees before i + (doc.performAll before).frees after i := by
  induction before generalizing doc with
  | nil => simp [frees, performAll]
  | cons operation rest ih =>
    rw [List.cons_append, frees, frees, ih, Nat.add_assoc]
    rfl

theorem frees_le_length (doc : Document) (operations : List Operation) (i : Nat) :
    doc.frees operations i ≤ operations.length := by
  induction operations generalizing doc with
  | nil => simp [frees]
  | cons operation rest ih =>
    have := ih (operation.perform doc)
    rw [frees, List.length_cons]
    split <;> omega

theorem mem_issued {doc : Document} {operations : List Operation} {id : NodeId}
    (mem : id ∈ doc.issued operations) : ∃ before operation after,
      operations = before ++ operation :: after ∧
        operation.issued? (doc.performAll before) = some id := by
  induction operations generalizing doc with
  | nil => cases mem
  | cons operation rest ih =>
    rcases List.mem_append.mp mem with here | later
    · exact ⟨[], operation, rest, rfl, Option.mem_toList.mp here⟩
    · obtain ⟨before, creation, after, same, made⟩ := ih later
      exact ⟨operation :: before, creation, after, by rw [same]; rfl, made⟩

/-- A slot in this state can have been freed `n` times. -/
inductive Counted (n : Nat) : Option (UInt32 × Bool) → Prop
  | absent (never : n = 0) : Counted n none
  | present (used : Bool) : Counted n (some (UInt32.ofNat (2 * n + used.toNat), used))

theorem or_one (n : Nat) : UInt32.ofNat (2 * n) ||| 1 = UInt32.ofNat (2 * n + 1) := by
  refine UInt32.toNat_inj.mp ?_
  have even : 2 * n % 2 ^ 32 = 2 * (n % 2 ^ 31) := by omega
  have odd := Nat.two_pow_add_eq_or_of_lt (i := 1) (b := 1) (by decide) (n % 2 ^ 31)
  rw [UInt32.toNat_or, UInt32.toNat_ofNat', UInt32.toNat_ofNat', even]
  change 2 * (n % 2 ^ 31) ||| 1 = _
  rw [pow_one] at odd
  rw [← odd]
  omega

/-- Two counts come to the same version once they differ by a multiple of `2 ^ 31`. -/
theorem ofNat_eq_iff {m n : Nat} :
    UInt32.ofNat (2 * m + 1) = UInt32.ofNat (2 * n + 1) ↔ m % 2 ^ 31 = n % 2 ^ 31 := by
  rw [← UInt32.toNat_inj, UInt32.toNat_ofNat', UInt32.toNat_ofNat']
  omega

/-- One operation: the version goes on with the count. -/
theorem Counted.passes {n i : Nat} {issued : Option NodeId} {state state' : Option (UInt32 × Bool)}
    (counted : Counted n state) (passes : Passes issued i state state') :
    Counted ((if state.any Prod.snd && !state'.any Prod.snd then 1 else 0) + n) state' := by
  cases passes with
  | stays _ _ => simpa using counted
  | made _ =>
    cases counted with
    | absent never =>
      subst never
      exact .present true
  | reused version _ =>
    cases counted with
    | present _ =>
      have odd : UInt32.ofNat (2 * n + false.toNat) ||| 1 = UInt32.ofNat (2 * n + true.toNat) :=
        or_one n
      rw [odd]
      simpa using Counted.present (n := n) true
  | freed version _ =>
    cases counted with
    | present _ =>
      have next : UInt32.ofNat (2 * n + true.toNat) + 1 =
          UInt32.ofNat (2 * (1 + n) + false.toNat) := by
        rw [show (1 : UInt32) = UInt32.ofNat 1 from rfl, ← UInt32.ofNat_add]
        congr 1
        simp only [Bool.toNat_true, Bool.toNat_false]
        omega
      rw [next]
      exact .present false

/-- Any operations: the version of a slot says how often the slot was freed. -/
theorem counted_performAll {doc : Document} (sound : doc.Sound) {n i : Nat}
    (counted : Counted n (doc.nodes.state? i)) (operations : List Operation) :
    Counted (n + doc.frees operations i) ((doc.performAll operations).nodes.state? i) := by
  induction operations generalizing doc n with
  | nil => exact counted
  | cons operation rest ih =>
    have step := counted.passes (operation.passes_perform sound i)
    have later := ih (sound.perform operation) step
    rwa [Nat.add_comm _ n, Nat.add_assoc] at later

theorem counted_new (journaling : Bool) (operations : List Operation) (i : Nat) :
    Counted ((new journaling).frees operations i)
      (((new journaling).performAll operations).nodes.state? i) := by
  have start : Counted 0 ((new journaling).nodes.state? i) := by
    cases journaling <;> exact .absent rfl
  have run := counted_performAll (sound_new journaling) start operations
  rwa [Nat.zero_add] at run

/-- A document has exactly those ids whose slot is in use and was freed as often as they say. -/
theorem Counted.contains_iff {doc : Document} {id : NodeId} {n : Nat}
    (counted : Counted n (doc.nodes.state? id.index)) :
    doc.contains id = true ↔
      doc.nodes.inUse id.index = true ∧ id.version = UInt32.ofNat (2 * n + 1) := by
  rw [Slots.inUse_iff]
  refine Slots.contains_iff_state?.trans ?_
  generalize doc.nodes.state? id.index = state at counted
  cases counted with
  | absent never => simp
  | present used =>
    cases used with
    | false => simp
    | true => simp [eq_comm]

/-- A new id has the count of its slot. -/
theorem Counted.issued {doc : Document} {operation : Operation} (sound : doc.Sound) {id : NodeId}
    {n : Nat} (counted : Counted n (doc.nodes.state? id.index))
    (made : operation.issued? doc = some id) :
    doc.nodes.inUse id.index = false ∧ (operation.perform doc).contains id = true ∧
      id.version = UInt32.ofNat (2 * n + 1) := by
  have passes := operation.passes_perform sound id.index
  rw [made] at passes
  have held : doc.nodes.inUse id.index = (doc.nodes.state? id.index).any Prod.snd := rfl
  have after : (operation.perform doc).contains id = true ↔ _ := Slots.contains_iff_state?
  rw [held, after]
  generalize doc.nodes.state? id.index = state at counted passes
  generalize (operation.perform doc).nodes.state? id.index = state' at passes
  cases passes with
  | stays _ other => exact absurd rfl (other id rfl)
  | made here =>
    cases counted with
    | absent never =>
      subst never
      rw [Option.some.inj here]
      exact ⟨rfl, rfl, rfl⟩
  | reused version here =>
    cases counted with
    | present _ =>
      rw [Option.some.inj here]
      exact ⟨rfl, rfl, or_one n⟩
  | freed _ none => cases none

/-- An id that an operation takes the life of has its slot freed. -/
theorem inUse_of_gone {doc : Document} {operation : Operation} (sound : doc.Sound) {id : NodeId}
    (live : doc.contains id = true) (gone : (operation.perform doc).contains id = false) :
    (operation.perform doc).nodes.inUse id.index = false := by
  have passes := operation.passes_perform sound id.index
  have before := Slots.contains_iff_state?.mp live
  have after : (operation.perform doc).nodes.state? id.index ≠ some (id.version, true) := by
    intro held
    rw [show (operation.perform doc).contains id = true from Slots.contains_iff_state?.mpr held]
      at gone
    cases gone
  unfold Slots.inUse
  generalize (operation.perform doc).nodes.state? id.index = state' at passes after
  generalize doc.nodes.state? id.index = state at passes before
  cases passes with
  | stays _ _ => exact absurd before after
  | made _ => cases before
  | reused _ _ => simp at before
  | freed _ _ => rfl

/-- A slot that is never freed stays in use. -/
theorem inUse_performAll {doc : Document} {i : Nat} (used : doc.nodes.inUse i = true)
    {operations : List Operation} (never : doc.frees operations i = 0) :
    (doc.performAll operations).nodes.inUse i = true := by
  induction operations generalizing doc with
  | nil => exact used
  | cons operation rest ih =>
    rw [frees, Nat.add_eq_zero_iff] at never
    refine ih ?_ never.2
    simpa [used] using never.1

/-- What is live was so from the start, or it was given out since. -/
theorem contains_performAll {doc : Document} (sound : doc.Sound) {operations : List Operation}
    {id : NodeId} (live : (doc.performAll operations).contains id = true) :
    doc.contains id = true ∨ id ∈ doc.issued operations := by
  induction operations generalizing doc with
  | nil => exact .inl live
  | cons operation rest ih =>
    rcases ih (sound.perform operation) live with held | later
    · have passes := operation.passes_perform sound id.index
      have after := Slots.contains_iff_state?.mp held
      generalize (operation.perform doc).nodes.state? id.index = state' at passes after
      generalize before : doc.nodes.state? id.index = state at passes
      have here {version : UInt32} (same : operation.issued? doc = some ⟨id.index, version⟩)
          (equal : version = id.version) : id ∈ doc.issued (operation :: rest) := by
        rw [issued, same, equal]
        exact List.mem_append_left _ (List.mem_singleton_self id)
      cases passes with
      | stays _ _ => exact .inl (Slots.contains_iff_state?.mpr (before.trans after))
      | made same => exact .inr (here same (by simpa using after))
      | reused _ same => exact .inr (here same (by simpa using after))
      | freed _ _ => simp at after
    · exact .inr (List.mem_append_right _ later)

/-- An id that is live is not given out again, unless its slot was freed too often. -/
theorem not_mem_issued {doc : Document} (sound : doc.Sound) {count : Nat → Nat}
    (counted : ∀ i, Counted (count i) (doc.nodes.state? i)) {operations : List Operation}
    (bound : ∀ i, count i + doc.frees operations i < 2 ^ 31) {id : NodeId}
    (live : doc.contains id = true) : id ∉ doc.issued operations := by
  intro mem
  obtain ⟨before, creation, after, rfl, made⟩ := mem_issued mem
  obtain ⟨used, version⟩ := (counted id.index).contains_iff.mp live
  have then' := counted_performAll sound (counted id.index) before
  obtain ⟨vacant, -, version'⟩ := then'.issued (sound.performAll before) made
  have limit := bound id.index
  rw [frees_append] at limit
  rw [version, ofNat_eq_iff, Nat.mod_eq_of_lt (by omega), Nat.mod_eq_of_lt (by omega)] at version'
  have kept : (doc.performAll before).nodes.inUse id.index = true :=
    inUse_performAll used (by omega)
  rw [vacant] at kept
  cases kept

theorem nodup_issued {doc : Document} (sound : doc.Sound) {count : Nat → Nat}
    (counted : ∀ i, Counted (count i) (doc.nodes.state? i)) {operations : List Operation}
    (bound : ∀ i, count i + doc.frees operations i < 2 ^ 31) : (doc.issued operations).Nodup := by
  induction operations generalizing doc count with
  | nil => exact List.nodup_nil
  | cons operation rest ih =>
    have sound' := sound.perform operation
    have counted' : ∀ i, Counted _ ((operation.perform doc).nodes.state? i) := fun i =>
      (counted i).passes (operation.passes_perform sound i)
    have bound' : ∀ i, _ + (operation.perform doc).frees rest i < 2 ^ 31 := fun i => by
      have limit := bound i
      rwa [frees, ← Nat.add_assoc, Nat.add_comm (count i)] at limit
    have rest' := ih sound' counted' bound'
    cases made : operation.issued? doc with
    | none => simpa [issued, made] using rest'
    | some id =>
      have live := ((counted id.index).issued sound made).2.1
      rw [issued, made]
      exact List.nodup_cons.mpr ⟨not_mem_issued sound' counted' bound' live, rest'⟩

/-- The ids that a document gives out are all different, as long as no slot is freed `2 ^ 31` times.
So the ids of the nodes that a release frees, that is of a node and of all below it, are dead from
then on: the document never has them again, and operations on them leave everything as it is. -/
theorem released_ids_stay_dead (journaling : Bool) (operations : List Operation)
    (bound : ∀ i, (new journaling).frees operations i < 2 ^ 31) :
    ((new journaling).issued operations).Nodup ∧
      ∀ before r after later id, operations = before ++ .release r :: after ++ later →
        ((new journaling).performAll before).contains id = true →
        ((new journaling).performAll before).Below r id →
          let doc := (new journaling).performAll (before ++ .release r :: after)
          doc.contains id = false ∧
          (∀ operation : Operation, id ∈ operation.given → operation.perform doc = doc) ∧
          ∀ {κ : Type} (host : Host κ) (s : Stage κ) (event : String), s.document = doc →
            host.dispatch id event s = (none, s) := by
  refine ⟨?_, ?_⟩
  · refine nodup_issued (sound_new journaling) (counted_new journaling []) fun i => ?_
    rw [frees, Nat.zero_add]
    exact bound i
  · rintro before r after later id rfl live below doc
    have limit := bound id.index
    rw [frees_append, frees_append] at limit
    obtain ⟨used, version⟩ := (counted_new journaling before id.index).contains_iff.mp live
    have gone : (Operation.perform ((new journaling).performAll before) (.release r)).contains id =
        false := contains_release_of_below below live
    have vacant := inUse_of_gone ((sound_new journaling).performAll before) live gone
    have freed : 0 < ((new journaling).performAll before).frees (.release r :: after) id.index := by
      rw [frees, used, vacant]
      simp
    have dead : doc.contains id = false := by
      rw [Bool.eq_false_iff]
      intro again
      have counted := counted_new journaling (before ++ .release r :: after) id.index
      obtain ⟨-, version'⟩ := counted.contains_iff.mp again
      rw [version, ofNat_eq_iff, frees_append, Nat.mod_eq_of_lt (by omega),
        Nat.mod_eq_of_lt (by omega)] at version'
      omega
    refine ⟨dead, fun operation given => perform_of_dead dead given, fun host s event same => ?_⟩
    exact dispatch_of_dead host (same ▸ dead) event

/-- A list is released with its item, and both slots are taken again. -/
theorem released_ids_stay_dead_reused :
    let before : List Operation :=
      [.createElement "ul", .createElement "li", .appendChild ⟨0, 1⟩ ⟨1, 1⟩]
    let operations := before ++ .release ⟨0, 1⟩ :: [.createElement "p", .createText "x"]
    (∀ i, (new true).frees operations i < 2 ^ 31) ∧
      ((new true).performAll before).contains ⟨1, 1⟩ = true ∧
      ((new true).performAll before).Below ⟨0, 1⟩ ⟨1, 1⟩ ∧
      ((new true).issued operations).Nodup ∧
      ((new true).performAll operations).contains ⟨1, 1⟩ = false := by
  intro before operations
  have bound : ∀ i, (new true).frees operations i < 2 ^ 31 := fun i =>
    Nat.lt_of_le_of_lt (frees_le_length _ operations i) (by decide)
  have live : ((new true).performAll before).contains ⟨1, 1⟩ = true := by decide +kernel
  have listed : (⟨1, 1⟩ : NodeId) ∈ ((new true).performAll before).children ⟨0, 1⟩ := by
    decide +kernel
  have below : ((new true).performAll before).Below ⟨0, 1⟩ ⟨1, 1⟩ := .single listed
  obtain ⟨distinct, dead⟩ := released_ids_stay_dead true operations bound
  exact ⟨bound, live, below, distinct,
    (dead before ⟨0, 1⟩ _ [] ⟨1, 1⟩ (List.append_nil _).symm live below).1⟩

/-! ## Ids of another document -/

/-- An id that another document gave out is ignored unless, by chance, it names a node here: the
slot is in use, and it was freed as often as the slot of the other document when that gave out the
id, up to a multiple of `2 ^ 31`. Then it is an id that this document has given out as well, and
operations on it are carried out. -/
theorem ignores_foreign_iff (journaling journaling' : Bool) (operations others : List Operation)
    {creation : Operation} {id : NodeId}
    (made : creation.issued? ((new journaling').performAll others) = some id) :
    let doc := (new journaling).performAll operations
    (doc.contains id = true ↔ doc.nodes.inUse id.index = true ∧
      (new journaling).frees operations id.index % 2 ^ 31 =
        (new journaling').frees others id.index % 2 ^ 31) ∧
    (doc.contains id = true → id ∈ (new journaling).issued operations) ∧
    ((∀ operation : Operation, id ∈ operation.given → operation.perform doc = doc) ↔
      doc.contains id = false) := by
  intro doc
  refine ⟨?_, ?_, ?_, fun dead operation given => perform_of_dead dead given⟩
  · have there := counted_new journaling' others id.index
    obtain ⟨-, -, version⟩ := there.issued ((sound_new journaling').performAll others) made
    have here := counted_new journaling operations id.index
    rw [here.contains_iff, version, ofNat_eq_iff, eq_comm (a := _ % _)]
  · intro live
    rcases contains_performAll (sound_new journaling) live with start | mem
    · cases journaling <;> cases start
    · exact mem
  · intro ignored
    rw [Bool.eq_false_iff]
    intro live
    -- Its release would be carried out.
    have gone := contains_release_of_below .refl live
    have same : (doc.release id).2 = doc := ignored (.release id) (List.mem_singleton_self id)
    rw [same, live] at gone
    cases gone

/-- The id of a second node, given to a document with two nodes and to one with a single node. -/
theorem ignores_foreign_iff_second :
    let others : List Operation := [.createElement "a"]
    let id : NodeId := ⟨1, 1⟩
    (Operation.createText "b").issued? ((new false).performAll others) = some id ∧
      ((new true).performAll [.createElement "p", .createElement "q"]).contains id = true ∧
      ∀ operation : Operation, id ∈ operation.given →
        operation.perform ((new true).performAll [.createElement "p"]) =
          (new true).performAll [.createElement "p"] := by
  intro others id
  have made : (Operation.createText "b").issued? ((new false).performAll others) = some id := by
    decide +kernel
  refine ⟨made, ?_, ?_⟩
  · exact (ignores_foreign_iff true false [.createElement "p", .createElement "q"] others made).1.mpr
      (by decide +kernel)
  · exact (ignores_foreign_iff true false [.createElement "p"] others made).2.2.mpr
      (by decide +kernel)

/-- The first node of any document has the same id, so a write meant for another document is made
here. -/
theorem foreign_id_not_ignored :
    let doc := (new true).performAll [.createElement "a"]
    let id := ((new true).createElement "b").1
    doc.contains id = true ∧ doc.attribute? id "title" = none ∧
      ((Operation.setAttribute id "title" "t").perform doc).attribute? id "title" = some "t" ∧
      doc.entries.length = 1 ∧
      ((Operation.setAttribute id "title" "t").perform doc).entries.length = 2 := by
  decide +kernel

end Document
end LiveTemplate
