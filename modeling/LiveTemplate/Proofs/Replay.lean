import LiveTemplate.Proofs.Operations

/-!
# LiveTemplate.Proofs.Replay

The journal is a complete record: carrying out its entries on a new document gives the document
back, with the same ids.

  * `Slots.Matches`               two node stores with the same ids and related contents
  * `Document.Replays`            a document and what its record comes to
  * `Operation.noted?`            the entry that a call makes, if it finds something to act on
  * `Operation.perform_replays`   one call, and its entry carried out
  * `Document.replay_performAll`  the main result
-/

namespace LiveTemplate

/-! ## Stores with the same ids -/

theorem rel_map {α β γ δ : Type} {R : α → β → Prop} {S : γ → δ → Prop} {f : α → γ} {g : β → δ}
    {x : Option α} {y : Option β} (h : Option.Rel R x y) (step : ∀ a b, R a b → S (f a) (g b)) :
    Option.Rel S (x.map f) (y.map g) := by
  cases h with
  | some rel => exact .some (step _ _ rel)
  | none => exact .none

theorem rel_mono {α β : Type} {R S : α → β → Prop} {x : Option α} {y : Option β}
    (h : Option.Rel R x y) (imp : ∀ a b, R a b → S a b) : Option.Rel S x y := by
  cases h with
  | some rel => exact .some (imp _ _ rel)
  | none => exact .none

theorem rel_cases {α β : Type} {R : α → β → Prop} {x : Option α} {y : Option β}
    (h : Option.Rel R x y) :
    x = none ∧ y = none ∨ ∃ a b, x = some a ∧ y = some b ∧ R a b := by
  cases h with
  | some rel => exact .inr ⟨_, _, rfl, rfl, rel⟩
  | none => exact .inl ⟨rfl, rfl⟩

theorem isSome_eq_of_rel {α β : Type} {R : α → β → Prop} {x : Option α} {y : Option β}
    (h : Option.Rel R x y) : y.isSome = x.isSome := by
  cases h <;> rfl

namespace Slots

variable {α β : Type}

/-- The same slots are in use, under the same versions, and the same ones are free. So the next ids
are the same too. -/
structure Matches (R : NodeId → α → β → Prop) (s : Slots α) (s' : Slots β) : Prop where
  free : s'.free = s.free
  slots : ∀ i, Option.Rel (fun slot slot' => slot'.version = slot.version ∧
    Option.Rel (R ⟨i, slot.version⟩) slot.content slot'.content) s.slots[i]? s'.slots[i]?

theorem free_modify (s : Slots α) (id : NodeId) (f : α → α) : (s.modify id f).free = s.free := by
  unfold modify
  split <;> rfl

theorem slots_modify (s : Slots α) (id : NodeId) (f : α → α) (i : Nat) :
    (s.modify id f).slots[i]? = s.slots[i]?.map fun slot =>
      if id = ⟨i, slot.version⟩ then ⟨slot.version, slot.content.map f⟩ else slot := by
  unfold modify
  cases found : s.get? id with
  | none =>
    -- The id names nothing, so a slot with its version is empty.
    cases here : s.slots[i]? with
    | none => rfl
    | some slot =>
      rw [Option.map_some]
      split
      · rename_i same
        subst same
        simp only [get?, here, if_true] at found
        obtain ⟨version, content⟩ := slot
        cases found
        rfl
      · rfl
  | some a =>
    have held := get?_eq_some.mp found
    by_cases index : id.index = i
    · subst index
      have bound := index_lt_of_get? found
      rw [held]
      simp [bound]
    · have other (version : UInt32) : ¬id = ⟨i, version⟩ := fun same => index (by rw [same])
      simp only [if_neg (other _), Option.map_id']
      simp [index]

theorem slots_erase (s : Slots α) (id : NodeId) (i : Nat) :
    (s.erase id).slots[i]? = s.slots[i]?.map fun slot =>
      if id = ⟨i, slot.version⟩ ∧ slot.content.isSome then ⟨slot.version + 1, none⟩ else slot := by
  unfold erase
  cases found : s.get? id with
  | none =>
    cases here : s.slots[i]? with
    | none => rfl
    | some slot =>
      rw [Option.map_some, if_neg]
      rintro ⟨rfl, used⟩
      simp only [get?, here, if_true] at found
      rw [found] at used
      cases used
  | some a =>
    have held := get?_eq_some.mp found
    by_cases index : id.index = i
    · subst index
      have bound := index_lt_of_get? found
      rw [held]
      simp [bound]
    · have other (version : UInt32) : ¬id = ⟨i, version⟩ := fun same => index (by rw [same])
      simp only [if_neg fun both : _ ∧ _ => other _ both.1, Option.map_id']
      simp [index]

namespace Matches

variable {R R' : NodeId → α → β → Prop} {s : Slots α} {s' : Slots β}

theorem empty : (Slots.empty : Slots α).Matches R (Slots.empty : Slots β) :=
  ⟨rfl, fun _ => .none⟩

theorem get? (h : s.Matches R s') (id : NodeId) : Option.Rel (R id) (s.get? id) (s'.get? id) := by
  unfold Slots.get?
  rcases rel_cases (h.slots id.index) with ⟨none, none'⟩ | ⟨slot, slot', held, held', same, contents⟩
  · rw [none, none']
    exact .none
  · rw [held, held']
    dsimp only
    rw [same]
    split
    · rename_i version
      rwa [version] at contents
    · exact .none

theorem isSome_get? (h : s.Matches R s') (id : NodeId) :
    (s'.get? id).isSome = (s.get? id).isSome :=
  isSome_eq_of_rel (h.get? id)

theorem size (h : s.Matches R s') : s'.slots.size = s.slots.size := by
  have bound (i : Nat) : i < s'.slots.size ↔ i < s.slots.size := by
    have same := isSome_eq_of_rel (h.slots i)
    rwa [Bool.eq_iff_iff, Option.isSome_iff_ne_none, Option.isSome_iff_ne_none, ne_eq, ne_eq,
      Array.getElem?_eq_none_iff, Array.getElem?_eq_none_iff, not_le, not_le] at same
  exact Nat.le_antisymm (Nat.le_of_not_lt fun lt => Nat.lt_irrefl _ ((bound _).mp lt))
    (Nat.le_of_not_lt fun lt => Nat.lt_irrefl _ ((bound _).mpr lt))

/-- Both stores change slot by slot in the same way. -/
theorem of_slots {t : Slots α} {t' : Slots β} (h : s.Matches R s') (free : t'.free = t.free)
    {f : Nat → Slot α → Slot α} {g : Nat → Slot β → Slot β}
    (left : ∀ i, t.slots[i]? = s.slots[i]?.map (f i))
    (right : ∀ i, t'.slots[i]? = s'.slots[i]?.map (g i))
    (step : ∀ i slot slot', slot'.version = slot.version →
      Option.Rel (R ⟨i, slot.version⟩) slot.content slot'.content →
      (g i slot').version = (f i slot).version ∧
        Option.Rel (R' ⟨i, (f i slot).version⟩) (f i slot).content (g i slot').content) :
    t.Matches R' t' := by
  refine ⟨free, fun i => ?_⟩
  rw [left, right]
  exact rel_map (h.slots i) fun slot slot' rel => step i slot slot' rel.1 rel.2

theorem modify (h : s.Matches R s') (id : NodeId) {f : α → α} {g : β → β}
    (here : ∀ a b, R id a b → R' id (f a) (g b))
    (others : ∀ x a b, x ≠ id → R x a b → R' x a b) :
    (s.modify id f).Matches R' (s'.modify id g) := by
  refine h.of_slots ?_ (s.slots_modify id f) (s'.slots_modify id g) ?_
  · rw [free_modify, free_modify, h.free]
  · intro i slot slot' version contents
    rw [version]
    split
    · rename_i same
      subst same
      exact ⟨rfl, rel_map contents here⟩
    · rename_i other
      exact ⟨version, rel_mono contents fun a b => others _ a b fun same => other same.symm⟩

theorem refl {S : NodeId → α → α → Prop} (same : ∀ id a, S id a a) (s : Slots α) :
    s.Matches S s := by
  have itself {γ : Type} {T : γ → γ → Prop} (h : ∀ c, T c c) (x : Option γ) : Option.Rel T x x := by
    cases x with
    | none => exact .none
    | some c => exact .some (h c)
  exact ⟨rfl, fun i => itself (fun slot => ⟨rfl, itself (same _) slot.content⟩) _⟩

theorem trans {γ : Type} {S : NodeId → β → γ → Prop} {s'' : Slots γ} (h : s.Matches R s')
    (k : s'.Matches S s'') : s.Matches (fun id a c => ∃ b, R id a b ∧ S id b c) s'' := by
  have comp {α β γ : Type} {T : α → β → Prop} {U : β → γ → Prop} {x : Option α} {y : Option β}
      {z : Option γ} (h : Option.Rel T x y) (k : Option.Rel U y z) :
      Option.Rel (fun a c => ∃ b, T a b ∧ U b c) x z := by
    cases h with
    | none => cases k; exact .none
    | some rel => cases k with | some rel' => exact .some ⟨_, rel, rel'⟩
  refine ⟨k.free.trans h.free, fun i => rel_mono (comp (h.slots i) (k.slots i)) ?_⟩
  rintro slot slot'' ⟨slot', ⟨version, contents⟩, version', contents'⟩
  rw [version] at contents'
  exact ⟨version'.trans version, comp contents contents'⟩

theorem mono (h : s.Matches R s') (imp : ∀ id a b, R id a b → R' id a b) : s.Matches R' s' :=
  ⟨h.free, fun i => rel_mono (h.slots i) fun _ _ rel => ⟨rel.1, rel_mono rel.2 (imp _)⟩⟩

/-- A change of the first store that the relation does not see. -/
theorem modify_left (h : s.Matches R s') (id : NodeId) {f : α → α}
    (here : ∀ a b, R id a b → R id (f a) b) : (s.modify id f).Matches R s' := by
  refine h.of_slots (g := fun _ slot => slot) ?_ (s.slots_modify id f) (fun i => by simp) ?_
  · rw [h.free, free_modify]
  · intro i slot slot' version contents
    split
    · rename_i same
      subst same
      refine ⟨version, ?_⟩
      have kept := rel_map (g := fun b => b) contents here
      rwa [Option.map_id'] at kept
    · exact ⟨version, contents⟩

theorem erase (h : s.Matches R s') (id : NodeId) : (s.erase id).Matches R (s'.erase id) := by
  refine h.of_slots ?_ (s.slots_erase id) (s'.slots_erase id) ?_
  · have live := h.isSome_get? id
    unfold Slots.erase
    cases here : s.get? id <;> cases there : s'.get? id <;> rw [here, there] at live
    · exact h.free
    · cases live
    · cases live
    · exact congrArg (id.index :: ·) h.free
  · intro i slot slot' version contents
    rw [version, isSome_eq_of_rel contents]
    split
    · exact ⟨rfl, .none⟩
    · exact ⟨version, contents⟩

/-- New nodes get the same id. -/
theorem insert (h : s.Matches R s') {a : α} {b : β} (here : R' (s.insert a).1 a b)
    (others : ∀ x c d, x ≠ (s.insert a).1 → R x c d → R' x c d) :
    (s'.insert b).1 = (s.insert a).1 ∧ (s.insert a).2.Matches R' (s'.insert b).2 := by
  have pushed (rest : List Nat) (fresh : R' ⟨s.slots.size, 1⟩ a b)
      (others : ∀ x c d, x ≠ ⟨s.slots.size, 1⟩ → R x c d → R' x c d) :
      Matches R' ⟨s.slots.push ⟨1, some a⟩, rest⟩ ⟨s'.slots.push ⟨1, some b⟩, rest⟩ := by
    refine ⟨rfl, fun i => ?_⟩
    dsimp only
    rw [Array.getElem?_push, Array.getElem?_push, h.size]
    split
    · rename_i last
      subst last
      exact .some ⟨rfl, .some fresh⟩
    · rename_i old
      refine rel_mono (h.slots i) fun slot slot' rel => ⟨rel.1, rel_mono rel.2 fun c d =>
        others _ c d fun same => old (congrArg NodeId.index same)⟩
  unfold Slots.insert at here others ⊢
  rw [h.free]
  cases free : s.free with
  | nil =>
    rw [free] at here others
    exact ⟨by rw [h.size], pushed [] here others⟩
  | cons index rest =>
    rw [free] at here others
    dsimp only at here others ⊢
    rcases rel_cases (h.slots index) with ⟨none, none'⟩ | ⟨slot, slot', held, held', version, -⟩
    · rw [none] at here others
      rw [none, none']
      exact ⟨by rw [h.size], pushed rest here others⟩
    · rw [held] at here others
      rw [held, held']
      dsimp only at here others ⊢
      rw [version]
      refine ⟨rfl, rfl, fun i => ?_⟩
      dsimp only
      rw [Array.getElem?_setIfInBounds, Array.getElem?_setIfInBounds, h.size]
      split
      · rename_i same
        subst same
        split
        · exact .some ⟨rfl, .some here⟩
        · exact .none
      · rename_i other
        exact rel_mono (h.slots i) fun one two rel => ⟨rel.1, rel_mono rel.2 fun c d =>
          others _ c d fun same => other (congrArg NodeId.index same).symm⟩

end Matches
end Slots

theorem Table.names_insert {α : Type} (name : String) (value : α) (table : Table α) :
    (table.insert name value).names = NameSet.insert name table.names := by
  induction table with
  | nil => rfl
  | cons entry rest ih =>
    simp only [Table.names, Table.insert, List.map_cons, NameSet.insert] at ih ⊢
    split
    · rfl
    · split
      · rename_i same
        rw [same]
        rfl
      · exact congrArg (entry.1 :: ·) ih

/-! ## What a record tells -/

namespace Mutation

/-- The call that an entry names. Entries hold neither the content that a comment is created with
nor the function of a handler. -/
def call (f : Function) : Mutation → Document.Operation
  | .createElement _ tag => .createElement tag
  | .createText _ content => .createText content
  | .createComment _ => .createComment ""
  | .setAttribute id name value => .setAttribute id name value
  | .removeAttribute id name => .removeAttribute id name
  | .setProperty id name value => .setProperty id name value
  | .setText id content => .setText id content
  | .appendChild parent child => .appendChild parent child
  | .replaceNode old new => .replaceNode old new
  | .removeNode id => .removeNode id
  | .release id => .release id
  | .setHandler id event => .setHandler id event f
  | .setHandlerData id event args => .setHandlerData id event args

/-- The text written to a node since it was created, after one more entry. -/
def retext (id : NodeId) (known : Option String) : Mutation → Option String
  | .setText x content => if x = id then some content else known
  | .createElement x _ | .createText x _ | .createComment x => if x = id then none else known
  | _ => known

end Mutation

/-- The text that was last written to a node since it was created. -/
def rewritten (record : List Mutation) (id : NodeId) : Option String :=
  record.foldl (Mutation.retext id) none

theorem rewritten_concat (record : List Mutation) (m : Mutation) (id : NodeId) :
    rewritten (record ++ [m]) id = m.retext id (rewritten record id) := by
  rw [rewritten, List.foldl_append]
  rfl

/-- A content and what its record comes to. A comment that was given a text later has that text; the
one it was created with is not told. -/
inductive Content.Replays (written : Option String) : Content → Content → Prop
  | element (tag : String) (attributes : List (String × String)) (properties : Table Value) :
      Replays written (.element tag attributes properties) (.element tag attributes properties)
  | text (content : String) : Replays written (.text content) (.text content)
  | comment (given : String) :
      Replays written (.comment (written.getD given)) (.comment (written.getD ""))

/-- A node and what its record comes to. The functions of the handlers and the anchors are not
told. -/
structure Node.Replays (written : Option String) (n n' : Node) : Prop where
  content : n.content.Replays written n'.content
  parent : n'.parent = n.parent
  children : n'.children = n.children
  handlers : n'.handlers.names = n.handlers.names
  handlerData : n'.handlerData = n.handlerData

/-- A node that differs at most in its anchors, which no entry tells. -/
def Node.SameButAnchors (n' n : Node) : Prop := n' = { n with anchors := n'.anchors }

namespace Document

/-- A document and what its record comes to. -/
def Replays (record : List Mutation) (doc doc' : Document) : Prop :=
  doc.nodes.Matches (fun id => Node.Replays (rewritten record id)) doc'.nodes

namespace Replays

variable {record record' : List Mutation} {doc doc' : Document}

theorem get? (h : doc.Replays record doc') (id : NodeId) :
    Option.Rel (Node.Replays (rewritten record id)) (doc.get? id) (doc'.get? id) :=
  Slots.Matches.get? h id

theorem contains (h : doc.Replays record doc') (id : NodeId) :
    doc'.contains id = doc.contains id :=
  isSome_eq_of_rel (h.get? id)

theorem parent? (h : doc.Replays record doc') (id : NodeId) : doc'.parent? id = doc.parent? id := by
  unfold Document.parent?
  rcases rel_cases (h.get? id) with ⟨dead, dead'⟩ | ⟨n, n', live, live', rel⟩
  · rw [dead, dead']
  · rw [live, live']
    exact rel.parent

/-- A change of one node on both sides, as the longer record tells it. -/
theorem modify (h : doc.Replays record doc') (id : NodeId) {f g : Node → Node}
    (here : ∀ n n', n.Replays (rewritten record id) n' →
      (f n).Replays (rewritten record' id) (g n'))
    (others : ∀ x, x ≠ id → rewritten record' x = rewritten record x) :
    (doc.modify id f).Replays record' (doc'.modify id g) :=
  Slots.Matches.modify h id here fun x n n' other rel => by rwa [others x other]

/-- A change of the links of one node. -/
theorem relink (h : doc.Replays record doc') (id : NodeId) (par : Option NodeId → Option NodeId)
    (kids : List NodeId → List NodeId) :
    (doc.modify id fun n => { n with parent := par n.parent, children := kids n.children }).Replays
      record
      (doc'.modify id fun n => { n with parent := par n.parent, children := kids n.children }) :=
  h.modify id (fun n n' rel => ⟨rel.content, by rw [rel.parent], by rw [rel.children],
    rel.handlers, rel.handlerData⟩) fun _ _ => rfl

theorem detach (h : doc.Replays record doc') (id : NodeId) :
    (doc.detach id).Replays record (doc'.detach id) := by
  unfold Document.detach
  rw [h.parent? id]
  split
  · exact h
  · exact (h.relink id (fun _ => none) (fun l => l)).relink _ (fun p => p)
      (fun l => l.filter (· ≠ id))

theorem freeAll_cons_dead {nodes : Slots Node} {freed : Nat} {id : NodeId} {stack : List NodeId}
    (dead : nodes.get? id = none) :
    Document.freeAll nodes freed (id :: stack) = Document.freeAll nodes freed stack := by
  rw [Document.freeAll]
  split
  · rfl
  · rename_i found
    rw [dead] at found
    cases found

theorem freeAll_cons_live {nodes : Slots Node} {freed : Nat} {id : NodeId} {stack : List NodeId}
    {n : Node} (live : nodes.get? id = some n) :
    Document.freeAll nodes freed (id :: stack) =
      Document.freeAll (nodes.erase id) (freed + 1) (n.children.reverse ++ stack) := by
  rw [Document.freeAll]
  split
  · rename_i found
    rw [live] at found
    cases found
  · rename_i found
    rw [live] at found
    cases found
    rfl

/-- Freeing goes through the same nodes in the same order. -/
theorem freeAll {nodes nodes' : Slots Node} {R : NodeId → Node → Node → Prop}
    (same : ∀ id n n', R id n n' → n'.children = n.children) {freed freed' : Nat}
    {stack : List NodeId} (h : nodes.Matches R nodes') :
    (Document.freeAll nodes freed stack).2.Matches R (Document.freeAll nodes' freed' stack).2 := by
  induction nodes, freed, stack using Document.freeAll.induct generalizing nodes' freed' with
  | case1 nodes freed =>
    rw [Document.freeAll, Document.freeAll]
    exact h
  | case2 nodes freed id stack dead ih =>
    have dead' : nodes'.get? id = none := by
      rcases rel_cases (h.get? id) with ⟨-, dead'⟩ | ⟨n, n', live, -⟩
      · exact dead'
      · rw [dead] at live
        cases live
    rw [freeAll_cons_dead dead, freeAll_cons_dead dead']
    exact ih h
  | case3 nodes freed id stack n live ih =>
    rcases rel_cases (h.get? id) with ⟨dead, -⟩ | ⟨m, n', found, live', rel⟩
    · rw [dead] at live
      cases live
    · rw [live] at found
      cases found
      rw [freeAll_cons_live live, freeAll_cons_live live', same id n n' rel]
      exact ih (h.erase id)

/-- An entry that tells of no text. -/
theorem silent (h : doc.Replays record doc') (m : Mutation)
    (quiet : ∀ id known, m.retext id known = known) : doc.Replays (record ++ [m]) doc' := by
  unfold Replays
  simp only [rewritten_concat, quiet]
  exact h

theorem create (h : doc.Replays record doc') {m : Mutation} {content content' : Content}
    (made : ∀ id known, m.retext id known = if (doc.insert content).1 = id then none else known)
    (same : content.Replays none content') :
    (doc.insert content).2.Replays (record ++ [m]) (doc'.insert content').2 := by
  refine (Slots.Matches.insert h ?_ ?_).2
  · rw [rewritten_concat, made, show (doc.insert content).1 = (doc.nodes.insert _).1 from rfl,
      if_pos rfl]
    exact ⟨same, rfl, rfl, rfl, rfl⟩
  · intro x n n' other rel
    rwa [rewritten_concat, made, if_neg fun same => other same.symm]

/-- A write on both sides. -/
theorem write (h : doc.Replays record doc') (id : NodeId) {m : Mutation} {c c' : Content}
    (others : ∀ x known, x ≠ id → m.retext x known = known)
    (same : c.Replays (m.retext id (rewritten record id)) c') :
    (doc.modify id ({ · with content := c })).Replays (record ++ [m])
      (doc'.modify id ({ · with content := c' })) := by
  refine h.modify id (fun n n' rel => ?_) fun x other => ?_
  · rw [rewritten_concat]
    exact ⟨same, rel.parent, rel.children, rel.handlers, rel.handlerData⟩
  · rw [rewritten_concat, others x _ other]

end Replays

/-! ## Calls and their entries -/

namespace Operation

/-- The entry that a call makes. A call that finds nothing to act on makes none: an id that names no
live node, a node of the wrong kind, a replacement of a detached node or of a node by itself. -/
def noted? (doc : Document) : Operation → Option Mutation
  | createElement tag => some (.createElement (doc.createElement tag).1 tag)
  | createText content => some (.createText (doc.createText content).1 content)
  | createComment content => some (.createComment (doc.createComment content).1)
  | setAttribute id name value => (doc.tag? id).map fun _ => .setAttribute id name value
  | removeAttribute id name => (doc.tag? id).map fun _ => .removeAttribute id name
  | setProperty id name value => (doc.tag? id).map fun _ => .setProperty id name value
  | setText id content =>
    if doc.contains id && (doc.tag? id).isNone then some (.setText id content) else none
  | appendChild parent child =>
    if doc.contains parent && doc.contains child then some (.appendChild parent child) else none
  | replaceNode old new =>
    if old = new || !doc.contains new then none
    else (doc.parent? old).map fun _ => .replaceNode old new
  | removeNode id => if doc.contains id then some (.removeNode id) else none
  | release id => if doc.contains id then some (.release id) else none
  | setHandler id event _ => if doc.contains id then some (.setHandler id event) else none
  | setHandlerData id event args =>
    if doc.contains id then some (.setHandlerData id event args) else none
  | setAnchors _ _ | addListener _ _ | ensureListening _ | takeJournal => none

/-- The entries that a call takes out of the journal. -/
def drained (doc : Document) : Operation → List Mutation
  | takeJournal => doc.entries
  | _ => []

/-- A write that only elements take. -/
def onElement (doc : Document) (id : NodeId)
    (write : String → List (String × String) → Table Value → Content) (m : Mutation) : Document :=
  match doc.get? id with
  | some { content := .element tag attributes properties, .. } =>
    (doc.modify id ({ · with content := write tag attributes properties })).record m
  | _ => doc

section
variable {doc : Document} {id : NodeId} {m : Mutation}
  {write : String → List (String × String) → Table Value → Content}

theorem onElement_replays {record : List Mutation} {doc' : Document} (h : doc.Replays record doc')
    (tagged : doc.tag? id ≠ none) (silent : ∀ x known, m.retext x known = known)
    (same : ∀ tag attributes properties written, (write tag attributes properties).Replays written
      (write tag attributes properties)) :
    (onElement doc id write m).Replays (record ++ [m]) (onElement doc' id write m) := by
  unfold tag? content? at tagged
  unfold onElement
  rcases rel_cases (h.get? id) with ⟨dead, -⟩ | ⟨n, n', live, live', rel⟩
  · rw [dead] at tagged
    exact absurd rfl tagged
  · rw [live] at tagged
    rw [live, live']
    obtain ⟨content, parent, children, handlers, handlerData, anchors⟩ := n
    obtain ⟨content', parent', children', handlers', handlerData', anchors'⟩ := n'
    cases rel.content with
    | element tag attributes properties =>
      exact h.write id (fun x known _ => silent x known) (same _ _ _ _)
    | text content => exact absurd rfl tagged
    | comment given => exact absurd rfl tagged

theorem journal_onElement : (onElement doc id write m).journal =
    ((doc.tag? id).map fun _ => m).elim doc.journal fun m => doc.journal.map (·.push m) := by
  unfold onElement tag? content?
  cases doc.get? id with
  | none => rfl
  | some n => obtain ⟨content, _⟩ := n; cases content <;> rfl

theorem onElement_idle (untagged : doc.tag? id = none) : onElement doc id write m = doc := by
  unfold tag? content? at untagged
  unfold onElement
  cases found : doc.get? id with
  | none => rfl
  | some n =>
    rw [found] at untagged
    obtain ⟨content, _⟩ := n
    cases content <;> first | rfl | cases untagged

end

theorem setText_replays {record : List Mutation} {doc doc' : Document} {id : NodeId}
    {content : String} (h : doc.Replays record doc') (live : doc.contains id = true)
    (plain : doc.tag? id = none) :
    (doc.setText id content).Replays (record ++ [.setText id content])
      (doc'.setText id content) := by
  have others (x : NodeId) (known : Option String) (other : x ≠ id) :
      (Mutation.setText id content).retext x known = known :=
    if_neg fun same => other same.symm
  have told : (Mutation.setText id content).retext id (rewritten record id) = some content :=
    if_pos rfl
  unfold Document.setText
  rcases rel_cases (h.get? id) with ⟨dead, -⟩ | ⟨n, n', found, found', rel⟩
  · obtain ⟨n, found⟩ := contains_iff.mp live
    rw [found] at dead
    cases dead
  · rw [tag?, content?, found] at plain
    rw [found, found']
    obtain ⟨old, parent, children, handlers, handlerData, anchors⟩ := n
    obtain ⟨old', parent', children', handlers', handlerData', anchors'⟩ := n'
    cases rel.content with
    | element tag attributes properties => cases plain
    | text old => exact h.write id others (.text content)
    | comment given =>
      refine h.write id others ?_
      rw [told]
      exact .comment ""

/-- A call that makes an entry, and the entry carried out in the other document. -/
theorem perform_replays {record : List Mutation} {doc doc' : Document} {operation : Operation}
    {m : Mutation} (entered : operation.noted? doc = some m) (h : doc.Replays record doc')
    (f : Function) :
    (operation.perform doc).Replays (record ++ [m]) ((m.call f).perform doc') := by
  cases operation with
  | createElement tag =>
    cases entered
    exact h.create (fun _ _ => rfl) (.element tag [] [])
  | createText content =>
    cases entered
    exact h.create (fun _ _ => rfl) (.text content)
  | createComment content =>
    cases entered
    exact h.create (fun _ _ => rfl) (.comment content)
  | setAttribute id name value =>
    obtain ⟨tag, tagged, rfl⟩ := Option.map_eq_some_iff.mp entered
    exact onElement_replays h (by rw [tagged]; exact Option.some_ne_none tag) (fun _ _ => rfl)
      fun _ _ _ _ => .element _ _ _
  | removeAttribute id name =>
    obtain ⟨tag, tagged, rfl⟩ := Option.map_eq_some_iff.mp entered
    exact onElement_replays h (by rw [tagged]; exact Option.some_ne_none tag) (fun _ _ => rfl)
      fun _ _ _ _ => .element _ _ _
  | setProperty id name value =>
    obtain ⟨tag, tagged, rfl⟩ := Option.map_eq_some_iff.mp entered
    exact onElement_replays h (by rw [tagged]; exact Option.some_ne_none tag) (fun _ _ => rfl)
      fun _ _ _ _ => .element _ _ _
  | setText id content =>
    obtain ⟨⟨live, plain⟩, rfl⟩ :
        (doc.contains id = true ∧ doc.tag? id = none) ∧ Mutation.setText id content = m := by
      simpa [noted?] using entered
    exact setText_replays h live plain
  | appendChild parent child =>
    obtain ⟨live, rfl⟩ : (doc.contains parent && doc.contains child) = true ∧
        Mutation.appendChild parent child = m := by
      simpa [noted?] using entered
    change (doc.appendChild parent child).Replays _ (doc'.appendChild parent child)
    unfold Document.appendChild
    rw [h.contains, h.contains, if_pos live, if_pos live]
    exact (((h.detach child).relink child (fun _ => some parent)
      (fun l => l)).relink parent (fun p => p)
      (fun l => l ++ [child])).silent (.appendChild parent child) fun _ _ => rfl
  | replaceNode old new =>
    change (if _ then none else _) = some m at entered
    split at entered
    · cases entered
    · rename_i proper
      obtain ⟨parent, held, rfl⟩ := Option.map_eq_some_iff.mp entered
      change (doc.replaceNode old new).Replays _ (doc'.replaceNode old new)
      unfold Document.replaceNode
      rw [h.contains, h.parent?, if_neg proper, if_neg proper, held]
      exact ((((h.detach new).relink parent (fun p => p)
        (replaceFirst old new)).relink old (fun _ => none)
        (fun l => l)).relink new (fun _ => some parent)
        (fun l => l)).silent (.replaceNode old new) fun _ _ => rfl
  | removeNode id =>
    obtain ⟨live, rfl⟩ : doc.contains id = true ∧ Mutation.removeNode id = m := by
      simpa [noted?] using entered
    change (doc.removeNode id).Replays _ (doc'.removeNode id)
    unfold Document.removeNode
    rw [h.contains, if_pos live, if_pos live]
    exact (h.detach id).silent (.removeNode id) fun _ _ => rfl
  | release id =>
    obtain ⟨live, rfl⟩ : doc.contains id = true ∧ Mutation.release id = m := by
      simpa [noted?] using entered
    change (doc.release id).2.Replays _ (doc'.release id).2
    unfold Document.release
    rw [h.contains, if_pos live, if_pos live]
    refine Replays.silent ?_ (.release id) fun _ _ => rfl
    exact Replays.freeAll (fun _ _ _ rel => rel.children) (h.detach id)
  | setHandler id event g =>
    obtain ⟨live, rfl⟩ : doc.contains id = true ∧ Mutation.setHandler id event = m := by
      simpa [noted?] using entered
    change (doc.setHandler id event g).Replays _ (doc'.setHandler id event f)
    unfold Document.setHandler
    rw [h.contains, if_pos live, if_pos live]
    refine Replays.silent (h.modify id (fun n n' rel => ?_) fun _ _ => rfl) (.setHandler id event)
      fun _ _ => rfl
    refine ⟨rel.content, rel.parent, rel.children, ?_, rel.handlerData⟩
    dsimp only
    rw [Table.names_insert, Table.names_insert, rel.handlers]
  | setHandlerData id event args =>
    obtain ⟨live, rfl⟩ : doc.contains id = true ∧ Mutation.setHandlerData id event args = m := by
      simpa [noted?] using entered
    change (doc.setHandlerData id event args).Replays _ (doc'.setHandlerData id event args)
    unfold Document.setHandlerData
    rw [h.contains, if_pos live, if_pos live]
    refine Replays.silent (h.modify id (fun n n' rel => ?_) fun _ _ => rfl)
      (.setHandlerData id event args) fun _ _ => rfl
    refine ⟨rel.content, rel.parent, rel.children, rel.handlers, ?_⟩
    dsimp only
    rw [rel.handlerData]
  | setAnchors root anchors => cases entered
  | addListener event listener => cases entered
  | ensureListening event => cases entered
  | takeJournal => cases entered

theorem journal_detach (doc : Document) (id : NodeId) : (doc.detach id).journal = doc.journal := by
  unfold detach
  split <;> rfl

theorem journal_record {doc doc' : Document} (h : doc'.journal = doc.journal) (m : Mutation) :
    (doc'.record m).journal = doc.journal.map (·.push m) := by
  rw [← h]
  rfl

/-- What a call does to the journal, when it does not take it. -/
theorem journal_perform (doc : Document) {operation : Operation} (keeps : operation ≠ takeJournal) :
    (operation.perform doc).journal =
      (operation.noted? doc).elim doc.journal fun m => doc.journal.map (·.push m) := by
  cases operation with
  | createElement tag => rfl
  | createText content => rfl
  | createComment content => rfl
  | setAttribute id name value => exact journal_onElement
  | removeAttribute id name => exact journal_onElement
  | setProperty id name value => exact journal_onElement
  | setText id content =>
    have live : doc.contains id = (doc.get? id).isSome := rfl
    simp only [perform, noted?, Document.setText, tag?, content?, live]
    cases doc.get? id with
    | none => rfl
    | some n => obtain ⟨content, _⟩ := n; cases content <;> rfl
  | appendChild parent child =>
    simp only [perform, noted?, Document.appendChild]
    split
    · exact journal_record (journal_detach doc child) _
    · rfl
  | replaceNode old new =>
    simp only [perform, noted?, Document.replaceNode]
    split
    · rfl
    · cases doc.parent? old with
      | none => rfl
      | some parent => exact journal_record (journal_detach doc new) _
  | removeNode id =>
    simp only [perform, noted?, Document.removeNode]
    split
    · exact journal_record (journal_detach doc id) _
    · rfl
  | release id =>
    simp only [perform, noted?, Document.release]
    split
    · exact journal_record (journal_detach doc id) _
    · rfl
  | setHandler id event f =>
    simp only [perform, noted?, Document.setHandler]
    split <;> rfl
  | setHandlerData id event args =>
    simp only [perform, noted?, Document.setHandlerData]
    split <;> rfl
  | setAnchors root anchors => rfl
  | addListener event listener => rfl
  | ensureListening event =>
    simp only [perform, noted?, Document.ensureListening]
    split <;> rfl
  | takeJournal => exact absurd rfl keeps

/-- Nothing gets lost: what a call takes out and what it leaves is what was there and its entry. -/
theorem entries_perform {doc : Document} (journaling : doc.isJournaling = true)
    (operation : Operation) :
    operation.drained doc ++ (operation.perform doc).entries =
        doc.entries ++ (operation.noted? doc).toList ∧
      (operation.perform doc).isJournaling = true := by
  obtain ⟨journal, kept⟩ := Option.isSome_iff_exists.mp journaling
  by_cases taken : operation = takeJournal
  · subst taken
    simp [drained, perform, noted?, Document.takeJournal, entries, isJournaling, kept]
  · have drains : operation.drained doc = [] := by
      cases operation <;> first | rfl | exact absurd rfl taken
    have grown := journal_perform doc taken
    rw [drains, entries, isJournaling, grown, entries, kept]
    cases operation.noted? doc <;> simp

/-- A call that makes no entry leaves every node as it is, but for its anchors. -/
theorem perform_idle {doc : Document} {operation : Operation}
    (idle : operation.noted? doc = none) :
    (operation.perform doc).nodes.Matches (fun _ => Node.SameButAnchors)
      doc.nodes := by
  have itself := Slots.Matches.refl (S := fun _ => Node.SameButAnchors)
    (fun _ _ => rfl) doc.nodes
  have still {doc' : Document} (same : doc' = doc) :
      doc'.nodes.Matches (fun _ => Node.SameButAnchors) doc.nodes := by
    rw [same]
    exact itself
  have guarded {guard : Bool} {m : Mutation} {doc' : Document}
      (none : (if guard then some m else none) = none) : (if guard then doc' else doc) = doc := by
    cases guard
    · rfl
    · cases none
  cases operation with
  | createElement tag => cases idle
  | createText content => cases idle
  | createComment content => cases idle
  | setAttribute id name value => exact still (onElement_idle (Option.map_eq_none_iff.mp idle))
  | removeAttribute id name => exact still (onElement_idle (Option.map_eq_none_iff.mp idle))
  | setProperty id name value => exact still (onElement_idle (Option.map_eq_none_iff.mp idle))
  | setText id content =>
    refine still ?_
    have live : doc.contains id = (doc.get? id).isSome := rfl
    simp only [noted?, tag?, content?, live] at idle
    simp only [perform, Document.setText]
    cases found : doc.get? id with
    | none => rfl
    | some n =>
      rw [found] at idle
      obtain ⟨content, _⟩ := n
      cases content <;> first | rfl | cases idle
  | appendChild parent child => exact still (guarded idle)
  | replaceNode old new =>
    refine still ?_
    simp only [perform, noted?, Document.replaceNode] at idle ⊢
    split
    · rfl
    · rename_i proper
      rw [if_neg proper] at idle
      rw [Option.map_eq_none_iff.mp idle]
  | removeNode id => exact still (guarded idle)
  | release id =>
    refine still ?_
    simp only [perform, noted?, Document.release] at idle ⊢
    split at idle
    · cases idle
    · rename_i dead
      rw [if_neg dead]
  | setHandler id event f => exact still (guarded idle)
  | setHandlerData id event args => exact still (guarded idle)
  | setAnchors root anchors =>
    refine itself.modify_left root fun n' n rel => ?_
    rw [rel]
    rfl
  | addListener event listener => exact itself
  | ensureListening event =>
    simp only [perform, Document.ensureListening]
    split <;> exact itself
  | takeJournal => exact itself

end Operation

theorem Replays.idle {record : List Mutation} {doc doc' : Document} (h : doc.Replays record doc')
    {operation : Operation} (idle : operation.noted? doc = none) :
    (operation.perform doc).Replays record doc' := by
  refine ((Operation.perform_idle idle).trans h).mono ?_
  rintro id n' n ⟨m, same, rel⟩
  rw [same]
  exact ⟨rel.content, rel.parent, rel.children, rel.handlers, rel.handlerData⟩

/-! ## Runs -/

/-- All entries of a run, those that calls took out of the journal and those left in it. -/
def recorded (doc : Document) : List Operation → List Mutation
  | [] => doc.entries
  | operation :: rest => operation.drained doc ++ (operation.perform doc).recorded rest

/-- The calls that a record names, in order. The handlers get whatever functions. -/
def replay (f : Nat → Function) (record : List Mutation) : List Operation :=
  record.mapIdx fun i m => m.call (f i)

theorem performAll_replay_concat (start : Document) (f : Nat → Function) (record : List Mutation)
    (m : Mutation) : start.performAll (replay f (record ++ [m])) =
      (m.call (f record.length)).perform (start.performAll (replay f record)) := by
  rw [replay, List.mapIdx_concat, performAll, List.foldl_append]
  rfl

/-- The run of a document, and its record carried out: `taken` is what was taken before. -/
theorem Replays.performAll (start : Document) (f : Nat → Function) (operations : List Operation)
    {doc : Document} (taken : List Mutation) (journaling : doc.isJournaling = true)
    (h : doc.Replays (taken ++ doc.entries)
      (start.performAll (replay f (taken ++ doc.entries)))) :
    (doc.performAll operations).Replays (taken ++ doc.recorded operations)
      (start.performAll (replay f (taken ++ doc.recorded operations))) := by
  induction operations generalizing doc taken with
  | nil => exact h
  | cons operation rest ih =>
    obtain ⟨grown, journaling'⟩ := operation.entries_perform journaling
    have step : (operation.perform doc).Replays
        (taken ++ operation.drained doc ++ (operation.perform doc).entries)
        (start.performAll
          (replay f (taken ++ operation.drained doc ++ (operation.perform doc).entries))) := by
      rw [List.append_assoc, grown, ← List.append_assoc]
      cases entered : operation.noted? doc with
      | none =>
        rw [Option.toList_none, List.append_nil]
        exact h.idle entered
      | some m =>
        rw [Option.toList_some, performAll_replay_concat]
        exact Operation.perform_replays entered h _
    have run := ih _ journaling' step
    rwa [List.append_assoc] at run

theorem replays_new (journaling : Bool) : (new true).Replays [] (new journaling) := by
  cases journaling <;> exact .empty

/-- Carrying out all entries of a journaling document, those taken before included, on a new
document gives the same live ids with the same links, contents, event names and arguments. All that
the entries do not tell is the text that a comment was created with, the functions of the handlers
and the anchors. In particular a call that enters nothing has changed nothing else. -/
theorem replay_performAll (operations : List Operation) (journaling : Bool) (f : Nat → Function) :
    let doc := (new true).performAll operations
    let record := (new true).recorded operations
    (∀ id, Option.Rel (Node.Replays (rewritten record id)) (doc.get? id)
      (((new journaling).performAll (replay f record)).get? id)) ∧
    ∀ operation : Operation,
      operation.drained doc ++ (operation.perform doc).entries =
        doc.entries ++ (operation.noted? doc).toList ∧
      (operation.noted? doc = none → ∀ id,
        Option.Rel Node.SameButAnchors ((operation.perform doc).get? id) (doc.get? id)) := by
  intro doc record
  have journal : ∀ (operations : List Operation) {doc : Document}, doc.isJournaling = true →
      (doc.performAll operations).isJournaling = true := by
    intro operations
    induction operations with
    | nil => exact id
    | cons operation rest ih => exact fun h => ih (operation.entries_perform h).2
  refine ⟨?_, fun operation => ⟨(operation.entries_perform (journal operations rfl)).1,
    fun idle => (Operation.perform_idle idle).get?⟩⟩
  have start : (new true).Replays ([] ++ (new true).entries)
      ((new journaling).performAll (replay f ([] ++ (new true).entries))) := replays_new journaling
  exact (Replays.performAll (new journaling) f operations [] rfl start).get?

end Document
end LiveTemplate
