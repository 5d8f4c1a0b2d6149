import LiveTemplate.Proofs.Runs

/-!
# LiveTemplate.Proofs.Agreement

Two live subtrees that stand for one subtree under one scope are the same tree, whatever history
each of them has. More generally, they are if they show the same and remember the same values.

  * `SameTree`                 two nodes, possibly of two documents, with the same tree below them
  * `Mount.Twins`              live subtrees that show the same and remember the same
  * `Subtree.Stands.sameTree`  twins that stand are the same tree
  * `Subtree.Under.twins`      live subtrees under one scope are twins
-/

namespace LiveTemplate

variable {κ : Type}

/-! ## The same tree -/

/-- The same content; references do not count, and neither does the sign of a zero. -/
def Value.Same (a b : Value) : Prop := Value.Alike (fun _ _ => True) a b ∨ Value.Close a b

/-- Arguments for the same events, the same in each place. -/
def SameArguments (data data' : Table (List Value)) : Prop :=
  ∀ event, data.lookup event = none ∧ data'.lookup event = none ∨
    ∃ as bs, data.lookup event = some as ∧ data'.lookup event = some bs ∧
      List.Forall₂ Value.Same as bs

/-- Two nodes that hold the same and keep the same arguments, with the same trees as children. -/
inductive SameTree (doc doc' : Document) : NodeId → NodeId → Prop
  | node {x y : NodeId} {n n' : Node} (found : doc.get? x = some n) (found' : doc'.get? y = some n')
      (content : n.content = n'.content) (data : SameArguments n.handlerData n'.handlerData)
      (length : n.children.length = n'.children.length)
      (children : ∀ p ∈ n.children.zip n'.children, SameTree doc doc' p.1 p.2) :
      SameTree doc doc' x y

/-! ## Values -/

theorem Value.Alike.eq_of_number {pairs : Pairing} {a : Value} {x : Float}
    (h : Value.Alike pairs a (.number x) ∨ Value.Alike pairs (.number x) a) : a = .number x := by
  rcases h with h | h <;> cases h <;> rfl

/-- What is alike stays the same when signs of zeros change on either side. -/
theorem Value.same_of_alike {pairs : Pairing} {a b c d : Value} (left : Value.Close a c)
    (h : Value.Alike pairs c d) (right : Value.Close b d) : Value.Same a b := by
  rcases left with rfl | ⟨x, y, rfl, rfl, left⟩
  · rcases right with rfl | ⟨z, w, rfl, rfl, right⟩
    · exact .inl (h.mono fun _ _ _ => trivial)
    · cases Value.Alike.eq_of_number (.inl h)
      exact .inr (.inr ⟨w, z, rfl, rfl, right.symm⟩)
  · cases Value.Alike.eq_of_number (.inr h)
    rcases right with rfl | ⟨z, w, rfl, same, right⟩
    · exact .inr (.inr ⟨x, y, rfl, rfl, left⟩)
    · cases same
      exact .inr (.inr ⟨x, z, rfl, rfl, left.trans right.symm⟩)

theorem Value.all_same_of_alike {pairs : Pairing} {as bs cs ds : List Value}
    (left : List.Forall₂ Value.Close as cs) (h : List.Forall₂ (Value.Alike pairs) cs ds)
    (right : List.Forall₂ Value.Close bs ds) : List.Forall₂ Value.Same as bs := by
  induction h generalizing as bs with
  | nil =>
    cases left
    cases right
    exact .nil
  | cons head _ ih =>
    cases left with
    | cons first left =>
      cases right with
      | cons last right => exact .cons (Value.same_of_alike first head last) (ih left right)

namespace Computed

variable {pairs : Pairing} {a b : Computed}

theorem Alike.text (h : Alike pairs a b) : a.text = b.text := by
  cases h with
  | value h => exact h.text
  | args h => rw [Computed.text, Computed.text, Value.map_text_eq (fun head => head.text) h]

theorem Alike.toArgs (h : Alike pairs a b) :
    List.Forall₂ (Value.Alike pairs) a.toArgs b.toArgs := by
  cases h with
  | value h => exact .cons h .nil
  | args h => exact h

end Computed

theorem Action.effect_alike {pairs : Pairing} {a b : Computed} (action : Action)
    (h : a.Alike pairs b) : action.effect a = action.effect b := by
  refine action.effect_congr h.text ?_
  cases h with
  | value h => exact congrArg some h.isTruthy
  | args h => rfl

theorem contentAfter_alike {pairs : Pairing} {values values' : List (Binding × Computed)}
    (h : ComputedAlike pairs values values') (c : Content) :
    contentAfter values c = contentAfter values' c := by
  induction h generalizing c with
  | nil => rfl
  | @cons p q values values' head _ ih =>
    have put : p.1.action.putContent p.2 c = q.1.action.putContent q.2 c := by
      unfold Action.putContent
      rw [← head.1, p.1.action.effect_alike head.2]
    calc contentAfter values (p.1.action.putContent p.2 c)
        = contentAfter values (q.1.action.putContent q.2 c) := by rw [put]
      _ = contentAfter values' (q.1.action.putContent q.2 c) := ih _

theorem Holds.same {pairs : Pairing} {values values' : List (Binding × Computed)}
    {data data' : Table (List Value)} (h : Holds values data) (h' : Holds values' data')
    (alike : ComputedAlike pairs values values') : SameArguments data data' := by
  intro event
  by_cases bound : ∃ p ∈ values, p.1.action.facet = .event event
  · obtain ⟨p, mem, facet⟩ := bound
    obtain ⟨q, mem', same, alike⟩ := exists_right alike mem
    obtain ⟨as, found, close⟩ := h.bound p mem event facet
    obtain ⟨bs, found', close'⟩ := h'.bound q mem' event (same ▸ facet)
    exact .inr ⟨as, bs, found, found', Value.all_same_of_alike close alike.toArgs close'⟩
  · refine .inl ⟨h.free event fun p mem facet => bound ⟨p, mem, facet⟩, h'.free event ?_⟩
    intro q mem facet
    obtain ⟨p, mem', same, _⟩ := exists_left alike mem
    exact bound ⟨p, mem', same ▸ facet⟩

/-! ## Instances -/

/-- Values for the same anchors, alike up to references. -/
def Snapshot.Twins (a b : Snapshot) : Prop :=
  a.template = b.template ∧
    ∃ pairs, List.Forall₂ (fun p q => p.1 = q.1 ∧ p.2.Alike pairs q.2) a.values b.values

/-- Live subtrees that show the same and remember the same values, each at nodes of its own. -/
inductive Mount.Twins : Mount → Mount → Prop
  | template {snapshot snapshot' : Option Snapshot} {ms ms' : List Mount} (x y : NodeId)
      (snapshots : Option.Rel Snapshot.Twins snapshot snapshot')
      (children : List.Forall₂ Mount.Twins ms ms') :
      Twins (.template x snapshot ms) (.template y snapshot' ms')
  | shown {m m' : Mount} (x y : NodeId) (body : Twins m m') :
      Twins (.conditional x (some m)) (.conditional y (some m'))
  | hidden (x y : NodeId) : Twins (.conditional x none) (.conditional y none)

theorem Plan.sizeOf_kid {p kid : Plan} (mem : kid ∈ p.kids) : sizeOf kid < sizeOf p := by
  cases p with
  | element tag attributes handlers kids anchor =>
    have smaller := List.sizeOf_lt_of_mem (show kid ∈ kids from mem)
    simp only [Plan.element.sizeOf_spec]
    omega
  | _ => cases mem

namespace Template

variable {t : Template} {pairs : Pairing} {doc doc' : Document} {place place' : List Nat → NodeId}
  {values values' : List (Binding × Computed)}

theorem snapshotOf_twins (alike : ComputedAlike pairs values values') (applied applied' : Nat) :
    (t.snapshotOf values applied).Twins (t.snapshotOf values' applied') := by
  refine ⟨rfl, pairs, ?_⟩
  simp only [snapshotOf, List.forall₂_map_left_iff, List.forall₂_map_right_iff]
  exact alike.imp fun p q h => ⟨congrArg Binding.anchor h.1, h.2⟩

theorem Remembers.twins {snapshot snapshot' : Option Snapshot} (h : t.Remembers snapshot values)
    (h' : t.Remembers snapshot' values') (passed : snapshot ≠ none) (passed' : snapshot' ≠ none)
    (alike : ComputedAlike pairs values values') : Option.Rel Snapshot.Twins snapshot snapshot' := by
  cases h with
  | nothing => exact absurd rfl passed
  | pass values applied =>
    cases h' with
    | nothing => exact absurd rfl passed'
    | pass values' applied' => exact .some (snapshotOf_twins alike applied applied')

/-- Twins were made for the same bindings, so their values correspond. -/
theorem Remembers.alike {snapshot snapshot' : Option Snapshot}
    (h : t.Remembers snapshot values) (h' : t.Remembers snapshot' values')
    (twins : Option.Rel Snapshot.Twins snapshot snapshot') :
    ∃ pairs, ComputedAlike pairs values values' := by
  cases h with
  | nothing =>
    cases h' with
    | nothing => exact ⟨fun _ _ => False, .nil⟩
    | pass => cases twins
  | pass values applied bound =>
    cases h' with
    | nothing => cases twins
    | pass values' applied' bound' =>
      obtain ⟨-, pairs, alike⟩ := Option.rel_some_some.mp twins
      simp only [snapshotOf, List.forall₂_map_left_iff, List.forall₂_map_right_iff] at alike
      refine ⟨pairs, ?_⟩
      have same := bound.trans bound'.symm
      clear twins bound bound'
      induction alike with
      | nil => exact .nil
      | cons head _ ih =>
        obtain ⟨first, rest⟩ := List.cons.inj same
        exact .cons ⟨first, head.2⟩ (ih rest)

/-- Two instances with values that are alike, given what is mounted in them. -/
theorem Own.sameTree (own : t.Own Terms.full doc place values) (own' : t.Own Terms.full doc' place' values')
    (alike : ComputedAlike pairs values values')
    (mounted : ∀ index q, (index, q) ∈ t.plan.holes → SameTree doc doc' (place q) (place' q))
    {p : Plan} {q : List Nat} (found : t.plan.at? q = some p) (solid : p.hole? = none) :
    SameTree doc doc' (place q) (place' q) := by
  obtain ⟨node, live, shows⟩ := own.node q p found solid
  obtain ⟨node', live', shows'⟩ := own'.node q p found solid
  have here : ComputedAlike pairs (t.valuesAt values q) (t.valuesAt values' q) :=
    List.rel_filter (fun {a b} same => by beta_reduce; rw [same.1]) alike
  refine .node live live' ?_ ((shows.data trivial).same (shows'.data trivial) here) ?_ ?_
  · rw [shows.content trivial trivial, shows'.content trivial trivial, contentAfter_alike here]
  · rw [shows.children, shows'.children, Plan.kidPlaces, Plan.kidPlaces, List.length_map,
      List.length_map]
  · rw [shows.children, shows'.children, Plan.kidPlaces, Plan.kidPlaces, List.zip_map']
    intro pair mem
    obtain ⟨i, hi, rfl⟩ := List.mem_map.mp mem
    have lt := List.mem_range.mp hi
    have kid : t.plan.at? (q ++ [i]) = some (p.kids.get ⟨i, lt⟩) := by
      rw [Plan.at?_snoc found]
      exact List.getElem?_eq_getElem _
    cases hole : (p.kids.get ⟨i, lt⟩).hole? with
    | none => exact Own.sameTree own own' alike mounted kid hole
    | some index => exact mounted index _ (Plan.mem_collect.mpr ⟨_, kid, hole⟩)
termination_by sizeOf p
decreasing_by exact Plan.sizeOf_kid (List.get_mem _ _)

end Template

section

variable {host : Host κ} {kept : Heap} {scope : Scope} {doc doc' : Document}

theorem Condition.Decides.unique (pure : host.Pure kept) {condition : Condition} {b b' : Bool}
    (h : condition.Decides host (fun _ => kept) scope b)
    (h' : condition.Decides host (fun _ => kept) scope b') : b = b' := by
  obtain ⟨s, s', heap, knows, run⟩ := h
  obtain ⟨t, t', heap', knows', run'⟩ := h'
  exact pure.holds knows.covers knows'.covers knows.fits knows'.fits run run'

theorem Template.Computes.alike (pure : host.Pure kept) {t : Template}
    {values values' : List (Binding × Computed)} (h : t.Computes host (fun _ => kept) scope values)
    (h' : t.Computes host (fun _ => kept) scope values') :
    ∃ pairs, ComputedAlike pairs values values' := by
  obtain ⟨s, s', heap, knows, run⟩ := h
  obtain ⟨r, r', heap', knows', run'⟩ := h'
  exact pure.computeAll knows.covers knows'.covers knows.fits knows'.fits run run'

mutual

/-- Live subtrees under one scope are twins. -/
theorem Subtree.Under.twins (pure : host.Pure kept) :
    ∀ {subtree : Subtree} {m m' : Mount}, subtree.Under host (fun _ => kept) scope m →
      subtree.Under host (fun _ => kept) scope m' → m.Twins m'
  | .template t, m, m', h, h' => Template.Under.twins pure h h'
  | .conditional condition body, .conditional x (some m), .conditional y (some m'), h, h' => by
    rw [Subtree.Under] at h h'
    exact .shown x y (Subtree.Under.twins pure h.2 h'.2)
  | .conditional condition body, .conditional x none, .conditional y none, _, _ => .hidden x y
  | .conditional condition body, .conditional x (some m), .conditional y none, h, h' => by
    rw [Subtree.Under] at h
    rw [Subtree.Under] at h'
    cases h.1.unique pure h'
  | .conditional condition body, .conditional x none, .conditional y (some m), h, h' => by
    rw [Subtree.Under] at h
    rw [Subtree.Under] at h'
    cases h.unique pure h'.1
  | .conditional condition body, .template _ _ _, _, h, _ => by
    rw [Subtree.Under] at h
    exact h.elim
  | .conditional condition body, .conditional _ _, .template _ _ _, _, h' => by
    rw [Subtree.Under] at h'
    exact h'.elim

theorem Template.Under.twins (pure : host.Pure kept) :
    ∀ {t : Template} {m m' : Mount}, (Subtree.template t).Under host (fun _ => kept) scope m →
      (Subtree.template t).Under host (fun _ => kept) scope m' → m.Twins m'
  | ⟨id, plan, bindings, anchors, extensions, events, handlers⟩, m, m', h, h' => by
    obtain ⟨root, snapshot, children, rfl, passed, ⟨values, remembers, computes⟩, inside⟩ :=
      Template.under_template.mp h
    obtain ⟨root', snapshot', children', rfl, passed', ⟨values', remembers', computes'⟩, inside'⟩ :=
      Template.under_template.mp h'
    obtain ⟨pairs, alike⟩ := computes.alike pure computes'
    exact .template root root' (remembers.twins remembers' passed passed' alike)
      (Extension.UnderAll.twins pure inside inside')

theorem Extension.UnderAll.twins (pure : host.Pure kept) :
    ∀ {extensions : List Extension} {ms ms' : List Mount},
      Extension.UnderAll host (fun _ => kept) scope extensions ms →
      Extension.UnderAll host (fun _ => kept) scope extensions ms' → List.Forall₂ Mount.Twins ms ms'
  | [], [], [], _, _ => .nil
  | ⟨path, name, subtree⟩ :: rest, m :: ms, m' :: ms', h, h' => by
    rw [Extension.UnderAll] at h h'
    exact .cons (Subtree.Under.twins pure h.1 h'.1) (Extension.UnderAll.twins pure h.2 h'.2)
  | [], _ :: _, _, h, _ => by rw [Extension.UnderAll] at h; exact h.elim
  | [], [], _ :: _, _, h' => by rw [Extension.UnderAll] at h'; exact h'.elim
  | _ :: _, [], _, h, _ => by rw [Extension.UnderAll] at h; exact h.elim
  | _ :: _, _ :: _, [], _, h' => by rw [Extension.UnderAll] at h'; exact h'.elim

end

mutual

/-- Twins that stand are the same tree. -/
theorem Subtree.Stands.sameTree :
    ∀ {subtree : Subtree} {m m' : Mount} {part part' : Set NodeId},
      subtree.Stands Terms.full doc m part → subtree.Stands Terms.full doc' m' part' →
      m.Twins m' → SameTree doc doc' m.node m'.node
  | .template t, m, m', part, part', h, h', twins => by
    rw [Subtree.Stands] at h h'
    exact Template.Stands.sameTree h h' twins
  | .conditional condition body, .conditional x (some m), .conditional y (some m'), part, part',
      h, h', .shown _ _ twins => by
    rw [Subtree.Stands] at h h'
    obtain ⟨rfl, h⟩ := h
    obtain ⟨rfl, h'⟩ := h'
    have same : SameTree doc doc' m.node m'.node := Subtree.Stands.sameTree h h' twins
    exact same
  | .conditional condition body, .conditional x none, .conditional y none, part, part', h, h', _ => by
    rw [Subtree.Stands] at h h'
    obtain ⟨_, n, found, content, leaf, _, data⟩ := h
    obtain ⟨_, n', found', content', leaf', _, data'⟩ := h'
    refine .node found found' ((content trivial).trans (content' trivial).symm) ?_ ?_ ?_
    · rw [data, data']
      exact fun event => .inl ⟨rfl, rfl⟩
    · rw [leaf, leaf']
    · rw [leaf, leaf']
      exact fun pair mem => (List.not_mem_nil mem).elim
  | .conditional condition body, .template _ _ _, _, part, part', h, _, _ => by
    rw [Subtree.Stands] at h
    exact h.elim

theorem Template.Stands.sameTree :
    ∀ {t : Template} {m m' : Mount} {part part' : Set NodeId},
      t.Stands Terms.full doc m part → t.Stands Terms.full doc' m' part' → m.Twins m' →
      SameTree doc doc' m.node m'.node
  | ⟨id, plan, bindings, anchors, extensions, events, handlers⟩, m, m', part, part',
      h, h', twins => by
    obtain ⟨root, snapshot, children, place, values, rest, rfl, rooted, _, mounted⟩ :=
      Template.stands_iff.mp h
    obtain ⟨root', snapshot', children', place', values', rest', rfl, rooted', _, mounted'⟩ :=
      Template.stands_iff.mp h'
    cases twins with
    | template _ _ snapshots inside =>
      obtain ⟨pairs, alike⟩ := rooted.remembers.alike rooted'.remembers snapshots
      have below := Extension.StandAll.sameTree mounted mounted' inside
      have top := rooted.own.sameTree rooted'.own alike (fun index q spot =>
        below index _ _ (rooted.filled index q spot) (rooted'.filled index q spot))
        (Plan.at?_nil _) rooted.own.solid
      rw [rooted.root, rooted'.root] at top
      exact top

theorem Extension.StandAll.sameTree :
    ∀ {extensions : List Extension} {ms ms' : List Mount} {part part' : Set NodeId},
      Extension.StandAll Terms.full doc extensions ms part →
      Extension.StandAll Terms.full doc' extensions ms' part' → List.Forall₂ Mount.Twins ms ms' →
      ∀ (index : Nat) (x y : NodeId), (ms.map Mount.node)[index]? = some x →
        (ms'.map Mount.node)[index]? = some y → SameTree doc doc' x y
  | ⟨path, name, subtree⟩ :: rest, _, _, part, part', h, h', .cons head tail => by
    rw [Extension.StandAll] at h h'
    obtain ⟨_, _, _, _, stands, others⟩ := h
    obtain ⟨_, _, _, _, stands', others'⟩ := h'
    intro index x y hx hy
    cases index with
    | zero =>
      cases hx
      cases hy
      exact Subtree.Stands.sameTree stands stands' head
    | succ index => exact Extension.StandAll.sameTree others others' tail index x y hx hy
  | _, _, _, part, part', _, _, .nil => fun _ _ _ hx _ => by cases hx
  | [], _, _, part, part', h, _, .cons _ _ => by rw [Extension.StandAll] at h; exact h.elim

end

/-- Live instances under one scope are the same tree. -/
theorem Template.Stands.same (pure : host.Pure kept) {t : Template} {m m' : Mount}
    {part part' : Set NodeId} (h : t.Stands Terms.full doc m part)
    (h' : t.Stands Terms.full doc' m' part')
    (under : (Subtree.template t).Under host (fun _ => kept) scope m)
    (under' : (Subtree.template t).Under host (fun _ => kept) scope m') :
    SameTree doc doc' m.node m'.node :=
  h.sameTree h' (under.twins pure under')

end
end LiveTemplate
