import LiveTemplate.Proofs.Writes

/-!
# LiveTemplate.Proofs.Passes

Writing only what changed. After a pass, every node holds what it would hold if all values had been
written to it afresh, in the order of the bindings; and the arguments kept for an event are those
of the last pass, up to the sign of zero.

  * `Computed.Close`         what counts as unchanged
  * `contentAfter_changes`   writing the changed values over the old ones is writing all of them
  * `Holds.changes`          the arguments that are kept afterwards
  * `renews`                 the values of two passes, one after the other
-/

namespace LiveTemplate

/-! ## Values that count as unchanged -/

theorem Value.map_text_eq {related : Value → Value → Prop}
    (same : ∀ {a b : Value}, related a b → a.text = b.text) {as bs : List Value}
    (h : List.Forall₂ related as bs) : as.map Value.text = bs.map Value.text := by
  induction h with
  | nil => rfl
  | cons head _ ih => rw [List.map_cons, List.map_cons, same head, ih]

/-- Equal, up to the signs of zeros. -/
inductive Computed.Close : Computed → Computed → Prop
  | value {a b : Value} (h : Value.Close a b) : Close (.value a) (.value b)
  | args {as bs : List Value} (h : List.Forall₂ Value.Close as bs) : Close (.args as) (.args bs)

namespace Computed

theorem close_of_identical {heap : Heap} {next : Ref} (sound : heap.Sound next) {a b : Computed}
    (fa : a.Fits heap) (fb : b.Fits heap) (h : a.identical b = true) : Close a b := by
  cases a with
  | value v =>
    cases b with
    | value w =>
      exact .value (Value.close_of_identical sound (fa v List.mem_cons_self)
        (fb w List.mem_cons_self) h)
    | args ws => cases h
  | args vs =>
    cases b with
    | value w => cases h
    | args ws =>
      simp only [Computed.identical, Bool.and_eq_true, beq_iff_eq, List.all_eq_true] at h
      refine .args (List.forall₂_iff_zip.mpr ⟨h.1, fun {v w} mem => ?_⟩)
      obtain ⟨hv, hw⟩ := List.of_mem_zip mem
      exact Value.close_of_identical sound (fa v hv) (fb w hw) (h.2 (v, w) mem)

theorem Close.text {a b : Computed} (h : Close a b) : a.text = b.text := by
  cases h with
  | value h => exact h.text
  | args h => rw [Computed.text, Computed.text, Value.map_text_eq (fun head => head.text) h]

theorem Close.toArgs {a b : Computed} (h : Close a b) : List.Forall₂ Value.Close a.toArgs b.toArgs := by
  cases h with
  | value h => exact .cons h .nil
  | args h => exact h

end Computed

theorem Value.Close.all_trans {as bs cs : List Value} (h : List.Forall₂ Value.Close as bs)
    (k : List.Forall₂ Value.Close bs cs) : List.Forall₂ Value.Close as cs := by
  induction h generalizing cs with
  | nil => exact k
  | cons head _ ih =>
    cases k with
    | cons head' rest' => exact .cons (head.trans head') (ih rest')

/-! ## One node -/

theorem Table.insert_insert {α : Type} (name : String) (v w : α) (table : Table α) :
    (table.insert name w).insert name v = table.insert name v := by
  have own (rest : Table α) : Table.insert name v ((name, w) :: rest) = (name, v) :: rest := by
    rw [Table.insert, if_neg (String.lt_irrefl name), if_pos rfl]
  induction table with
  | nil => exact own []
  | cons entry rest ih =>
    obtain ⟨other, held⟩ := entry
    rw [Table.insert, Table.insert]
    split
    · exact own _
    · rename_i after
      split
      · exact own _
      · rename_i differ
        rw [Table.insert, if_neg after, if_neg differ, ih]

namespace Document

theorem setEntry_overwrite (name v w : String) (entries : List (String × String)) :
    setEntry name v (setEntry name w entries) = setEntry name v entries := by
  induction entries with
  | nil => simp [setEntry]
  | cons entry rest ih =>
    obtain ⟨other, held⟩ := entry
    by_cases same : other = name
    · simp [setEntry, same]
    · simp [setEntry, same, ih]

/-- An entry that is there keeps its place, so the order of two writes does not show. -/
theorem setEntry_comm {name other v w : String} (differ : name ≠ other)
    {entries : List (String × String)} (there : name ∈ entries.map Prod.fst) :
    setEntry name v (setEntry other w entries) = setEntry other w (setEntry name v entries) := by
  induction entries with
  | nil => cases there
  | cons entry rest ih =>
    obtain ⟨key, held⟩ := entry
    by_cases first : key = name
    · subst first
      simp [setEntry, differ]
    · have there' : name ∈ rest.map Prod.fst := by
        simpa [Ne.symm first] using there
      by_cases second : key = other
      · subst second
        simp [setEntry, first]
      · simp [setEntry, first, second, ih there']

end Document

theorem withAttribute_overwrite (name v w : String) (c : Content) :
    (c.withAttribute name w).withAttribute name v = c.withAttribute name v := by
  cases c with
  | element tag attributes properties =>
    simp only [Content.withAttribute, Document.setEntry_overwrite]
  | _ => rfl

theorem withProperty_overwrite (name : String) (v w : Value) (c : Content) :
    (c.withProperty name w).withProperty name v = c.withProperty name v := by
  cases c with
  | element tag attributes properties => simp only [Content.withProperty, Table.insert_insert]
  | _ => rfl

theorem withAttribute_comm {name other v w : String} (differ : name ≠ other) {c : Content}
    (there : ∀ tag attributes properties, c = .element tag attributes properties →
      name ∈ attributes.map Prod.fst) :
    (c.withAttribute other w).withAttribute name v =
      (c.withAttribute name v).withAttribute other w := by
  cases c with
  | element tag attributes properties =>
    simp only [Content.withAttribute]
    rw [Document.setEntry_comm differ (there tag attributes properties rfl)]
  | _ => rfl

namespace Action

/-- Directives are given a single value. -/
def Suits (action : Action) (c : Computed) : Prop :=
  ∀ name directive e, action = .applyDirective name directive e → ∃ v, c = .value v

theorem effect_close (action : Action) {old new : Computed} (h : old.Close new) :
    action.effect old = action.effect new := by
  refine action.effect_congr h.text ?_
  cases h with
  | value h => exact congrArg some h.isTruthy
  | args h => rfl

theorem putContent_overwrite (action : Action) {old new : Computed} (suits : action.Suits new)
    (c : Content) : action.putContent new (action.putContent old c) = action.putContent new c := by
  cases action with
  | setEventData event args => rfl
  | setText content => cases c <;> rfl
  | replaceClass content => exact withAttribute_overwrite _ _ _ c
  | setAttribute name content => exact withAttribute_overwrite _ _ _ c
  | applyDirective name directive e =>
    cases directive with
    | host other => rfl
    | toggle =>
      obtain ⟨v, rfl⟩ := suits name .toggle e rfl
      cases old with
      | args vs => rfl
      | value w => exact withProperty_overwrite _ _ _ c

/-- The facet tells what a write can touch. -/
theorem facet_of_effect {action : Action} (builtin : action.isBuiltin = true) (v : Computed) :
    match action.effect v with
    | .nothing => True
    | .setText _ => action.facet = .text
    | .setAttribute name _ => action.facet = .attribute name
    | .setProperty _ _ => action.facet = .directive "show" := by
  cases action with
  | applyDirective name directive e =>
    cases directive with
    | host other => trivial
    | toggle =>
      have same : name = "show" := by simpa [isBuiltin] using builtin
      subst same
      cases v with
      | value v => rfl
      | args vs => trivial
  | setEventData event args => trivial
  | _ => rfl

/-- The attribute that the action writes has its place already. -/
def Settled (action : Action) : Content → Prop
  | .element _ attributes _ =>
    ∀ name, action.facet = .attribute name → name ∈ attributes.map Prod.fst
  | _ => True

theorem settled_putContent (action : Action) (v : Computed) (c : Content) :
    action.Settled (action.putContent v c) := by
  cases action with
  | replaceClass content =>
    cases c with
    | element tag attributes properties =>
      intro name same
      cases same
      exact Document.mem_names_setEntry.mpr (.inl rfl)
    | _ => trivial
  | setAttribute other content =>
    cases c with
    | element tag attributes properties =>
      intro name same
      cases same
      exact Document.mem_names_setEntry.mpr (.inl rfl)
    | _ => trivial
  | _ =>
    unfold Settled
    split
    · intro name same; cases same
    · trivial

theorem Settled.putContent {action : Action} {c : Content} (h : action.Settled c) (other : Action)
    (v : Computed) : action.Settled (other.putContent v c) := by
  unfold Action.putContent
  cases other.effect v with
  | nothing => exact h
  | setText content => cases c <;> exact h
  | setProperty name value => cases c <;> exact h
  | setAttribute name value =>
    cases c with
    | element tag attributes properties =>
      exact fun name same => Document.mem_names_setEntry.mpr (.inr (h name same))
    | _ => trivial

/-- Writes to two facets of one node can change places, once the attribute of the later one has
its place. -/
theorem putContent_comm {first second : Action} (builtin : first.isBuiltin = true)
    (builtin' : second.isBuiltin = true) (differ : first.facet ≠ second.facet) (v w : Computed)
    {c : Content} (settled : first.Settled c) :
    first.putContent v (second.putContent w c) = second.putContent w (first.putContent v c) := by
  have one := facet_of_effect builtin v
  have two := facet_of_effect builtin' w
  unfold putContent
  cases h : first.effect v with
  | nothing => rfl
  | setText content =>
    rw [h] at one
    cases k : second.effect w with
    | setText other => rw [k] at two; exact absurd (one.trans two.symm) differ
    | _ => cases c <;> rfl
  | setAttribute name value =>
    rw [h] at one
    cases k : second.effect w with
    | setAttribute other value' =>
      rw [k] at two
      refine withAttribute_comm (fun same => differ ?_) ?_
      · rw [one, two, same]
      · rintro tag attributes properties rfl
        exact settled name one
    | _ => cases c <;> rfl
  | setProperty name value =>
    rw [h] at one
    cases k : second.effect w with
    | setProperty other value' => rw [k] at two; exact absurd (one.trans two.symm) differ
    | _ => cases c <;> rfl

end Action

/-! ## All writes on one node -/

/-- A value and the one after it; if it counts as unchanged, it is. -/
def Renews (unchanged : Binding × Computed → Bool) (old new : Binding × Computed) : Prop :=
  old.1 = new.1 ∧ (unchanged new = true → old.2.Close new.2)

/-- No two write to the same facet. -/
def Apart (values : List (Binding × Computed)) : Prop :=
  values.Pairwise fun p q => p.1.action.facet ≠ q.1.action.facet

theorem exists_right {α β : Type} {R : α → β → Prop} {as : List α} {bs : List β}
    (rel : List.Forall₂ R as bs) {a : α} (mem : a ∈ as) : ∃ b ∈ bs, R a b := by
  induction rel with
  | nil => cases mem
  | cons head _ ih =>
    rcases List.mem_cons.mp mem with rfl | mem
    · exact ⟨_, List.mem_cons_self, head⟩
    · obtain ⟨b, hb, related⟩ := ih mem
      exact ⟨b, List.mem_cons_of_mem _ hb, related⟩

theorem exists_left {α β : Type} {R : α → β → Prop} {as : List α} {bs : List β}
    (rel : List.Forall₂ R as bs) {b : β} (mem : b ∈ bs) : ∃ a ∈ as, R a b :=
  exists_right (List.Forall₂.flip rel) mem

/-- A write moves in front of earlier ones to other facets. -/
theorem putContent_contentAfter {b : Binding} (builtin : b.action.isBuiltin = true) (v : Computed)
    {writes : List (Binding × Computed)}
    (others : ∀ p ∈ writes, p.1.action.isBuiltin = true ∧ b.action.facet ≠ p.1.action.facet)
    {c : Content} (settled : b.action.Settled c) :
    b.action.putContent v (contentAfter writes c) =
      contentAfter writes (b.action.putContent v c) := by
  induction writes generalizing c with
  | nil => rfl
  | cons p rest ih =>
    obtain ⟨builtin', differ⟩ := others p List.mem_cons_self
    have next := ih (fun q hq => others q (List.mem_cons_of_mem _ hq))
      (settled.putContent p.1.action p.2)
    calc b.action.putContent v (contentAfter rest (p.1.action.putContent p.2 c))
        = contentAfter rest (b.action.putContent v (p.1.action.putContent p.2 c)) := next
      _ = contentAfter rest (p.1.action.putContent p.2 (b.action.putContent v c)) := by
          rw [Action.putContent_comm builtin builtin' differ v p.2 settled]

/-- Writing what changed over the old values comes to writing all new ones. -/
theorem contentAfter_changes {unchanged : Binding × Computed → Bool}
    {olds news : List (Binding × Computed)} (rel : List.Forall₂ (Renews unchanged) olds news)
    (builtin : ∀ n ∈ news, n.1.action.isBuiltin = true)
    (suits : ∀ n ∈ news, n.1.action.Suits n.2) (apart : Apart news) (c : Content) :
    contentAfter (news.filter fun n => !unchanged n) (contentAfter olds c) =
      contentAfter news c := by
  induction rel generalizing c with
  | nil => rfl
  | @cons o n olds news head rel ih =>
    obtain ⟨apart, apart'⟩ := List.pairwise_cons.mp apart
    have next := ih (fun m hm => builtin m (List.mem_cons_of_mem _ hm))
      (fun m hm => suits m (List.mem_cons_of_mem _ hm)) apart'
    have own := builtin n List.mem_cons_self
    cases same : unchanged n with
    | true =>
      rw [List.filter_cons, same]
      have put : o.1.action.putContent o.2 c = n.1.action.putContent n.2 c := by
        unfold Action.putContent
        rw [head.1, n.1.action.effect_close (head.2 same)]
      calc contentAfter (news.filter fun m => !unchanged m)
            (contentAfter olds (o.1.action.putContent o.2 c))
          = contentAfter news (o.1.action.putContent o.2 c) := next _
        _ = contentAfter news (n.1.action.putContent n.2 c) := by rw [put]
    | false =>
      rw [List.filter_cons, same]
      have others : ∀ p ∈ olds, p.1.action.isBuiltin = true ∧
          n.1.action.facet ≠ p.1.action.facet := by
        intro p hp
        obtain ⟨m, hm, same, _⟩ := exists_right rel hp
        rw [same]
        exact ⟨builtin m (List.mem_cons_of_mem _ hm), apart m hm⟩
      have settled : n.1.action.Settled (o.1.action.putContent o.2 c) := by
        rw [head.1]
        exact n.1.action.settled_putContent o.2 c
      calc contentAfter (news.filter fun m => !unchanged m)
            (n.1.action.putContent n.2 (contentAfter olds (o.1.action.putContent o.2 c)))
          = contentAfter (news.filter fun m => !unchanged m)
              (contentAfter olds (n.1.action.putContent n.2 (o.1.action.putContent o.2 c))) := by
            rw [putContent_contentAfter own n.2 others settled]
        _ = contentAfter news (n.1.action.putContent n.2 (o.1.action.putContent o.2 c)) := next _
        _ = contentAfter news (n.1.action.putContent n.2 c) := by
            rw [head.1, n.1.action.putContent_overwrite (suits n List.mem_cons_self)]

/-! ## The arguments of handlers -/

theorem putData_of_event {action : Action} {event : String} (h : action.facet = .event event)
    (v : Computed) (data : Table (List Value)) :
    action.putData v data = data.insert event v.toArgs := by
  cases action <;> cases h
  rfl

theorem lookup_putData_of_ne {action : Action} {event : String} (h : action.facet ≠ .event event)
    (v : Computed) (data : Table (List Value)) :
    (action.putData v data).lookup event = data.lookup event := by
  cases action with
  | setEventData other args =>
    exact Table.lookup_insert_of_ne (fun same => h (by rw [same]; rfl)) _ _
  | _ => rfl

theorem lookup_dataAfter_of_ne {writes : List (Binding × Computed)} {event : String}
    (h : ∀ p ∈ writes, p.1.action.facet ≠ .event event) (data : Table (List Value)) :
    (dataAfter writes data).lookup event = data.lookup event := by
  induction writes generalizing data with
  | nil => rfl
  | cons p rest ih =>
    have next := ih (fun q hq => h q (List.mem_cons_of_mem _ hq)) (p.1.action.putData p.2 data)
    exact next.trans (lookup_putData_of_ne (h p List.mem_cons_self) p.2 data)

theorem lookup_dataAfter_of_mem {writes : List (Binding × Computed)} (apart : Apart writes)
    {p : Binding × Computed} (mem : p ∈ writes) {event : String}
    (h : p.1.action.facet = .event event) (data : Table (List Value)) :
    (dataAfter writes data).lookup event = some p.2.toArgs := by
  induction writes generalizing data with
  | nil => cases mem
  | cons q rest ih =>
    obtain ⟨first, apart⟩ := List.pairwise_cons.mp apart
    rcases List.mem_cons.mp mem with rfl | mem
    · have later : ∀ r ∈ rest, r.1.action.facet ≠ .event event :=
        fun r hr same => first r hr (h.trans same.symm)
      change (dataAfter rest (p.1.action.putData p.2 data)).lookup event = _
      rw [lookup_dataAfter_of_ne later, putData_of_event h, Table.lookup_insert_self]
    · exact ih apart mem (q.1.action.putData q.2 data)

/-- The arguments kept on a node are those of the values, up to the signs of zeros, and no event
without a value has any. -/
structure Holds (values : List (Binding × Computed)) (data : Table (List Value)) : Prop where
  bound : ∀ p ∈ values, ∀ event, p.1.action.facet = .event event →
    ∃ args, data.lookup event = some args ∧ List.Forall₂ Value.Close args p.2.toArgs
  free : ∀ event, (∀ p ∈ values, p.1.action.facet ≠ .event event) → data.lookup event = none

theorem Value.Close.all_refl (vs : List Value) : List.Forall₂ Value.Close vs vs :=
  List.forall₂_same.mpr fun v _ => .refl v

/-- All values are written. -/
theorem Holds.first {values : List (Binding × Computed)} {data : Table (List Value)}
    (empty : Holds [] data) (apart : Apart values) : Holds values (dataAfter values data) where
  bound := fun _ mem _ h => ⟨_, lookup_dataAfter_of_mem apart mem h data, Value.Close.all_refl _⟩
  free := fun event h => by
    rw [lookup_dataAfter_of_ne h]
    exact empty.free event fun _ mem => (List.not_mem_nil mem).elim

theorem Apart.eq {values : List (Binding × Computed)} (apart : Apart values)
    {p q : Binding × Computed} (hp : p ∈ values) (hq : q ∈ values)
    (same : p.1.action.facet = q.1.action.facet) : p = q := by
  by_contra differ
  have symm : Std.Symm fun p q : Binding × Computed => p.1.action.facet ≠ q.1.action.facet :=
    ⟨fun _ _ h => h.symm⟩
  exact List.Pairwise.forall apart hp hq differ same

/-- The values that changed are written. -/
theorem Holds.changes {unchanged : Binding × Computed → Bool}
    {olds news : List (Binding × Computed)} {data : Table (List Value)} (h : Holds olds data)
    (rel : List.Forall₂ (Renews unchanged) olds news) (apart : Apart news) :
    Holds news (dataAfter (news.filter fun n => !unchanged n) data) := by
  refine ⟨fun n mem event facet => ?_, fun event none => ?_⟩
  · cases same : unchanged n with
    | false =>
      have changed : n ∈ news.filter fun m => !unchanged m :=
        List.mem_filter.mpr ⟨mem, by rw [same]; rfl⟩
      exact ⟨_, lookup_dataAfter_of_mem (apart.filter _) changed facet data,
        Value.Close.all_refl _⟩
    | true =>
      obtain ⟨o, ho, renews⟩ := exists_left rel mem
      obtain ⟨args, found, close⟩ := h.bound o ho event (by rw [renews.1, facet])
      have skipped : ∀ p ∈ news.filter fun m => !unchanged m, p.1.action.facet ≠ .event event := by
        intro p hp facet'
        obtain ⟨hp, changed⟩ := List.mem_filter.mp hp
        rw [apart.eq hp mem (facet'.trans facet.symm), same] at changed
        cases changed
      refine ⟨args, (lookup_dataAfter_of_ne skipped data).trans found, ?_⟩
      exact Value.Close.all_trans close (renews.2 same).toArgs
  · have skipped : ∀ p ∈ news.filter fun m => !unchanged m, p.1.action.facet ≠ .event event :=
      fun p hp => none p (List.mem_filter.mp hp).1
    rw [lookup_dataAfter_of_ne skipped]
    refine h.free event fun o ho => ?_
    obtain ⟨n, hn, same, _⟩ := exists_right rel ho
    rw [same]
    exact none n hn

/-! ## The values of a pass -/

variable {κ : Type}

theorem Action.suits_of_compute {σ : Type} {calls : Calls σ} {env : String → Value}
    {action : Action} {s s' : σ} {c : Computed} (h : action.compute calls env s = .ok c s') :
    action.Suits c := by
  rintro name directive e rfl
  obtain ⟨v, t, _, last⟩ := ok_of_bind h
  cases last
  exact ⟨v, rfl⟩

/-- A pass has a value for every binding, in their order. -/
theorem Template.computeAll_values {host : Host κ} {env : String → Value}
    {bindings : List Binding} {s s' : Stage κ} {values : List (Binding × Computed)}
    (h : Template.computeAll host env bindings s = .ok values s') :
    values.map Prod.fst = bindings ∧ ∀ p ∈ values, p.1.action.Suits p.2 := by
  induction bindings generalizing s values with
  | nil =>
    cases h
    exact ⟨rfl, fun p hp => (List.not_mem_nil hp).elim⟩
  | cons b rest ih =>
    obtain ⟨c, s₁, first, h⟩ := ok_of_bind h
    obtain ⟨more, s₂, others, h⟩ := ok_of_bind h
    cases h
    obtain ⟨same, suits⟩ := ih others
    refine ⟨by rw [List.map_cons, same], fun p hp => ?_⟩
    rcases List.mem_cons.mp hp with rfl | hp
    · exact Action.suits_of_compute (Binding.compute_ok first)
    · exact suits p hp

theorem lookup_of_nodup {α β : Type} [BEq α] [LawfulBEq α] {l : List (α × β)} {k : α} {v : β}
    (nodup : (l.map Prod.fst).Nodup) (mem : (k, v) ∈ l) : l.lookup k = some v := by
  induction l with
  | nil => cases mem
  | cons head rest ih =>
    obtain ⟨fresh, nodup⟩ := List.nodup_cons.mp nodup
    rcases List.mem_cons.mp mem with rfl | mem
    · rw [List.lookup_cons, beq_self_eq_true]
    · have other : k ≠ head.1 := fun same => fresh (same ▸ List.mem_map_of_mem mem)
      rw [List.lookup_cons, beq_false_of_ne other]
      exact ih nodup mem

/-- The values of two passes, if those of the first are looked up for the second. -/
theorem renews_of_lookup {look : Anchor → Option Computed} {olds news : List (Binding × Computed)}
    (same : olds.map Prod.fst = news.map Prod.fst)
    (found : ∀ o ∈ olds, look o.1.anchor = some o.2)
    (close : ∀ o ∈ olds, ∀ n ∈ news, o.2.identical n.2 = true → o.2.Close n.2) :
    List.Forall₂ (Renews fun n => (look n.1.anchor).any (·.identical n.2)) olds news := by
  induction olds generalizing news with
  | nil =>
    cases news with
    | nil => exact .nil
    | cons n news => cases same
  | cons o olds ih =>
    cases news with
    | nil => cases same
    | cons n news =>
      obtain ⟨head, tail⟩ := List.cons.inj same
      refine .cons ⟨head, fun unchanged => ?_⟩ (ih tail
        (fun p hp => found p (List.mem_cons_of_mem _ hp))
        fun p hp q hq => close p (List.mem_cons_of_mem _ hp) q (List.mem_cons_of_mem _ hq))
      beta_reduce at unchanged
      rw [← head, found o List.mem_cons_self] at unchanged
      exact close o List.mem_cons_self n List.mem_cons_self unchanged

namespace Template

/-- The snapshot of a pass. -/
def snapshotOf (t : Template) (values : List (Binding × Computed)) (applied : Nat) : Snapshot :=
  ⟨t.id, values.map fun p => (p.1.anchor, p.2), applied⟩

theorem isUnchanged_eq (previous : Option Snapshot) (p : Binding × Computed) :
    p.1.isUnchanged previous p.2 =
      (previous.bind (·.get? p.1.anchor)).any (·.identical p.2) := by
  unfold Binding.isUnchanged
  cases previous.bind (·.get? p.1.anchor) <;> rfl

/-- A snapshot has the value of every binding. -/
theorem get?_snapshotOf {t : Template} {values : List (Binding × Computed)} (applied : Nat)
    (nodup : (t.bindings.map Binding.anchor).Nodup) (bound : values.map Prod.fst = t.bindings)
    {p : Binding × Computed} (mem : p ∈ values) :
    (t.snapshotOf values applied).get? p.1.anchor = some p.2 := by
  refine lookup_of_nodup ?_ (List.mem_map_of_mem mem)
  have keys : (values.map fun p => (p.1.anchor, p.2)).map Prod.fst =
      (values.map Prod.fst).map Binding.anchor := by
    rw [List.map_map, List.map_map]
    rfl
  change ((values.map fun p => (p.1.anchor, p.2)).map Prod.fst).Nodup
  rw [keys, bound]
  exact nodup

/-- The values of two passes, one after the other. -/
theorem renews {t : Template} {olds news : List (Binding × Computed)} (applied : Nat)
    (nodup : (t.bindings.map Binding.anchor).Nodup) (ho : olds.map Prod.fst = t.bindings)
    (hn : news.map Prod.fst = t.bindings) {heap : Heap} {next : Ref} (sound : heap.Sound next)
    (fo : ∀ p ∈ olds, p.2.Fits heap) (fn : ∀ p ∈ news, p.2.Fits heap) :
    List.Forall₂ (Renews fun p => p.1.isUnchanged (some (t.snapshotOf olds applied)) p.2)
      olds news := by
  have rel := renews_of_lookup (ho.trans hn.symm)
    (fun _ mem => get?_snapshotOf applied nodup ho mem) fun o ho n hn =>
      Computed.close_of_identical sound (fo o ho) (fn n hn)
  simp only [isUnchanged_eq]
  exact rel

end Template
end LiveTemplate
