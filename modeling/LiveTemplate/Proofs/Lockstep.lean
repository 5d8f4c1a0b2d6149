import LiveTemplate.Proofs.Agreement
import LiveTemplate.Proofs.Detachment

/-!
# LiveTemplate.Proofs.Lockstep

Creating and updating live subtrees on two stages under one scope. If the host is pure, twins stay
twins, and both runs stop at the same error or neither stops. It does not count at which nodes the
subtrees stand, nor what else is in the two documents.

Documents do not enter into the argument: all that a run learns from its document is whether an
anchor has a node. Outcomes in which one has not are set aside.

  * `Level`                outcomes that are abreast, unless an anchor was missed
  * `Coupling.Paced`       computations with such outcomes
  * `Subtree.lockstep`     creating and updating subtrees
-/

namespace LiveTemplate

variable {κ : Type}

/-! ## Outcomes -/

/-- An anchor was missed. -/
def Astray {σ α : Type} (r : EStateM.Result EvalError σ α) : Prop :=
  ∃ e s, r = .error e s ∧ e.isDetached = true

/-- Two outcomes that are abreast, unless an anchor was missed on one side. -/
inductive Level {σ τ α β : Type} (related : α → σ → β → τ → Prop)
    (r : EStateM.Result EvalError σ α) (r' : EStateM.Result EvalError τ β) : Prop
  | abreast (h : Abreast related r r')
  | left (h : Astray r)
  | right (h : Astray r')

theorem Astray.bind {σ α β : Type} {m : EStateM EvalError σ α} {f : α → EStateM EvalError σ β}
    {s : σ} (h : Astray (m s)) : Astray ((m >>= f) s) := by
  obtain ⟨e, s', run, detached⟩ := h
  exact ⟨e, s', bind_of_error run, detached⟩

namespace Level

variable {σ τ α β γ δ : Type} {related related' : α → σ → β → τ → Prop}
  {after : γ → σ → δ → τ → Prop}

theorem outcomes {r : EStateM.Result EvalError σ α} {r' : EStateM.Result EvalError τ β}
    (h : Level related r r') :
    (∃ a s b t, r = .ok a s ∧ r' = .ok b t ∧ related a s b t) ∨
      (∃ e s t, r = .error e s ∧ r' = .error e t) ∨ Astray r ∨ Astray r' := by
  cases h with
  | abreast h => exact h.outcomes.imp_right .inl
  | left h => exact .inr (.inr (.inl h))
  | right h => exact .inr (.inr (.inr h))

theorem imp {r : EStateM.Result EvalError σ α} {r' : EStateM.Result EvalError τ β}
    (h : Level related r r') (weaker : ∀ a s b t, related a s b t → related' a s b t) :
    Level related' r r' := by
  cases h with
  | abreast h => exact .abreast (h.imp weaker)
  | left h => exact .left h
  | right h => exact .right h

theorem bind {m : EStateM EvalError σ α} {n : EStateM EvalError τ β}
    {f : α → EStateM EvalError σ γ} {g : β → EStateM EvalError τ δ} {s : σ} {t : τ}
    (h : Level related (m s) (n t))
    (next : ∀ a s' b t', related a s' b t' → Level after (f a s') (g b t')) :
    Level after ((m >>= f) s) ((n >>= g) t) := by
  rcases h.outcomes with ⟨a, s', b, t', hm, hn, rel⟩ | ⟨e, s', t', hm, hn⟩ | astray | astray
  · rw [bind_of_ok hm, bind_of_ok hn]
    exact next a s' b t' rel
  · rw [bind_of_error hm, bind_of_error hn]
    exact .abreast (.error e s' t')
  · exact .left astray.bind
  · exact .right astray.bind

end Level

namespace Coupling

variable {σ α β γ δ : Type} {calls : Calls σ}

/-- Computations that go on in step, unless an anchor is missed on one side. -/
def Paced (c : Coupling calls) (base : Pairing) (related : Pairing → α → β → Prop)
    (m : Eval σ α) (n : Eval σ β) : Prop :=
  ∀ pairs s t, pairs.Extends base → c.holds pairs s t → Level (c.Joint pairs related) (m s) (n t)

variable {c : Coupling calls} {base : Pairing} {related : Pairing → α → β → Prop}
  {after : Pairing → γ → δ → Prop}

theorem InStep.paced {m : Eval σ α} {n : Eval σ β} (h : c.InStep base related m n) :
    c.Paced base related m n :=
  fun pairs s t up holds => .abreast (h pairs s t up holds)

/-- What is known of the results on each side. -/
theorem InStep.results {m : Eval σ α} {n : Eval σ β} (h : c.InStep base related m n)
    {left : α → Prop} {right : β → Prop} (hm : ∀ s a s', m s = .ok a s' → left a)
    (hn : ∀ t b t', n t = .ok b t' → right b) :
    c.InStep base (fun pairs a b => related pairs a b ∧ left a ∧ right b) m n := by
  intro pairs s t up holds
  rcases (h pairs s t up holds).outcomes with ⟨a, s', b, t', run, run', joint⟩ | ⟨e, s', t', run, run'⟩
  · obtain ⟨more, grown, holds', rel⟩ := joint
    rw [run, run']
    exact .ok ⟨more, grown, holds', rel, hm s a s' run, hn t b t' run'⟩
  · rw [run, run']
    exact .error e s' t'

theorem Paced.bind {m : Eval σ α} {n : Eval σ β} {f : α → Eval σ γ} {g : β → Eval σ δ}
    (h : c.Paced base related m n)
    (next : ∀ pairs : Pairing, pairs.Extends base → ∀ a b, related pairs a b →
      c.Paced pairs after (f a) (g b)) :
    c.Paced base after (m >>= f) (n >>= g) := by
  intro pairs s t up holds
  refine (h pairs s t up holds).bind ?_
  rintro a s' b t' ⟨more, grown, holds', rel⟩
  refine (next more (up.trans grown) a b rel more s' t' (.refl more) holds').imp ?_
  rintro v s'' w t'' ⟨most, grown', holds'', rel'⟩
  exact ⟨most, grown.trans grown', holds'', rel'⟩

/-- Two updates that both succeed or both stop at the same error, and leave behind what is related.
An anchor may be missed on one side. -/
inductive Paired (c : Coupling calls) (pairs : Pairing) (related : α → β → Prop) :
    Updated α × σ → Updated β × σ → Prop
  | done {a : α} {b : β} {s t : σ} {more : Pairing} (grown : more.Extends pairs)
      (holds : c.holds more s t) (h : related a b) :
      Paired c pairs related (⟨a, none⟩, s) (⟨b, none⟩, t)
  | stopped {a : α} {b : β} {s t : σ} (e : EvalError) (h : related a b) :
      Paired c pairs related (⟨a, some e⟩, s) (⟨b, some e⟩, t)
  | left {a : α} {s : σ} {e : EvalError} {v : Updated β × σ} (detached : e.isDetached = true) :
      Paired c pairs related (⟨a, some e⟩, s) v
  | right {b : β} {t : σ} {e : EvalError} {u : Updated α × σ} (detached : e.isDetached = true) :
      Paired c pairs related u (⟨b, some e⟩, t)

/-- Two updates as parts of larger ones. -/
theorem Paired.map {α' β' : Type} {pairs more : Pairing} {related : α → β → Prop}
    {related' : α' → β' → Prop} {u : Updated α × σ} {v : Updated β × σ}
    (h : c.Paired more related u v) (grown : more.Extends pairs) (f : α → α') (g : β → β')
    (lift : ∀ a b, related a b → related' (f a) (g b)) :
    c.Paired pairs related' (⟨f u.1.live, u.1.error⟩, u.2) (⟨g v.1.live, v.1.error⟩, v.2) := by
  cases h with
  | done grown' holds h => exact .done (grown.trans grown') holds (lift _ _ h)
  | stopped e h => exact .stopped e (lift _ _ h)
  | left detached => exact .left detached
  | right detached => exact .right detached

end Coupling

/-! ## Building -/

namespace Plan

/-- Nothing but the scope counts. -/
def Even {α β : Type} (m : Construction α) (n : Construction β) : Prop :=
  ∀ site site', Abreast (fun _ _ _ _ => True) (m site) (n site')

theorem Even.bind {α β γ δ : Type} {m : Construction α} {n : Construction β}
    {f : α → Construction γ} {g : β → Construction δ} (h : Even m n)
    (next : ∀ a b, Even (f a) (g b)) : Even (m >>= f) (n >>= g) :=
  fun site site' => (h site site').bind fun a s b t _ => next a b s t

theorem Even.loop {α : Type} {body body' : α → PUnit → Construction (ForInStep PUnit)}
    (turn : ∀ a site site', Abreast (fun r _ r' _ => r = .yield ⟨⟩ ∧ r' = .yield ⟨⟩)
      (body a ⟨⟩ site) (body' a ⟨⟩ site')) (xs : List α) :
    Even (forIn xs PUnit.unit body) (forIn xs PUnit.unit body') := by
  induction xs with
  | nil => exact fun _ _ => .ok trivial
  | cons a rest ih =>
    intro site site'
    rw [List.forIn_cons, List.forIn_cons]
    refine (turn a site site').bind ?_
    rintro _ s _ t ⟨rfl, rfl⟩
    exact ih s t

theorem wire_even (scope : Scope) (id id' : NodeId) (w : Wiring) :
    Even (wire scope id w) (wire scope id' w) := by
  intro site site'
  unfold wire
  cases scope.read w.handler with
  | function f => exact .ok trivial
  | _ => exact .error _ _ _

theorem remember_even (anchor : Option Nat) (id id' : NodeId) :
    Even (remember anchor id) (remember anchor id') := by
  intro site site'
  cases anchor with
  | none => exact .ok trivial
  | some slot => exact .ok trivial

mutual

theorem build_even (scope : Scope) : ∀ plan : Plan, Even (build scope plan) (build scope plan)
  | .element tag attributes handlers kids anchor => by
    rw [build]
    refine Even.bind (fun _ _ => .ok trivial) fun id id' => ?_
    refine Even.bind (Even.loop (fun a _ _ => .ok ⟨rfl, rfl⟩) attributes) fun _ _ => ?_
    refine Even.bind (Even.loop (fun w site site' => ?_) handlers) fun _ _ => ?_
    · exact (wire_even scope id id' w site site').bind fun _ _ _ _ _ => .ok ⟨rfl, rfl⟩
    · refine Even.bind (buildChildren_even scope id id' kids) fun _ _ => ?_
      exact (remember_even anchor id id').bind fun _ _ _ _ => .ok trivial
  | .text content anchor => by
    rw [build]
    refine Even.bind (fun _ _ => .ok trivial) fun id id' => ?_
    exact (remember_even anchor id id').bind fun _ _ _ _ => .ok trivial
  | .comment content => fun _ _ => .ok trivial
  | .placeholder index => fun _ _ => .ok trivial

theorem buildChildren_even (scope : Scope) (parent parent' : NodeId) : ∀ plans : List Plan,
    Even (buildChildren scope parent plans) (buildChildren scope parent' plans)
  | [] => fun _ _ => .ok trivial
  | plan :: rest => by
    rw [buildChildren, buildChildren]
    refine (build_even scope plan).bind fun id id' => ?_
    refine Even.bind (fun _ _ => .ok trivial) fun _ _ => ?_
    exact buildChildren_even scope parent parent' rest

end

end Plan

namespace Template

theorem detached_of_anchorNodes {root : NodeId} {anchored : List (Nat × NodeId)}
    {paths : List Path} {slot : Nat} {e : EvalError}
    (run : anchorNodes root anchored paths slot = .error e) : e.isDetached = true := by
  induction paths generalizing slot with
  | nil => cases run
  | cons path rest ih =>
    unfold anchorNodes at run
    split at run
    · cases run
      rfl
    · cases others : anchorNodes root anchored rest (slot + 1) with
      | error e' =>
        rw [others] at run
        cases run
        exact ih others
      | ok nodes =>
        rw [others] at run
        cases run

/-- Whether the nodes of a template can be built is up to the scope. -/
theorem buildPlan_level (scope : Scope) (t : Template) (site site' : Site) :
    Level (fun _ _ _ _ => True) (t.buildPlan scope site) (t.buildPlan scope site') := by
  have both {α β : Type} {m : Construction α} {n : Construction β} {s t' : Site}
      (h : Abreast (fun _ _ _ _ => True) (m s) (n t')) :
      Level (fun _ _ _ _ => True) (m s) (n t') := .abreast h
  unfold buildPlan
  refine (both (m := Plan.write t.listen) (n := Plan.write t.listen) (.ok trivial)).bind
    fun _ s₁ _ t₁ _ => ?_
  refine (both (t.plan.build_even scope s₁ t₁)).bind fun root s₂ root' t₂ _ => ?_
  refine (both (m := get) (n := get) (.ok trivial)).bind fun now s₃ now' t₃ _ => ?_
  cases run : anchorNodes root now.anchored t.anchors 0 with
  | error e => exact .left (Astray.bind ⟨e, s₃, rfl, detached_of_anchorNodes run⟩)
  | ok nodes =>
    cases run' : anchorNodes root' now'.anchored t.anchors 0 with
    | error e => exact .right (Astray.bind ⟨e, t₃, rfl, detached_of_anchorNodes run'⟩)
    | ok nodes' => exact .abreast (.ok trivial)

end Template

theorem Construction.onStage_level {α : Type} {construction : Construction α} {s t : Stage κ}
    (h : Level (fun _ _ _ _ => True) (construction { document := s.document })
      (construction { document := t.document })) :
    Level (fun _ s' _ t' => s'.nextRef = s.nextRef ∧ t'.nextRef = t.nextRef)
      (construction.onStage s) (construction.onStage t) := by
  unfold Construction.onStage
  rcases h.outcomes with ⟨a, site, b, site', run, run', _⟩ | ⟨e, site, site', run, run'⟩ |
    ⟨e, site, run, detached⟩ | ⟨e, site, run, detached⟩
  · rw [run, run']
    exact .abreast (.ok ⟨rfl, rfl⟩)
  · rw [run, run']
    exact .abreast (.error e _ _)
  · rw [run]
    exact .left ⟨e, _, rfl, detached⟩
  · rw [run]
    exact .right ⟨e, _, rfl, detached⟩

/-! ## Steps that leave references alone -/

/-- The references are left alone, unless an anchor is missed. -/
def Settles {α : Type} (m : Eval (Stage κ) α) : Prop :=
  ∀ s, (∃ a s', m s = .ok a s' ∧ s'.nextRef = s.nextRef) ∨ Astray (m s)

namespace Host.Pure

variable {α β : Type} {host : Host κ} {kept : Heap} {base : Pairing}

theorem paced_of_level (pure : host.Pure kept) {m : Eval (Stage κ) α} {n : Eval (Stage κ) β}
    (h : ∀ s t, Level (fun _ s' _ t' => s'.nextRef = s.nextRef ∧ t'.nextRef = t.nextRef)
      (m s) (n t)) : pure.coupling.Paced base (fun _ _ _ => True) m n := by
  intro pairs s t up holds
  refine (h s t).imp ?_
  rintro a s' b t' ⟨same, same'⟩
  refine ⟨pairs, .refl pairs, ?_, trivial⟩
  change pairs.Sound s'.nextRef t'.nextRef ∧ ∀ v, kept v → pairs v v
  rw [same, same']
  exact holds

theorem paced_of_settles (pure : host.Pure kept) {m : Eval (Stage κ) α} {n : Eval (Stage κ) β}
    (h : Settles m) (h' : Settles n) : pure.coupling.Paced base (fun _ _ _ => True) m n := by
  refine pure.paced_of_level fun s t => ?_
  rcases h s with ⟨a, s', run, same⟩ | astray
  · rcases h' t with ⟨b, t', run', same'⟩ | astray
    · rw [run, run']
      exact .abreast (.ok ⟨same, same'⟩)
    · exact .right astray
  · exact .left astray

end Host.Pure

theorem settles_modifyGet {α : Type} {f : Stage κ → α × Stage κ}
    (same : ∀ s, (f s).2.nextRef = s.nextRef) :
    Settles (modifyGet f : Eval (Stage κ) α) :=
  fun s => .inl ⟨(f s).1, (f s).2, rfl, same s⟩

theorem Template.applyAll_settles (host : Host κ) (root : NodeId) (previous : Option Snapshot)
    {values : List (Binding × Computed)}
    (builtin : ∀ p ∈ values, p.1.action.isBuiltin = true) :
    Settles (applyAll host root previous values) := by
  induction values with
  | nil => exact fun s => .inl ⟨0, s, rfl, rfl⟩
  | cons p rest ih =>
    have others := ih fun q mem => builtin q (List.mem_cons_of_mem p mem)
    intro s
    rw [applyAll]
    split
    · exact others s
    · cases found : p.1.node? s.document root with
      | none =>
        have missed : p.1.applyTo host root p.2 s = .error (.detachedAnchor p.1.anchor.text root) s := by
          rw [Binding.applyTo, found]
        exact .inr (Astray.bind ⟨_, s, missed, rfl⟩)
      | some id =>
        have wrote : p.1.applyTo host root p.2 s =
            .ok () (s.edit (p.1.action.writeTo id p.2)) := by
          rw [Binding.applyTo, found]
          dsimp only
          rw [Binding.write_own host id p.2
            (Action.not_hosted_of_builtin (builtin p List.mem_cons_self))]
        rw [bind_of_ok wrote]
        rcases others (s.edit (p.1.action.writeTo id p.2)) with ⟨n, s', run, same⟩ | astray
        · exact .inl ⟨n + 1, s', bind_of_ok run, same⟩
        · exact .inr astray.bind

/-! ## Conditions and passes -/

/-- What the scope names is paired with itself. -/
def Scope.Common (pairs : Pairing) (scope : Scope) : Prop :=
  ∀ name, Value.Alike pairs (scope.read name) (scope.read name)

theorem Scope.Common.mono {pairs more : Pairing} {scope : Scope} (h : scope.Common pairs)
    (le : more.Extends pairs) : scope.Common more := fun name => (h name).mono le

theorem Scope.Common.narrow {pairs : Pairing} {scope : Scope} (h : scope.Common pairs)
    (names : List String) : (scope.narrow names).Common pairs := by
  intro name
  rcases scope.read_narrow_cases names name with same | same
  · rw [same]
    exact .scalar _ rfl
  · rw [same]
    exact h name

section

open Coupling

variable {host : Host κ} {kept : Heap} {scope : Scope} {base : Pairing}

theorem Condition.check_inStep (c : Coupling host.calls) (common : scope.Common base)
    (condition : Condition) :
    c.InStep base (fun _ a b => a = b) (condition.check host scope)
      (condition.check host scope) := by
  intro pairs s t up holds
  unfold Condition.check
  rcases (condition.holds_inStep c common pairs s t up holds).outcomes with
    ⟨a, s', b, t', hm, hn, joint⟩ | ⟨e, s', t', hm, hn⟩
  · rw [hm, hn]
    exact .ok joint
  · rw [hm, hn]
    exact .error _ s' t'

variable {t : Template}

namespace Template

/-- The snapshot of another template is refused on both sides. -/
theorem foreign_iff {previous previous' : Option Snapshot}
    (twins : Option.Rel Snapshot.Twins previous previous') (id : TemplateId) :
    previous.any (·.template ≠ id) = previous'.any (·.template ≠ id) := by
  cases twins with
  | none => rfl
  | some twins => simp only [Option.any_some, twins.1]

theorem update_of_own {previous : Option Snapshot} (own : ¬previous.any (·.template ≠ t.id) = true)
    (root : NodeId) :
    t.update host scope root previous = (do
      let news ← computeAll host (scope.narrow t.vars).read t.bindings
      let applied ← applyAll host root previous news
      return t.snapshotOf news applied) := by
  unfold update
  rw [if_neg own]
  rfl

theorem update_paced (pure : host.Pure kept) (builtin : ∀ b ∈ t.bindings, b.action.isBuiltin = true)
    (common : scope.Common base) {previous previous' : Option Snapshot}
    (twins : Option.Rel Snapshot.Twins previous previous') (root root' : NodeId) :
    pure.coupling.Paced base (fun _ => Snapshot.Twins) (t.update host scope root previous)
      (t.update host scope root' previous') := by
  by_cases foreign : previous.any (·.template ≠ t.id) = true
  · have foreign' := (foreign_iff twins t.id).symm.trans foreign
    unfold update
    rw [if_pos foreign, if_pos foreign']
    exact (inStep_throw _).paced
  · have own' := (foreign_iff twins t.id) ▸ foreign
    rw [update_of_own foreign, update_of_own own']
    have known (s : Stage κ) (news : List (Binding × Computed)) (s₁ : Stage κ)
        (run : computeAll host (scope.narrow t.vars).read t.bindings s = .ok news s₁) :
        ∀ p ∈ news, p.1.action.isBuiltin = true := fun p mem =>
      builtin p.1 ((computeAll_values run).1 ▸ List.mem_map_of_mem mem)
    have values := computeAll_inStep pure.coupling (common.narrow t.vars) t.bindings
    refine (values.results known known).paced.bind ?_
    rintro more _ news news' ⟨alike, own, own'⟩
    refine (pure.paced_of_settles (applyAll_settles host root previous own)
      (applyAll_settles host root' previous' own')).bind fun _ _ n n' _ => ?_
    exact (inStep_pure fun _ _ => snapshotOf_twins alike n n').paced

end Template

/-! ## Subtrees -/

section

variable (pure : host.Pure kept) (scope : Scope)

/-- What is created on two stages is twins. -/
def Subtree.CreatesTwins (subtree : Subtree) : Prop :=
  ∀ base, scope.Common base → pure.coupling.Paced base (fun _ => Mount.Twins)
    (subtree.create host scope) (subtree.create host scope)

/-- Twins that are updated are twins afterwards. -/
def Subtree.UpdatesTwins (subtree : Subtree) : Prop :=
  ∀ pairs m m' s t, scope.Common pairs → pure.coupling.holds pairs s t → m.Twins m' →
    pure.coupling.Paired pairs Mount.Twins (subtree.update host scope m s)
      (subtree.update host scope m' t)

def Extension.CreatesAllTwins (extensions : List Extension) : Prop :=
  ∀ base placeholders placeholders' index, scope.Common base →
    pure.coupling.Paced base (fun _ => List.Forall₂ Mount.Twins)
      (Extension.createAll host scope placeholders index extensions)
      (Extension.createAll host scope placeholders' index extensions)

def Extension.UpdatesAllTwins (extensions : List Extension) : Prop :=
  ∀ pairs ms ms' s t, scope.Common pairs → pure.coupling.holds pairs s t →
    List.Forall₂ Mount.Twins ms ms' →
    pure.coupling.Paired pairs (List.Forall₂ Mount.Twins)
      (Extension.updateAll host scope extensions ms s)
      (Extension.updateAll host scope extensions ms' t)

end

variable {pure : host.Pure kept}

theorem Extension.createsAllTwins_nil : Extension.CreatesAllTwins pure scope [] := by
  intro base placeholders placeholders' index _
  rw [Extension.createAll, Extension.createAll]
  exact (inStep_pure fun _ _ => .nil).paced

theorem Extension.createsAllTwins_cons {path : Path} {name : String} {subtree : Subtree}
    {extensions : List Extension} (creates : subtree.CreatesTwins pure scope)
    (rest : Extension.CreatesAllTwins pure scope extensions) :
    Extension.CreatesAllTwins pure scope (⟨path, name, subtree⟩ :: extensions) := by
  intro base placeholders placeholders' index common
  have swap (found : Option NodeId) (m : Mount) : Settles
      (modify (found.elim id fun placeholder => (·.edit (swapNodes placeholder m.node))) :
        Eval (Stage κ) PUnit) :=
    settles_modifyGet fun s => by cases found <;> rfl
  rw [Extension.createAll_cons, Extension.createAll_cons]
  refine (creates base common).bind fun pairs up m m' twins => ?_
  refine (pure.paced_of_settles (swap _ m) (swap _ m')).bind fun more grown _ _ _ => ?_
  refine (rest more placeholders placeholders' (index + 1)
    ((common.mono up).mono grown)).bind fun _ _ ms ms' others => ?_
  exact (inStep_pure fun _ _ => .cons twins others).paced

theorem Extension.updatesAllTwins_nil : Extension.UpdatesAllTwins pure scope [] := by
  intro pairs ms ms' s t _ holds twins
  rw [Extension.updateAll_nil, Extension.updateAll_nil]
  exact .done (.refl pairs) holds twins

theorem Extension.updatesAllTwins_cons {path : Path} {name : String} {subtree : Subtree}
    {extensions : List Extension} (updates : subtree.UpdatesTwins pure scope)
    (rest : Extension.UpdatesAllTwins pure scope extensions) :
    Extension.UpdatesAllTwins pure scope (⟨path, name, subtree⟩ :: extensions) := by
  intro pairs ms ms' s t common holds twins
  cases twins with
  | nil =>
    rw [Extension.updateAll, Extension.updateAll]
    · exact .done (.refl pairs) holds .nil
    all_goals intros; contradiction
  | @cons m m' ms ms' head tail =>
    have first := updates pairs m m' s t common holds head
    rw [Extension.updateAll, Extension.updateAll]
    rcases run : subtree.update host scope m s with ⟨⟨live, error⟩, s₁⟩
    rcases run' : subtree.update host scope m' t with ⟨⟨live', error'⟩, t₁⟩
    rw [run, run'] at first
    cases first with
    | stopped e twins => exact .stopped e (.cons twins tail)
    | left detached => exact .left detached
    | right detached => exact .right detached
    | done grown holds₁ twins =>
      exact (rest _ ms ms' s₁ t₁ (common.mono grown) holds₁ tail).map grown (live :: ·) (live' :: ·)
        fun _ _ others => .cons twins others

namespace Template

theorem updateMount_conditional (t : Template) (x : NodeId) (body : Option Mount) (s : Stage κ) :
    t.updateMount host scope (.conditional x body) s = (⟨.conditional x body, none⟩, s) := by
  obtain ⟨id, plan, bindings, anchors, extensions, events, handlers⟩ := t
  rw [updateMount]
  intros
  contradiction

theorem updatesTwins (builtin : ∀ b ∈ t.bindings, b.action.isBuiltin = true)
    (rest : Extension.UpdatesAllTwins pure scope t.extensions) :
    (Subtree.template t).UpdatesTwins pure scope := by
  intro pairs m m' s r common holds twins
  rw [Subtree.update, Subtree.update]
  cases twins with
  | shown x y body =>
    rw [updateMount_conditional, updateMount_conditional]
    exact .done (.refl pairs) holds (.shown x y body)
  | hidden x y =>
    rw [updateMount_conditional, updateMount_conditional]
    exact .done (.refl pairs) holds (.hidden x y)
  | @template snapshot snapshot' ms ms' root root' snapshots inside =>
    rw [updateMount_template, updateMount_template]
    have pass := update_paced pure builtin common snapshots root root' pairs s r (.refl pairs) holds
    rcases pass.outcomes with ⟨next, s₁, next', r₁, run, run', more, grown, holds₁, passed⟩ |
      ⟨e, s₁, r₁, run, run'⟩ | ⟨e, s₁, run, detached⟩ | ⟨e, r₁, run, detached⟩
    · rw [run, run']
      exact (rest more ms ms' s₁ r₁ (common.mono grown) holds₁ inside).map grown
        (Mount.template root (some next)) (Mount.template root' (some next'))
        fun _ _ others => .template root root' (.some passed) others
    · rw [run, run']
      exact .stopped e (.template root root' snapshots inside)
    · rw [run]
      exact .left detached
    · rw [run]
      exact .right detached

/-- Building the nodes with what is mounted in them, before the first pass. -/
theorem create_paced (rest : Extension.CreatesAllTwins pure scope t.extensions)
    (common : scope.Common base) :
    pure.coupling.Paced base (fun _ r r' => List.Forall₂ Mount.Twins r.2 r'.2)
      (t.create host scope) (t.create host scope) := by
  unfold create
  have built : pure.coupling.Paced base (fun _ _ _ => True) (t.buildPlan scope).onStage
      (t.buildPlan scope).onStage :=
    pure.paced_of_level fun s r => Construction.onStage_level (buildPlan_level scope t _ _)
  refine built.bind ?_
  rintro pairs up ⟨root, site⟩ ⟨root', site'⟩ _
  refine (rest pairs site.placeholders site'.placeholders 0 (common.mono up)).bind
    fun _ _ ms ms' twins => InStep.paced (inStep_pure fun _ _ => ?_)
  exact twins

theorem createsTwins (rest : Extension.CreatesAllTwins pure scope t.extensions)
    (updates : (Subtree.template t).UpdatesTwins pure scope) :
    (Subtree.template t).CreatesTwins pure scope := by
  intro base common
  rw [Subtree.create, createMount_eq]
  refine (create_paced rest common).bind ?_
  rintro pairs up ⟨root, ms⟩ ⟨root', ms'⟩ inside more s r grown holds
  have first := updates more (.template root none ms) (.template root' none ms') s r
    ((common.mono up).mono grown) holds (.template root root' .none inside)
  rw [Subtree.update, Subtree.update] at first
  dsimp only
  rcases run : t.updateMount host scope (.template root none ms) s with ⟨⟨live, error⟩, s₁⟩
  rcases run' : t.updateMount host scope (.template root' none ms') r with ⟨⟨live', error'⟩, r₁⟩
  rw [run, run'] at first
  cases first with
  | done grown' holds' twins => exact .abreast (.ok ⟨_, grown', holds', twins⟩)
  | stopped e _ => exact .abreast (.error e s₁ r₁)
  | left detached => exact .left ⟨_, s₁, rfl, detached⟩
  | right detached => exact .right ⟨_, r₁, rfl, detached⟩

end Template

namespace Subtree

variable {condition : Condition} {body : Subtree}

theorem makeHidden_settles : Settles (modifyGet makeHidden : Eval (Stage κ) NodeId) :=
  settles_modifyGet fun _ => rfl

theorem conditional_createsTwins (creates : body.CreatesTwins pure scope) :
    (Subtree.conditional condition body).CreatesTwins pure scope := by
  intro base common
  rw [Subtree.create]
  refine (condition.check_inStep pure.coupling common).paced.bind ?_
  rintro pairs up b _ rfl
  cases b with
  | true =>
    refine (creates pairs (common.mono up)).bind fun _ _ m m' twins => ?_
    exact (inStep_pure fun _ _ => .shown m.node m'.node twins).paced
  | false =>
    refine (pure.paced_of_settles makeHidden_settles makeHidden_settles).bind fun _ _ x y _ => ?_
    exact (inStep_pure fun _ _ => .hidden x y).paced

theorem conditional_updatesTwins (creates : body.CreatesTwins pure scope)
    (updates : body.UpdatesTwins pure scope) :
    (Subtree.conditional condition body).UpdatesTwins pure scope := by
  intro pairs m m' s t common holds twins
  have check := condition.check_inStep pure.coupling common pairs s t (.refl pairs) holds
  cases twins with
  | template x y snapshots children =>
    rw [Subtree.update, Subtree.update]
    · exact .done (.refl pairs) holds (.template x y snapshots children)
    all_goals intros; contradiction
  | @shown live live' x y twins =>
    unfold Subtree.update
    rcases check.outcomes with ⟨b, s₁, _, t₁, run, run', joint⟩ | ⟨e, s₁, t₁, run, run'⟩
    · obtain ⟨more, grown, holds₁, rfl⟩ := joint
      rw [run, run']
      cases b with
      | true =>
        exact (updates more live live' s₁ t₁ (common.mono grown) holds₁ twins).map grown
          (fun m => Mount.conditional x (some m)) (fun m => Mount.conditional y (some m))
          fun _ _ twins => .shown x y twins
      | false => exact .done grown holds₁ (.hidden _ _)
    · rw [run, run']
      exact .stopped e (.shown x y twins)
  | hidden x y =>
    unfold Subtree.update
    rcases check.outcomes with ⟨b, s₁, _, t₁, run, run', joint⟩ | ⟨e, s₁, t₁, run, run'⟩
    · obtain ⟨more, grown, holds₁, rfl⟩ := joint
      rw [run, run']
      cases b with
      | false => exact .done grown holds₁ (.hidden x y)
      | true =>
        dsimp only
        have made := creates more (common.mono grown) more s₁ t₁ (.refl more) holds₁
        rcases made.outcomes with ⟨live, s₂, live', t₂, ok, ok', most, grown', holds₂, twins⟩ |
          ⟨e, s₂, t₂, failed, failed'⟩ | ⟨e, s₂, failed, detached⟩ | ⟨e, t₂, failed, detached⟩
        · rw [ok, ok']
          exact .done (grown.trans grown') holds₂ (.shown _ _ twins)
        · rw [failed, failed']
          exact .stopped e (.hidden x y)
        · rw [failed]
          exact .left detached
        · rw [failed]
          exact .right detached
    · rw [run, run']
      exact .stopped e (.hidden x y)

end Subtree

mutual

/-- Creating and updating keep pace on two stages. -/
theorem Subtree.lockstep : ∀ {subtree : Subtree}, subtree.Each (Template.Tidy True) →
    subtree.CreatesTwins pure scope ∧ subtree.UpdatesTwins pure scope
  | .template t, tidy => by
    rw [Subtree.Each] at tidy
    exact Template.lockstep tidy
  | .conditional condition (.template t), tidy => by
    rw [Subtree.Each] at tidy
    obtain ⟨creates, updates⟩ := Template.lockstep tidy
    exact ⟨Subtree.conditional_createsTwins creates,
      Subtree.conditional_updatesTwins creates updates⟩
  | .conditional _ (.conditional _ _), tidy => by
    rw [Subtree.Each] at tidy
    exact tidy.elim

theorem Template.lockstep : ∀ {t : Template}, t.Each (Template.Tidy True) →
    (Subtree.template t).CreatesTwins pure scope ∧ (Subtree.template t).UpdatesTwins pure scope
  | ⟨id, plan, bindings, anchors, extensions, events, handlers⟩, tidy => by
    rw [Template.Each] at tidy
    obtain ⟨creates, updates⟩ := Extension.lockstep tidy.2
    have own := Template.updatesTwins (tidy.1.builtin trivial) updates
    exact ⟨Template.createsTwins creates own, own⟩

theorem Extension.lockstep : ∀ {extensions : List Extension},
    Extension.AllEach (Template.Tidy True) extensions →
      Extension.CreatesAllTwins pure scope extensions ∧
        Extension.UpdatesAllTwins pure scope extensions
  | [], _ => ⟨Extension.createsAllTwins_nil, Extension.updatesAllTwins_nil⟩
  | ⟨path, name, subtree⟩ :: rest, tidy => by
    rw [Extension.AllEach] at tidy
    obtain ⟨creates, updates⟩ := Subtree.lockstep tidy.1
    obtain ⟨creates', updates'⟩ := Extension.lockstep tidy.2
    exact ⟨Extension.createsAllTwins_cons creates creates',
      Extension.updatesAllTwins_cons updates updates'⟩

end

end

end LiveTemplate
