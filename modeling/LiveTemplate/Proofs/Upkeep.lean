import LiveTemplate.Proofs.Flips

/-!
# LiveTemplate.Proofs.Upkeep

Instances that are made and updated without errors. However often their conditional subtrees come
and go, such an instance takes up the nodes of what it shows and no others: the placeholders of its
construction are gone, and so is everything that was shown and is not any more.

  * `Subtree.Owns`                      the nodes of what is shown
  * `Subtree.Settled`                   what is shown is what the conditions say
  * `Document.Clears`                   what stood at sites that flipped is gone
  * `Template.Upkeep`                   an instance without any errors so far
  * `Template.Upkeep.contains_exactly`  the live nodes of its document
-/

namespace LiveTemplate

variable {κ : Type}

/-! ## Nodes of what is shown -/

/-- The nodes of a live subtree: those that were built for the plan of an instance, those of what is
mounted in it, and a comment for each condition that shows nothing. The placeholder of an extension
point is not among them, nor is any node of a body that is not shown. -/
inductive Subtree.Owns (doc : Document) : Subtree → Mount → NodeId → Prop
  | plan {t : Template} {root : NodeId} {snapshot : Option Snapshot} {children : List Mount}
      {q : List Nat} {p : Plan} {x : NodeId} (spot : t.plan.at? q = some p)
      (solid : p.hole? = none) (there : doc.descend root q = some x) :
      Owns doc (.template t) (.template root snapshot children) x
  | mounted {t : Template} {root : NodeId} {snapshot : Option Snapshot} {children : List Mount}
      {extension : Extension} {m : Mount} {x : NodeId}
      (listed : (extension, m) ∈ t.extensions.zip children)
      (inner : Owns doc extension.subtree m x) :
      Owns doc (.template t) (.template root snapshot children) x
  | shown {condition : Condition} {body : Subtree} {node : NodeId} {m : Mount} {x : NodeId}
      (same : node = m.node) (inner : Owns doc body m x) :
      Owns doc (.conditional condition body) (.conditional node (some m)) x
  | hidden {condition : Condition} {body : Subtree} {node : NodeId} {n : Node}
      (found : doc.get? node = some n) (comment : n.content = .comment "v-if")
      (leaf : n.children = []) :
      Owns doc (.conditional condition body) (.conditional node none) node

section

variable {terms : Terms} {doc : Document}

mutual

theorem Subtree.Stands.owned (builtin : terms.builtin) : ∀ {subtree : Subtree} {m : Mount}
    {part : Set NodeId}, subtree.Stands terms doc m part → ∀ x, x ∈ part ↔ subtree.Owns doc m x
  | .template t, m, part, h, x => by
    rw [Subtree.Stands] at h
    exact Template.Stands.owned builtin h x
  | .conditional condition body, .conditional node (some m), part, h, x => by
    rw [Subtree.Stands] at h
    refine (Subtree.Stands.owned builtin h.2 x).trans ⟨.shown h.1, fun owns => ?_⟩
    cases owns with
    | shown _ inner => exact inner
  | .conditional condition body, .conditional node none, part, h, x => by
    rw [Subtree.Stands] at h
    obtain ⟨rfl, n, found, comment, leaf, _⟩ := h
    constructor
    · rintro rfl
      exact .hidden found (comment builtin) leaf
    · intro owns
      cases owns with
      | hidden => rfl
  | .conditional condition body, .template root snapshot children, part, h, x => by
    rw [Subtree.Stands] at h
    exact h.elim

theorem Template.Stands.owned (builtin : terms.builtin) : ∀ {t : Template} {m : Mount}
    {part : Set NodeId}, t.Stands terms doc m part →
      ∀ x, x ∈ part ↔ (Subtree.template t).Owns doc m x
  | ⟨id, plan, bindings, anchors, extensions, events, handlers⟩, m, part, h, x => by
    obtain ⟨root, _, children, place, _, _, rfl, rooted, rfl, mounted⟩ := Template.stands_iff.mp h
    have others := Extension.StandAll.owned builtin mounted x
    have reached {q : List Nat} {p : Plan} (spot : plan.at? q = some p) :
        doc.descend root q = some (place q) := by
      rw [← rooted.root]
      exact rooted.own.descend (Plan.at?_nil plan) spot
    constructor
    · rintro (⟨q, p, spot, solid, rfl⟩ | mem)
      · exact .plan spot solid (reached spot)
      · obtain ⟨extension, m, listed, inner⟩ := others.mp mem
        exact .mounted listed inner
    · intro owns
      cases owns with
      | @plan _ _ _ _ q p _ spot solid there =>
        rw [reached spot] at there
        exact .inl ⟨q, p, spot, solid, (Option.some.inj there).symm⟩
      | mounted listed inner => exact .inr (others.mpr ⟨_, _, listed, inner⟩)

theorem Extension.StandAll.owned (builtin : terms.builtin) : ∀ {extensions : List Extension}
    {ms : List Mount} {part : Set NodeId}, Extension.StandAll terms doc extensions ms part →
      ∀ x, x ∈ part ↔
        ∃ extension m, (extension, m) ∈ extensions.zip ms ∧ extension.subtree.Owns doc m x
  | [], ms, part, h, x => by
    cases h.eq_nil
    rw [Extension.StandAll] at h
    subst h
    constructor
    · exact fun mem => (Set.notMem_empty x mem).elim
    · rintro ⟨_, _, listed, _⟩
      cases listed
  | ⟨path, name, subtree⟩ :: rest, ms, part, h, x => by
    obtain ⟨m, ms, here, there, rfl, rfl, _, stands, others⟩ := h.exists_cons
    have first := Subtree.Stands.owned builtin stands x
    have later := Extension.StandAll.owned builtin others x
    constructor
    · rintro (mem | mem)
      · exact ⟨_, m, List.mem_cons_self, first.mp mem⟩
      · obtain ⟨extension, m', listed, inner⟩ := later.mp mem
        exact ⟨extension, m', List.mem_cons_of_mem _ listed, inner⟩
    · rintro ⟨extension, m', listed, inner⟩
      rcases List.mem_cons.mp listed with same | listed
      · cases same
        exact .inl (first.mpr inner)
      · exact .inr (later.mpr ⟨extension, m', listed, inner⟩)

end

end

/-! ## Conditions -/

/-- What the condition can come to under the scope. The functions that it calls may return
something else each time. -/
def Condition.ComesTo (host : Host κ) (scope : Scope) (condition : Condition) (b : Bool) : Prop :=
  ∃ s s' : Stage κ, condition.holds host.calls scope s = .ok b s'

/-- What is shown is shown because its condition came to true under the scope, and what is hidden is
so because its condition came to false. -/
inductive Subtree.Settled (host : Host κ) (scope : Scope) : Subtree → Mount → Prop
  | template {t : Template} {root : NodeId} {snapshot : Option Snapshot} {children : List Mount}
      (mounted : List.Forall₂ (fun extension m => Settled host scope extension.subtree m)
        t.extensions children) :
      Settled host scope (.template t) (.template root snapshot children)
  | shown {condition : Condition} {body : Subtree} {node : NodeId} {m : Mount}
      (holds : condition.ComesTo host scope true) (inner : Settled host scope body m) :
      Settled host scope (.conditional condition body) (.conditional node (some m))
  | hidden {condition : Condition} {body : Subtree} {node : NodeId}
      (fails : condition.ComesTo host scope false) :
      Settled host scope (.conditional condition body) (.conditional node none)

section

variable {host : Host κ} {scope : Scope}

theorem Condition.comesTo_of_check {condition : Condition} {b : Bool} {s s' : Stage κ}
    (run : condition.check host scope s = .ok b s') : condition.ComesTo host scope b :=
  ⟨s, s', Condition.holds_of_check run⟩

mutual

theorem Subtree.create_settled : ∀ (subtree : Subtree) (s : Stage κ),
    Ends (subtree.create host scope) s (fun m _ => subtree.Settled host scope m) (fun _ => True)
  | .template t, s => by
    rw [Subtree.create]
    exact Template.create_settled t s
  | .conditional condition body, s => by
    rw [Subtree.create]
    refine Ends.bind (Ends.of_run (fun holds s₁ checked => ?_) fun _ _ _ => trivial)
    have came := Condition.comesTo_of_check checked
    cases holds with
    | true =>
      exact Ends.bind ((Subtree.create_settled body s₁).imp (fun _ _ inner => .shown came inner)
        fun _ h => h)
    | false => exact Subtree.Settled.hidden came

theorem Template.create_settled : ∀ (t : Template) (s : Stage κ),
    Ends (t.createMount host scope) s
      (fun m _ => (Subtree.template t).Settled host scope m) (fun _ => True)
  | ⟨id, plan, bindings, anchors, extensions, events, handlers⟩, s => by
    rw [Template.createMount]
    refine Ends.bind (Ends.of_run (fun ⟨root, site⟩ s₁ _ => ?_) fun _ _ _ => trivial)
    have mounted := Extension.createAll_settled site.placeholders 0 extensions s₁
    refine Ends.bind (mounted.imp (fun children s₂ mounted => ?_) fun _ h => h)
    refine Ends.bind (Ends.of_run (fun next s₃ _ => ?_) fun _ _ _ => trivial)
    refine Ends.bind (Ends.modifyGet ?_)
    have settled := Extension.updateAll_settled extensions s₃ mounted
    cases error : (Extension.updateAll host scope extensions children s₃).1.error with
    | some e => exact Ends.of_error rfl trivial
    | none => exact Ends.of_ok rfl (.template (settled error))

theorem Extension.createAll_settled (placeholders : List (Nat × NodeId)) : ∀ (index : Nat)
    (extensions : List Extension) (s : Stage κ),
    Ends (Extension.createAll host scope placeholders index extensions) s
      (fun ms _ => List.Forall₂ (fun extension m => extension.subtree.Settled host scope m)
        extensions ms) (fun _ => True)
  | index, [], s => by
    rw [Extension.createAll]
    exact List.Forall₂.nil
  | index, ⟨path, name, subtree⟩ :: rest, s => by
    rw [Extension.createAll_cons]
    refine Ends.bind ((Subtree.create_settled subtree s).imp (fun m s₁ first => ?_) fun _ h => h)
    exact Ends.bind (Ends.bind ((Extension.createAll_settled placeholders (index + 1) rest _).imp
      (fun _ _ more => .cons first more) fun _ h => h))

theorem Subtree.update_settled : ∀ (subtree : Subtree) {past : Scope} {m : Mount} (s : Stage κ),
    subtree.Settled host past m → (subtree.update host scope m s).1.error = none →
      subtree.Settled host scope (subtree.update host scope m s).1.live
  | .template t, past, m, s, h => by
    rw [Subtree.update]
    exact Template.update_settled t s h
  | .conditional condition body, _, _, s, .hidden _ => by
    rcases checked : condition.check host scope s with ⟨_ | _, s₁⟩ | ⟨e, s₁⟩ <;>
      simp only [Subtree.update, checked]
    · exact fun _ => .hidden (Condition.comesTo_of_check checked)
    · have made := Subtree.create_settled body s₁
      cases run : body.create host scope s₁ with
      | error e s₂ => exact fun stopped => by cases stopped
      | ok m s₂ => exact fun _ => .shown (Condition.comesTo_of_check checked) (made.ok run)
    · exact fun stopped => by cases stopped
  | .conditional condition body, _, _, s, .shown _ inner => by
    rcases checked : condition.check host scope s with ⟨_ | _, s₁⟩ | ⟨e, s₁⟩ <;>
      simp only [Subtree.update, checked]
    · exact fun _ => .hidden (Condition.comesTo_of_check checked)
    · exact fun done => .shown (Condition.comesTo_of_check checked)
        (Subtree.update_settled body s₁ inner done)
    · exact fun stopped => by cases stopped

theorem Template.update_settled : ∀ (t : Template) {past : Scope} {m : Mount} (s : Stage κ),
    (Subtree.template t).Settled host past m → (t.updateMount host scope m s).1.error = none →
      (Subtree.template t).Settled host scope (t.updateMount host scope m s).1.live
  | ⟨id, plan, bindings, anchors, extensions, events, handlers⟩, _, _, s,
      @Subtree.Settled.template _ _ _ _ root snapshot children mounted => by
    rw [Template.updateMount]
    cases Template.update host ⟨id, plan, bindings, anchors, extensions, events, handlers⟩
        scope root snapshot s with
    | error e s₁ => exact fun stopped => by cases stopped
    | ok next s₁ =>
      exact fun done => .template (Extension.updateAll_settled extensions s₁ mounted done)

theorem Extension.updateAll_settled : ∀ (extensions : List Extension) {past : Scope}
    {ms : List Mount} (s : Stage κ),
    List.Forall₂ (fun extension m => extension.subtree.Settled host past m) extensions ms →
      (Extension.updateAll host scope extensions ms s).1.error = none →
        List.Forall₂ (fun extension m => extension.subtree.Settled host scope m) extensions
          (Extension.updateAll host scope extensions ms s).1.live
  | [], _, _, s, .nil => by
    rw [Extension.updateAll_nil]
    exact fun _ => .nil
  | ⟨path, name, subtree⟩ :: rest, _, m :: ms, s, .cons here more => by
    rw [Extension.updateAll]
    have first := Subtree.update_settled subtree s here
    rcases run : subtree.update host scope m s with ⟨⟨live, _ | e⟩, s₁⟩
    · rw [run] at first
      exact fun done => .cons (first rfl) (Extension.updateAll_settled rest s₁ more done)
    · exact fun stopped => by cases stopped

end

theorem Template.createInstance_settled (t : Template) (s : Stage κ) :
    Ends (t.createInstance host scope) s
      (fun i _ => (Subtree.template t).Settled host scope i.toMount) (fun _ => True) := by
  refine Ends.bind ((t.create_settled s).imp (fun m s' settled => ?_) fun _ h => h)
  cases settled with
  | template mounted => exact Ends.of_ok rfl (.template mounted)

theorem Instance.update_settled {i i' : Instance} {past : Scope} {s s' : Stage κ}
    (settled : (Subtree.template i.template).Settled host past i.toMount)
    (run : i.update host scope s = (⟨i', none⟩, s')) :
    (Subtree.template i.template).Settled host scope i'.toMount := by
  obtain ⟨live, step, rfl⟩ := Instance.exists_mount_of_update run
  have after : (i.template.updateMount host scope i.toMount s).1.error = none → _ :=
    i.template.update_settled s settled
  rw [step] at after
  cases after rfl with
  | template mounted => exact .template mounted

end

/-! ## Sites that flip -/

namespace Document

/-- What stood at the sites that flipped is gone, unless a later flip gave its id out again. -/
structure Clears (flips : List Flip) (a b : Document) : Prop where
  live : ∀ x, b.get? x ≠ none → a.get? x ≠ none ∨ ∃ g ∈ flips, g.Issues x
  freed : ∀ earlier f later, flips = earlier ++ f :: later → ∀ x, f.before.Below f.old x →
    b.get? x ≠ none → ∃ g ∈ later, g.Issues x

namespace Clears

variable {a b c : Document} {flips flips' : List Flip}

/-- Nothing flips, and no node comes. -/
theorem of_live (h : ∀ x, b.get? x ≠ none → a.get? x ≠ none) : Clears [] a b :=
  ⟨fun x live => .inl (h x live), fun earlier f later none => by simp at none⟩

theorem of_flip {f : Flip} (h : ∀ x, b.get? x ≠ none →
      ¬f.before.Below f.old x ∧ (f.before.get? x ≠ none ∨ f.Issues x)) : Clears [f] f.before b := by
  refine ⟨fun x live => ?_, fun earlier g later same x below live => ?_⟩
  · exact (h x live).2.imp_right fun issues => ⟨f, List.mem_cons_self, issues⟩
  · obtain ⟨rfl, rfl, rfl⟩ : earlier = [] ∧ g = f ∧ later = [] := by
      cases earlier with
      | nil => cases same; exact ⟨rfl, rfl, rfl⟩
      | cons _ earlier => simp at same
    exact ((h x live).1 below).elim

theorem trans (h : Clears flips a b) (k : Clears flips' b c) : Clears (flips ++ flips') a c := by
  refine ⟨fun x live => ?_, fun earlier f later same x below live => ?_⟩
  · rcases k.live x live with live | ⟨g, mem, issues⟩
    · refine (h.live x live).imp_right fun ⟨g, mem, issues⟩ => ?_
      exact ⟨g, List.mem_append_left _ mem, issues⟩
    · exact .inr ⟨g, List.mem_append_right _ mem, issues⟩
  · rcases List.append_eq_append_iff.mp same with ⟨more, _, here⟩ | ⟨more, here, rest⟩
    · exact k.freed more f later here x below live
    · cases more with
      | nil => exact k.freed [] f later rest.symm x below live
      | cons g more =>
        -- The flip is one of the first, and all of the others come later.
        cases rest
        rcases k.live x live with live | ⟨g, mem, issues⟩
        · obtain ⟨g, mem, issues⟩ := h.freed earlier f more here x below live
          exact ⟨g, List.mem_append_left _ mem, issues⟩
        · exact ⟨g, List.mem_append_right _ mem, issues⟩

end Clears

end Document

open Document

/-- What an update does to the nodes that are live. -/
def clearAccount : Account where
  Made out _ b := b.Guards out
  Altered out a flips b := b.Guards out ∧ a.Clears flips b

theorem clearAccount_follows {host : Host κ} (quiet : host.Quiet) (scope : Scope) :
    clearAccount.Follows .loose host scope where
  guards guards := guards
  made _ guards := guards
  altered first second := ⟨second.1, first.2.trans second.2⟩
  idle guards := ⟨guards, .of_live fun _ live => live⟩
  first _ altered := altered.1
  built _ logs _ := logs.guards
  swapped logs := logs.guards
  pass tidy guards outside run := by
    obtain ⟨log, touches⟩ := Template.update_touches quiet (tidy.builtin trivial) guards outside run
    refine ⟨touches.logs.guards, .of_live fun x live gone => live ?_⟩
    have same := touches.shape x
    rw [gone] at same
    exact Option.map_eq_none_iff.mp same
  flip _ _ _ swapped _ freed := ⟨swapped.guards, .of_flip freed⟩

/-- The flip is at a node of the part, and what is below that node stays so until the update gets
there. -/
structure Flip.Within (part : Set NodeId) (doc : Document) (f : Flip) : Prop where
  site : f.old ∈ part
  below : ∀ x, doc.Below f.old x → f.before.Below f.old x

theorem Flip.Within.of_agrees {strict : Prop} {part : Set NodeId} {a b : Document} {f : Flip}
    (within : f.Within part b) (same : a.Agrees strict part b) (region : a.Region part) :
    f.Within part a :=
  ⟨within.site, fun x below => within.below x (same.below region within.site below)⟩

theorem Flip.Within.mono {part part' : Set NodeId} {doc : Document} {f : Flip}
    (within : f.Within part doc) (sub : part ⊆ part') : f.Within part' doc :=
  ⟨sub within.site, within.below⟩

section

variable {terms : Terms} {host : Host κ} {held : κ → Heap} {scope : Scope}

mutual

theorem Subtree.flips_within (loose : ¬terms.coherent) (behaves : host.Behaves terms held) :
    ∀ {subtree : Subtree} {m : Mount} {part : Set NodeId} {s : Stage κ},
    subtree.Each (Template.Tidy terms.builtin) → s.document.Sound →
      subtree.Stands terms s.document m part →
      ∀ f ∈ subtree.flips host scope m s, f.Within part s.document
  | .template t, m, part, s, proper, sound, stands => by
    rw [Subtree.Each] at proper
    rw [Subtree.Stands] at stands
    rw [Subtree.flips]
    exact Template.flips_within loose behaves proper sound stands
  | .conditional condition (.template t), m, part, s, proper, sound, stands => by
    rw [Subtree.Each] at proper
    have top := stands.node_mem
    obtain ⟨node, mounted, rfl⟩ := stands.exists_eq
    unfold Subtree.flips
    have same := condition.check_leaves behaves.quiet scope s
    cases checked : condition.check host scope s with
    | error e s₁ => exact fun f mem => by cases mem
    | ok b s₁ =>
      rw [checked] at same
      have same : s₁.document = s.document := same
      rw [← same] at sound stands ⊢
      have here {new : NodeId} {built : Document} :
          Flip.Within part s₁.document ⟨node, new, s₁.document, built⟩ :=
        ⟨top, fun _ below => below⟩
      cases b with
      | false =>
        cases mounted with
        | none => exact fun f mem => by cases mem
        | some live =>
          intro f mem
          cases List.mem_singleton.mp mem
          exact here
      | true =>
        cases mounted with
        | none =>
          dsimp only
          cases (Subtree.template t).create host scope s₁ with
          | error e s₂ => exact fun f mem => by cases mem
          | ok live s₂ =>
            intro f mem
            cases List.mem_singleton.mp mem
            exact here
        | some live =>
          rw [Subtree.Stands, Subtree.Stands] at stands
          dsimp only
          rw [Subtree.flips]
          exact Template.flips_within loose behaves proper sound stands.2
  | .conditional _ (.conditional _ _), m, part, s, proper, _, _ => by
    rw [Subtree.Each] at proper
    exact proper.elim

theorem Template.flips_within (loose : ¬terms.coherent) (behaves : host.Behaves terms held) :
    ∀ {t : Template} {m : Mount} {part : Set NodeId} {s : Stage κ},
    t.Each (Template.Tidy terms.builtin) → s.document.Sound →
      t.Stands terms s.document m part → ∀ f ∈ t.flips host scope m s, f.Within part s.document
  | ⟨id, plan, bindings, anchors, extensions, events, handlers⟩, m, part, s, proper, sound,
      stands => by
    rw [Template.Each] at proper
    obtain ⟨root, snapshot, children, place, values, rest, rfl, rooted, rfl, mounted⟩ :=
      Template.stands_iff.mp stands
    rw [Template.flips_template]
    cases wrote : Template.update host _ scope root snapshot s with
    | error e s₁ => exact fun f mem => by cases mem
    | ok next s₁ =>
      obtain ⟨sound₁, same, attached⟩ :=
        rooted.mounted_after_pass loose behaves proper.1 sound mounted wrote
      intro f mem
      have within := Extension.flipsOfAll_within loose behaves proper.2 sound₁
        (mounted.agrees same) attached f mem
      exact (within.of_agrees same mounted.region).mono Set.subset_union_right

theorem Extension.flipsOfAll_within (loose : ¬terms.coherent) (behaves : host.Behaves terms held) :
    ∀ {extensions : List Extension} {ms : List Mount} {part : Set NodeId} {s : Stage κ},
    Extension.AllEach (Template.Tidy terms.builtin) extensions → s.document.Sound →
      Extension.StandAll terms s.document extensions ms part →
      (∀ x ∈ ms.map Mount.node, ∃ p, s.document.parent? x = some p ∧ p ∉ part) →
      ∀ f ∈ Extension.flipsOfAll host scope extensions ms s, f.Within part s.document
  | [], ms, part, s, _, _, _, _ => by
    rw [Extension.flipsOfAll]
    · exact fun f mem => by cases mem
    · intros
      contradiction
  | ⟨path, name, subtree⟩ :: rest, ms, part, s, proper, sound, mounted, attached => by
    rw [Extension.AllEach] at proper
    obtain ⟨m, ms, here, there, rfl, rfl, disjoint, stands, mounted⟩ := mounted.exists_cons
    obtain ⟨p, parent, above⟩ := attached m.node List.mem_cons_self
    obtain ⟨here', first⟩ := (Subtree.promises behaves proper.1).2 m here s (fun _ => False) sound
      (fun coherent => absurd coherent loose) stands ⟨p, parent, fun mem => above (.inl mem)⟩
    rw [Extension.flipsOfAll]
    intro f mem
    rcases List.mem_append.mp mem with mem | mem
    · exact (Subtree.flips_within loose behaves proper.1 sound stands f mem).mono
        Set.subset_union_left
    · rcases step : subtree.update host scope m s with ⟨⟨m', error⟩, s₁⟩
      rw [step] at mem first
      cases error with
      | some e => cases mem
      | none =>
        have same := first.agrees stands disjoint mounted.region
        have within := Extension.flipsOfAll_within loose behaves proper.2 first.keeps.sound
          (mounted.agrees same) (first.attached disjoint mounted fun x listed =>
            attached x (List.mem_cons_of_mem _ listed)) f mem
        exact (within.of_agrees same mounted.region).mono Set.subset_union_right

end

end

/-- An update that succeeds frees what stood at the sites that it flips: in the end such a node is
live only if a later flip gave its id out again. -/
theorem Template.Lives.update_frees {host : Host κ} {t : Template} {scope : Scope}
    {s s' : Stage κ} {i i' : Instance} (quiet : host.Quiet) (plain : t.Plain)
    (lives : t.Lives host s i) (run : i.update host scope s = (⟨i', none⟩, s'))
    {earlier later : List Flip} {f : Flip}
    (flips : t.flips host scope i.toMount s = earlier ++ f :: later) {x : NodeId}
    (below : s.document.Below f.old x) (live : s'.document.contains x = true) :
    ∃ g ∈ later, g.Issues x := by
  have abides := plain.abides quiet
  obtain ⟨sound, _, stands⟩ := lives.stands abides
  obtain ⟨_, clears⟩ := lives.altered (clearAccount_follows quiet scope) quiet plain run
  have within := Template.flips_within not_false abides.behaves abides.tidy sound stands f
    (by rw [flips]; exact List.mem_append_right _ List.mem_cons_self)
  exact clears.freed earlier f later flips x (within.below x below) (contains_iff_ne_none.mp live)

/-! ## Instances -/

namespace Template

variable {terms : Terms} {host : Host κ} {held : κ → Heap} {t : Template} {scope : Scope}
  {origin s s' : Stage κ} {i i' : Instance}

/-- An instance is made on a stage and updated from then on, and no error occurs. The scope is the
one that was used last. In between, the host may do what it likes with its own state. -/
inductive Upkeep (host : Host κ) (t : Template) (origin : Stage κ) :
    Scope → Stage κ → Instance → Prop
  | made {s : Stage κ} {scope : Scope} {i : Instance}
      (run : t.createInstance host scope origin = .ok i s) : Upkeep host t origin scope s i
  | idle {s s' : Stage κ} {scope : Scope} {i : Instance} (before : Upkeep host t origin scope s i)
      (same : s'.document = s.document) : Upkeep host t origin scope s' i
  | updated {s s' : Stage κ} {past scope : Scope} {i i' : Instance}
      (before : Upkeep host t origin past s i)
      (run : i.update host scope s = (⟨i', none⟩, s')) : Upkeep host t origin scope s' i'

theorem Upkeep.lives (abides : t.Abides terms host held) (sound : origin.document.Sound)
    (upkeep : t.Upkeep host origin scope s i) : t.Lives host s i := by
  induction upkeep with
  | made run => exact .made sound run
  | idle _ same ih =>
    have sound := (ih.stands abides).1
    refine .meanwhile ih (same ▸ sound) ⟨fun x node _ found => ⟨node, ?_, .refl True node⟩, ?_⟩
    · rw [same]
      exact found
    · rw [same]
      exact fun _ listening => listening
  | updated _ run ih => exact .updated ih run

/-- The nodes below the root are new to the document, and no others are. -/
structure Tight (origin : Document) (root : NodeId) (doc : Document) : Prop where
  kept : ∀ x, origin.get? x ≠ none → doc.get? x ≠ none
  apart : ∀ x, origin.get? x ≠ none → ¬doc.Below root x
  only : ∀ x, doc.get? x ≠ none → doc.Below root x ∨ origin.get? x ≠ none

theorem Starts.tight (starts : t.Starts terms s i s') : Tight s.document i.root s'.document where
  kept x live gone := (starts.keeps.dead gone).elim (Set.notMem_empty x) live
  apart x live below := live (starts.fresh x below)
  only x live := (starts.only x live).imp_right And.right

/-- What an update frees and what it makes belongs to the instance. -/
theorem Tight.update {doc : Document} (tight : Tight doc i.root s.document)
    (passes : Passes terms host scope i s i' none s') : Tight doc i'.root s'.document := by
  rw [passes.root]
  refine ⟨fun x live gone => ?_, fun x live below => ?_, fun x live => ?_⟩
  · exact (passes.keeps.dead gone).elim (tight.apart x live) (tight.kept x live)
  · rcases passes.within x below with below | dead
    · exact tight.apart x live below
    · exact tight.kept x live dead
  · refine (passes.clean rfl x live).imp_right fun ⟨out, live⟩ => ?_
    exact (tight.only x live).resolve_left out

theorem Upkeep.tight (abides : t.Abides terms host held) (sound : origin.document.Sound)
    (upkeep : t.Upkeep host origin scope s i) : Tight origin.document i.root s.document := by
  induction upkeep with
  | made run => exact ((abides.create sound _).ok run).tight
  | idle _ same ih =>
    rw [same]
    exact ih
  | updated before run ih =>
    obtain ⟨sound, rfl, stands⟩ := (before.lives abides sound).stands abides
    exact ih.update (abides.update sound stands run)

theorem Upkeep.settled (abides : t.Abides terms host held) (sound : origin.document.Sound)
    (upkeep : t.Upkeep host origin scope s i) :
    (Subtree.template t).Settled host scope i.toMount := by
  induction upkeep with
  | made run => exact (t.createInstance_settled origin).ok run
  | idle _ _ ih => exact ih
  | updated before run ih =>
    obtain ⟨_, rfl, _⟩ := (before.lives abides sound).stands abides
    exact Instance.update_settled ih run

/-- As long as no error occurs, the live nodes are those that were there before the instance was
made, and besides the root of the instance with everything below it. These are the nodes of what is
shown; what is shown is what the conditions came to in the last pass; and what the next pass takes
out of the tree is freed by it. -/
theorem Upkeep.contains_exactly (quiet : host.Quiet) (plain : t.Plain)
    (sound : origin.document.Sound) (upkeep : t.Upkeep host origin scope s i) :
    (∀ x, (s.document.contains x = true ↔
        origin.document.contains x = true ∨ s.document.Below i.root x) ∧
      ¬(origin.document.contains x = true ∧ s.document.Below i.root x)) ∧
    (∀ x, s.document.Below i.root x ↔ (Subtree.template t).Owns s.document i.toMount x) ∧
    (Subtree.template t).Settled host scope i.toMount ∧
    ∀ scope' i' s', i.update host scope' s = (⟨i', none⟩, s') →
      ∀ earlier f later, t.flips host scope' i.toMount s = earlier ++ f :: later →
        ∀ x, s.document.Below f.old x → s'.document.contains x = true →
          ∃ g ∈ later, g.Issues x := by
  have abides := plain.abides quiet
  have tight := upkeep.tight abides sound
  have lives := upkeep.lives abides sound
  obtain ⟨_, _, stands⟩ := lives.stands abides
  refine ⟨fun x => ?_, stands.owned trivial, upkeep.settled abides sound, ?_⟩
  · simp only [contains_iff_ne_none]
    refine ⟨⟨fun live => (tight.only x live).symm, ?_⟩, fun ⟨old, below⟩ => tight.apart x old below⟩
    rintro (old | below)
    · exact tight.kept x old
    · exact lives.get?_of_below abides below
  · intro scope' i' s' run earlier f later flips x below live
    exact lives.update_frees quiet plain run flips below live

/-- What is mounted in an instance is below its root. -/
theorem Lives.below_of_mounted (abides : t.Abides terms host held) (lives : t.Lives host s i)
    {m : Mount} (mem : m ∈ i.children) : s.document.Below i.root m.node := by
  obtain ⟨_, _, stands⟩ := lives.stands abides
  obtain ⟨_, _, children, _, _, rest, same, _, part, mounted⟩ := Template.stands_iff.mp stands
  cases same
  have inside := mounted.node_mem (List.mem_map_of_mem mem)
  exact (Set.ext_iff.mp part m.node).mpr (.inr inside)

end Template

namespace Sample

/-- There is a node already. -/
def occupied : Stage Unit := ⟨(Document.empty.createElement "i").2, 0, ()⟩

/-- What is conditional is shown at first and then hidden. -/
def hides : Bool :=
  match Template.compile .standard 0 markup with
  | .error _ => false
  | .ok (t, _) =>
    match t.createInstance echo (scope "a" "x" true) occupied with
    | .error _ _ => false
    | .ok i s =>
      match i.update echo (scope "z" "y" false) s with
      | (⟨_, some _⟩, _) => false
      | (⟨i₁, .none⟩, _) =>
        match t.flips echo (scope "z" "y" false) i.toMount s, i.children, i₁.children with
        | [f], [.conditional node (some _)], [.conditional _ .none] => f.old = node
        | _, _, _ => false

end Sample

theorem Template.Upkeep.contains_exactly_hidden : ∃ t next i s i₁ s₁ f body comment,
    Template.compile .standard 0 Sample.markup = .ok (t, next) ∧
      t.createInstance Sample.echo (Sample.scope "a" "x" true) Sample.occupied = .ok i s ∧
      i.update Sample.echo (Sample.scope "z" "y" false) s = (⟨i₁, none⟩, s₁) ∧
      t.flips Sample.echo (Sample.scope "z" "y" false) i.toMount s = [f] ∧
      i.children = [.conditional f.old (some body)] ∧
      i₁.children = [.conditional comment none] ∧
      (∀ x, s.document.Below f.old x →
        s.document.contains x = true ∧ s₁.document.contains x = false) ∧
      (∀ x, (s₁.document.contains x = true ↔
          Sample.occupied.document.contains x = true ∨ s₁.document.Below i₁.root x) ∧
        ¬(Sample.occupied.document.contains x = true ∧ s₁.document.Below i₁.root x)) ∧
      ∀ x, s₁.document.Below i₁.root x ↔
        (Subtree.template t).Owns s₁.document i₁.toMount x := by
  have told : Sample.hides = true := by decide +kernel
  unfold Sample.hides at told
  split at told
  · cases told
  case h_2 t next compiled =>
  split at told
  · cases told
  case h_2 i s made =>
  split at told
  · cases told
  case h_2 i₁ s₁ hidden =>
  split at told
  case h_2 => cases told
  case h_1 f node body comment flips before after =>
  cases of_decide_eq_true told
  have plain := Template.plain_of_standard compiled
  have sound := (Document.sound_new false).createElement "i"
  have upkeep := Template.Upkeep.made made
  obtain ⟨live, _, _, frees⟩ :=
    Template.Upkeep.contains_exactly Sample.echo_quiet plain sound upkeep
  obtain ⟨live₁, owned₁, _⟩ := Template.Upkeep.contains_exactly Sample.echo_quiet plain sound
    (upkeep.updated hidden)
  refine ⟨t, next, i, s, i₁, s₁, f, body, comment, compiled, made, hidden, flips, before, after,
    fun x below => ⟨?_, ?_⟩, live₁, owned₁⟩
  · have lives := upkeep.lives (plain.abides Sample.echo_quiet) sound
    have inside := lives.below_of_mounted (plain.abides Sample.echo_quiet)
      (before ▸ List.mem_cons_self)
    exact (live x).1.mpr (.inr (inside.trans below))
  · refine Bool.eq_false_iff.mpr fun stays => ?_
    obtain ⟨g, mem, _⟩ := frees _ i₁ s₁ hidden [] f [] flips x below stays
    cases mem

end LiveTemplate
