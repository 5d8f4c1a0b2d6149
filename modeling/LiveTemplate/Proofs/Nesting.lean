import LiveTemplate.Proofs.Mounting
import LiveTemplate.Proofs.Errors

/-!
# LiveTemplate.Proofs.Nesting

Templates inside templates. The bodies of conditions and the components of a template are templates
of their own, which are mounted when an instance is made, or later. What is told here of a whole
tree of templates does not depend on the document: which errors come out of it, and which templates
are live in it.

  * `Template.nested`     the templates that can be mounted inside a template
  * `Template.raises`     errors of creating and updating a tree of templates
  * `Subtree.Live`        what is mounted has a property
  * `Template.Presents`   the templates that an instance shows
  * `Template.carries`    a template is live only if it found its handlers
-/

namespace LiveTemplate

/-! ## Trees of templates -/

/-- The handlers that an instance wires on its own nodes. -/
def Template.wirings (t : Template) : List Wiring := t.plan.allWirings

mutual

/-- The templates that a subtree can make live. -/
def Subtree.templates : Subtree → List Template
  | .template t => t :: t.nested
  | .conditional _ body => body.templates

/-- The templates that can be mounted inside an instance, at any depth. -/
def Template.nested : Template → List Template
  | ⟨_, _, _, _, extensions, _, _⟩ => Extension.templates extensions

def Extension.templates : List Extension → List Template
  | [] => []
  | ⟨_, _, subtree⟩ :: rest => subtree.templates ++ Extension.templates rest

end

/-! ## Errors in a tree of templates -/

/-- All errors are allowed, those for handlers apart. -/
structure EvalError.Lenient (allowed : EvalError → Prop) : Prop
    extends EvalError.Ordinary allowed where
  foreign : allowed .foreignSnapshot
  detached : ∀ anchor root, allowed (.detachedAnchor anchor root)

/-- The errors for the handlers that these templates miss in the scope are allowed. -/
def Scope.Excuses (allowed : EvalError → Prop) (scope : Scope) (ts : List Template) : Prop :=
  ∀ t ∈ ts, ∀ w ∈ t.wirings, ¬w.Found scope → allowed (w.missing scope)

def Updated.Raises {α : Type} (allowed : EvalError → Prop) (updated : Updated α) : Prop :=
  ∀ e, updated.error = some e → allowed e

theorem Updated.raises_none {α : Type} {allowed : EvalError → Prop} (live : α) :
    Updated.Raises allowed ⟨live, none⟩ := by
  intro e same
  cases same

section

variable {κ : Type} {host : Host κ} {scope : Scope} {allowed : EvalError → Prop}

theorem calls_sustain_true : host.calls.Sustain fun _ => True :=
  ⟨fun _ _ _ _ => trivial, fun _ _ => trivial⟩

namespace Template

theorem update_raises (lenient : EvalError.Lenient allowed) {t : Template} {root : NodeId}
    {previous : Option Snapshot} :
    Raises allowed (fun _ => True) (t.update host scope root previous) := by
  intro s _
  cases run : t.update host scope root previous s with
  | ok snapshot s' => trivial
  | error e s' =>
    rcases update_error run with ⟨rfl, _⟩ | computing | ⟨values, mid, _, writing⟩
    · exact lenient.foreign
    · exact (computeAll_raises lenient.toOrdinary calls_sustain_true _ _).of_error trivial computing
    · obtain ⟨anchor, rfl⟩ := applyAll_error writing
      exact lenient.detached anchor root

theorem anchorNodes_error {root : NodeId} {anchored : List (Nat × NodeId)} {paths : List Path}
    {slot : Nat} {e : EvalError} (failed : anchorNodes root anchored paths slot = .error e) :
    ∃ anchor, e = .detachedAnchor anchor root := by
  induction paths generalizing slot with
  | nil => cases failed
  | cons path rest ih =>
    rw [anchorNodes] at failed
    split at failed
    · cases failed
      exact ⟨_, rfl⟩
    · cases others : anchorNodes root anchored rest (slot + 1) with
      | error e' =>
        rw [others] at failed
        cases failed
        exact ih others
      | ok nodes =>
        rw [others] at failed
        cases failed

theorem buildPlan_raises (lenient : EvalError.Lenient allowed) {t : Template}
    (missing : ∀ w ∈ t.wirings, ¬w.Found scope → allowed (w.missing scope)) :
    Raises allowed (fun _ => True) (t.buildPlan scope) := by
  unfold buildPlan
  refine Raises.bind (fun _ _ => trivial) fun _ => ?_
  refine (Plan.build_raises missing).bind fun root => ?_
  refine Raises.bind (fun _ _ => trivial) fun site => ?_
  dsimp only
  split
  · case h_1 e failed =>
    obtain ⟨anchor, rfl⟩ := anchorNodes_error failed
    exact Raises.bind (raises_throw (lenient.detached anchor root)) fun _ => raises_pure _
  · exact Raises.bind (fun _ _ => trivial) fun _ => raises_pure _

end Template

theorem Construction.onStage_raises {α : Type} {construction : Construction α}
    (h : Raises allowed (fun _ => True) construction) :
    Raises allowed (fun _ => True) (construction.onStage : Eval (Stage κ) (α × Site)) := by
  intro s _
  have ends := h { document := s.document } trivial
  unfold Construction.onStage
  cases run : construction { document := s.document } with
  | ok a site => trivial
  | error e site =>
    rw [run] at ends
    exact ends

theorem Subtree.conditional_raises (lenient : EvalError.Lenient allowed) {condition : Condition}
    {body : Subtree}
    (creates : Raises allowed (fun _ => True) (body.create host scope))
    (updates : ∀ m s, (body.update host scope m s).1.Raises allowed) :
    Raises allowed (fun _ => True)
        ((Subtree.conditional condition body).create host scope) ∧
      ∀ m s, ((Subtree.conditional condition body).update host scope m s).1.Raises allowed := by
  have check := condition.check_raises lenient.toOrdinary (@calls_sustain_true κ host) scope
  refine ⟨?_, fun m s => ?_⟩
  · rw [Subtree.create]
    refine check.bind fun b => ?_
    cases b with
    | true => exact creates.bind fun _ => raises_pure _
    | false => exact Raises.bind (fun _ _ => trivial) fun _ => raises_pure _
  · cases m with
    | template root snapshot children =>
      rw [Subtree.update]
      · exact Updated.raises_none _
      · intros
        contradiction
    | conditional node mounted =>
      unfold Subtree.update
      cases run : condition.check host scope s with
      | error e s₁ =>
        intro e' same
        cases same
        exact check.of_error trivial run
      | ok b s₁ =>
        cases b with
        | false => cases mounted <;> exact Updated.raises_none _
        | true =>
          cases mounted with
          | some live => exact updates live s₁
          | none =>
            dsimp only
            cases made : body.create host scope s₁ with
            | ok live s₂ => exact Updated.raises_none _
            | error e s₂ =>
              intro e' same
              cases same
              exact creates.of_error trivial made

theorem Template.raises_of_extensions (lenient : EvalError.Lenient allowed) {t : Template}
    (own : ∀ w ∈ t.wirings, ¬w.Found scope → allowed (w.missing scope))
    (creates : ∀ placeholders index, Raises allowed (fun _ => True)
      (Extension.createAll host scope placeholders index t.extensions))
    (updates : ∀ ms s, (Extension.updateAll host scope t.extensions ms s).1.Raises allowed) :
    Raises allowed (fun _ => True) (t.createMount host scope) ∧
      ∀ m s, (t.updateMount host scope m s).1.Raises allowed := by
  have refreshes (m : Mount) (s : Stage κ) : (t.updateMount host scope m s).1.Raises allowed := by
    cases m with
    | conditional node body =>
      rw [Template.updateMount]
      · exact Updated.raises_none _
      · intros
        contradiction
    | template root snapshot children =>
      rw [Template.updateMount_template]
      cases run : t.update host scope root snapshot s with
      | error e s₁ =>
        intro e' same
        cases same
        exact (Template.update_raises lenient).of_error trivial run
      | ok next s₁ => exact updates children s₁
  refine ⟨?_, refreshes⟩
  rw [Template.createMount_eq, Template.create]
  refine Raises.bind ?_ fun made => ?_
  · have builds := Template.buildPlan_raises lenient own
    refine (Construction.onStage_raises builds).bind fun built => ?_
    exact (creates built.2.placeholders 0).bind fun _ => raises_pure _
  · intro s _
    have ends := refreshes (.template made.1 none made.2) s
    dsimp only
    rcases run : t.updateMount host scope (.template made.1 none made.2) s with
      ⟨⟨live, error⟩, s₁⟩
    rw [run] at ends
    cases error with
    | none => trivial
    | some e => exact ends e rfl

mutual

theorem Subtree.raises (lenient : EvalError.Lenient allowed) : ∀ {subtree : Subtree},
    scope.Excuses allowed subtree.templates →
      Raises allowed (fun _ => True) (subtree.create host scope) ∧
        ∀ m s, (subtree.update host scope m s).1.Raises allowed
  | .template t, excuses => by
    rw [Subtree.templates] at excuses
    obtain ⟨creates, updates⟩ := Template.raises lenient excuses
    refine ⟨?_, fun m s => ?_⟩
    · rw [Subtree.create]
      exact creates
    · rw [Subtree.update]
      exact updates m s
  | .conditional condition body, excuses => by
    rw [Subtree.templates] at excuses
    obtain ⟨creates, updates⟩ := Subtree.raises lenient excuses
    exact Subtree.conditional_raises lenient creates updates

/-- Creating and updating an instance with all that is mounted in it. -/
theorem Template.raises (lenient : EvalError.Lenient allowed) : ∀ {t : Template},
    scope.Excuses allowed (t :: t.nested) →
      Raises allowed (fun _ => True) (t.createMount host scope) ∧
        ∀ m s, (t.updateMount host scope m s).1.Raises allowed
  | ⟨id, plan, bindings, anchors, extensions, events, handlers⟩, excuses => by
    obtain ⟨own, inner⟩ := List.forall_mem_cons.mp excuses
    rw [Template.nested] at inner
    obtain ⟨creates, updates⟩ := Extension.raises lenient inner
    exact Template.raises_of_extensions lenient own creates updates

theorem Extension.raises (lenient : EvalError.Lenient allowed) : ∀ {extensions : List Extension},
    scope.Excuses allowed (Extension.templates extensions) →
      (∀ placeholders index, Raises allowed (fun _ => True)
        (Extension.createAll host scope placeholders index extensions)) ∧
        ∀ ms s, (Extension.updateAll host scope extensions ms s).1.Raises allowed
  | [], _ => by
    refine ⟨fun placeholders index => ?_, fun ms s => ?_⟩
    · rw [Extension.createAll]
      exact raises_pure _
    · rw [Extension.updateAll_nil]
      exact Updated.raises_none _
  | ⟨path, name, subtree⟩ :: rest, excuses => by
    rw [Extension.templates] at excuses
    obtain ⟨first, others⟩ := List.forall_mem_append.mp excuses
    obtain ⟨creates, updates⟩ := Subtree.raises lenient first
    obtain ⟨creates', updates'⟩ := Extension.raises lenient others
    refine ⟨fun placeholders index => ?_, fun ms s => ?_⟩
    · rw [Extension.createAll]
      refine creates.bind fun m => ?_
      cases placeholders.lookup index with
      | none => exact (creates' placeholders (index + 1)).bind fun _ => raises_pure _
      | some placeholder =>
        refine Raises.bind (fun _ _ => trivial) fun _ => ?_
        exact (creates' placeholders (index + 1)).bind fun _ => raises_pure _
    · cases ms with
      | nil =>
        rw [Extension.updateAll]
        · exact Updated.raises_none _
        · intros
          contradiction
      | cons m ms =>
        have ends := updates m s
        rw [Extension.updateAll]
        rcases run : subtree.update host scope m s with ⟨⟨live, error⟩, s₁⟩
        rw [run] at ends
        cases error with
        | some e => exact ends
        | none => exact updates' ms s₁

end

end

/-! ## What is mounted -/

section

variable (P : Template → Prop) (must : Condition → Prop)

mutual

/-- Whatever is live in a subtree has the property, and where a condition must hold, something
is. -/
def Subtree.Live : Subtree → Mount → Prop
  | .template t, m => t.Live m
  | .conditional _ body, .conditional _ (some live) => body.Live live
  | .conditional condition _, .conditional _ none => ¬must condition
  | .conditional _ _, .template _ _ _ => False

def Template.Live : Template → Mount → Prop
  | t@⟨_, _, _, _, extensions, _, _⟩, .template _ _ children =>
    P t ∧ Extension.LiveAll extensions children
  | _, .conditional _ _ => False

def Extension.LiveAll : List Extension → List Mount → Prop
  | [], _ => True
  | ⟨_, _, subtree⟩ :: rest, m :: ms => subtree.Live m ∧ Extension.LiveAll rest ms
  | _ :: _, [] => False

end

/-- The templates that an instance shows: itself, its components, and the bodies of its conditions
that hold. -/
inductive Template.Presents : Template → Template → Prop
  | self (t : Template) : Presents t t
  | component {t u v : Template} {path : Path} {name : String}
      (here : ⟨path, name, .template v⟩ ∈ t.extensions) (inner : Presents v u) : Presents t u
  | conditional {t u v : Template} {path : Path} {name : String} {condition : Condition}
      (here : ⟨path, name, .conditional condition (.template v)⟩ ∈ t.extensions)
      (holds : must condition) (inner : Presents v u) : Presents t u

end

variable {P : Template → Prop} {must : Condition → Prop}

theorem Template.live_iff {t : Template} {root : NodeId} {snapshot : Option Snapshot}
    {children : List Mount} : t.Live P must (.template root snapshot children) ↔
      P t ∧ Extension.LiveAll P must t.extensions children := by
  obtain ⟨id, plan, bindings, anchors, extensions, events, handlers⟩ := t
  rw [Template.Live]

theorem Template.Live.split {t : Template} {m : Mount} (live : t.Live P must m) :
    P t ∧ ∃ children, Extension.LiveAll P must t.extensions children := by
  cases m with
  | template root snapshot children =>
    obtain ⟨own, inner⟩ := Template.live_iff.mp live
    exact ⟨own, children, inner⟩
  | conditional node body =>
    rw [Template.Live] at live
    exact live.elim

theorem Extension.LiveAll.of_mem {extensions : List Extension} {ms : List Mount}
    (live : Extension.LiveAll P must extensions ms) {extension : Extension}
    (mem : extension ∈ extensions) : ∃ m, extension.subtree.Live P must m := by
  induction extensions generalizing ms with
  | nil => cases mem
  | cons head rest ih =>
    obtain ⟨path, name, subtree⟩ := head
    cases ms with
    | nil =>
      rw [Extension.LiveAll] at live
      exact live.elim
    | cons m ms =>
      rw [Extension.LiveAll] at live
      rcases List.mem_cons.mp mem with rfl | mem
      · exact ⟨m, live.1⟩
      · exact ih live.2 mem

/-- What is shown is live. -/
theorem Template.Live.of_presents {t u : Template} (presents : t.Presents must u) :
    ∀ {m : Mount}, t.Live P must m → P u := by
  induction presents with
  | self t =>
    intro m live
    obtain ⟨own, _⟩ := live.split
    exact own
  | component here _ ih =>
    intro m live
    obtain ⟨_, children, inner⟩ := live.split
    obtain ⟨m', live'⟩ := inner.of_mem here
    rw [Subtree.Live] at live'
    exact ih live'
  | conditional here holds _ ih =>
    intro m live
    obtain ⟨_, children, inner⟩ := live.split
    obtain ⟨m', live'⟩ := inner.of_mem here
    cases m' with
    | template root snapshot children =>
      rw [Subtree.Live] at live'
      exact live'.elim
    | conditional node mounted =>
      cases mounted with
      | none =>
        rw [Subtree.Live] at live'
        exact (live' holds).elim
      | some body =>
        rw [Subtree.Live, Subtree.Live] at live'
        exact ih live'

section

variable {κ : Type} {host : Host κ} {scope : Scope}

/-- The condition holds, whatever the state. -/
def Condition.Holds (host : Host κ) (scope : Scope) (condition : Condition) : Prop :=
  ∀ s, ∃ s', condition.check host scope s = .ok true s'

/-- Those of the templates that find all their handlers in the scope have the property. -/
def Scope.Admits (P : Template → Prop) (scope : Scope) (ts : List Template) : Prop :=
  ∀ t ∈ ts, (∀ w ∈ t.wirings, w.Found scope) → P t

theorem Template.found_of_buildPlan {t : Template} {site site' : Site} {root : NodeId}
    (run : t.buildPlan scope site = .ok root site') : ∀ w ∈ t.wirings, w.Found scope := by
  unfold Template.buildPlan at run
  obtain ⟨_, _, _, run⟩ := ok_of_bind run
  obtain ⟨_, _, built, _⟩ := ok_of_bind run
  exact Plan.found_of_build built

theorem Construction.of_onStage {α : Type} {construction : Construction α} {s s' : Stage κ}
    {a : α} {site : Site} (run : construction.onStage s = .ok (a, site) s') :
    construction { document := s.document } = .ok a site := by
  unfold Construction.onStage at run
  split at run
  · case h_1 made =>
    cases run
    exact made
  · cases run

section

variable (P : Template → Prop) (host : Host κ) (scope : Scope)

/-- What a subtree makes live has the property, and an update without an error keeps it so. In
either case the bodies of all conditions that hold are live. -/
def Subtree.Carries (subtree : Subtree) : Prop :=
  ∀ must : Condition → Prop, (∀ condition, must condition → condition.Holds host scope) →
    (∀ s m s', subtree.create host scope s = .ok m s' → subtree.Live P must m) ∧
    ∀ m s, subtree.Live P (fun _ => False) m → (subtree.update host scope m s).1.error = none →
      subtree.Live P must (subtree.update host scope m s).1.live

def Template.Carries (t : Template) : Prop :=
  ∀ must : Condition → Prop, (∀ condition, must condition → condition.Holds host scope) →
    (∀ s m s', t.createMount host scope s = .ok m s' → t.Live P must m) ∧
    ∀ m s, t.Live P (fun _ => False) m → (t.updateMount host scope m s).1.error = none →
      t.Live P must (t.updateMount host scope m s).1.live

def Extension.AllCarry (extensions : List Extension) : Prop :=
  ∀ must : Condition → Prop, (∀ condition, must condition → condition.Holds host scope) →
    (∀ placeholders index s ms s',
      Extension.createAll host scope placeholders index extensions s = .ok ms s' →
        Extension.LiveAll P must extensions ms) ∧
    ∀ ms s, Extension.LiveAll P (fun _ => False) extensions ms →
      (Extension.updateAll host scope extensions ms s).1.error = none →
        Extension.LiveAll P must extensions (Extension.updateAll host scope extensions ms s).1.live

end

theorem Subtree.conditional_carries {condition : Condition} {body : Subtree}
    (carries : body.Carries P host scope) :
    (Subtree.conditional condition body).Carries P host scope := by
  intro must weaker
  obtain ⟨creates, updates⟩ := carries must weaker
  have hidden {s s' : Stage κ} (check : condition.check host scope s = .ok false s') :
      ¬must condition := by
    intro holds
    obtain ⟨_, shown⟩ := weaker condition holds s
    rw [check] at shown
    cases shown
  refine ⟨fun s m s' made => ?_, fun m s live fine => ?_⟩
  · rw [Subtree.create] at made
    obtain ⟨b, s₁, check, made⟩ := ok_of_bind made
    cases b with
    | true =>
      obtain ⟨inner, s₂, created, returned⟩ := ok_of_bind made
      cases returned
      rw [Subtree.Live]
      exact creates _ _ _ created
    | false =>
      obtain ⟨_, _, _, returned⟩ := ok_of_bind made
      cases returned
      rw [Subtree.Live]
      exact hidden check
  · cases m with
    | template root snapshot children =>
      rw [Subtree.Live] at live
      exact live.elim
    | conditional node mounted =>
      unfold Subtree.update at fine ⊢
      cases check : condition.check host scope s with
      | error e s₁ =>
        rw [check] at fine
        cases fine
      | ok b s₁ =>
        rw [check] at fine
        cases b with
        | false =>
          cases mounted <;>
          · rw [Subtree.Live]
            exact hidden check
        | true =>
          cases mounted with
          | some inner =>
            rw [Subtree.Live] at live ⊢
            exact updates inner s₁ live fine
          | none =>
            dsimp only at fine ⊢
            cases made : body.create host scope s₁ with
            | error e s₂ =>
              rw [made] at fine
              cases fine
            | ok inner s₂ =>
              rw [Subtree.Live]
              exact creates _ _ _ made

theorem Template.carries_of_extensions {t : Template} (own : (∀ w ∈ t.wirings, w.Found scope) → P t)
    (inner : Extension.AllCarry P host scope t.extensions) : t.Carries P host scope := by
  intro must weaker
  have refreshes (m : Mount) (s : Stage κ) (live : t.Live P (fun _ => False) m)
      (fine : (t.updateMount host scope m s).1.error = none) :
      t.Live P must (t.updateMount host scope m s).1.live := by
    cases m with
    | conditional node body =>
      rw [Template.Live] at live
      exact live.elim
    | template root snapshot children =>
      obtain ⟨here, below⟩ := Template.live_iff.mp live
      rw [Template.updateMount_template] at fine ⊢
      cases run : t.update host scope root snapshot s with
      | error e s₁ =>
        rw [run] at fine
        cases fine
      | ok next s₁ =>
        rw [run] at fine
        exact Template.live_iff.mpr ⟨here, (inner must weaker).2 children s₁ below fine⟩
  refine ⟨fun s m s' made => ?_, refreshes⟩
  rw [Template.createMount_eq, Template.create] at made
  obtain ⟨⟨root, children⟩, s₁, created, made⟩ := ok_of_bind made
  obtain ⟨⟨root', site⟩, s₂, built, created⟩ := ok_of_bind created
  obtain ⟨children', s₃, mounted, returned⟩ := ok_of_bind created
  cases returned
  have here := own (Template.found_of_buildPlan (Construction.of_onStage built))
  have below : Extension.LiveAll P (fun _ => False) t.extensions children :=
    (inner (fun _ => False) fun _ never => never.elim).1 _ _ _ _ _ mounted
  have after := refreshes (.template root none children) s₁ (Template.live_iff.mpr ⟨here, below⟩)
  dsimp only at made
  split at made
  · case h_1 run =>
    cases made
    rw [run] at after
    exact after rfl
  · cases made

theorem Extension.allCarry_cons {path : Path} {name : String} {subtree : Subtree}
    {rest : List Extension} (carries : subtree.Carries P host scope)
    (others : Extension.AllCarry P host scope rest) :
    Extension.AllCarry P host scope (⟨path, name, subtree⟩ :: rest) := by
  intro must weaker
  obtain ⟨creates, updates⟩ := carries must weaker
  obtain ⟨creates', updates'⟩ := others must weaker
  refine ⟨fun placeholders index s ms s' made => ?_, fun ms s live fine => ?_⟩
  · rw [Extension.createAll] at made
    obtain ⟨m, s₁, created, made⟩ := ok_of_bind made
    have tail : ∃ ms' t t', ms = m :: ms' ∧
        Extension.createAll host scope placeholders (index + 1) rest t = .ok ms' t' := by
      cases found : placeholders.lookup index with
      | none =>
        rw [found] at made
        obtain ⟨ms', t', mounted, returned⟩ := ok_of_bind made
        cases returned
        exact ⟨ms', s₁, _, rfl, mounted⟩
      | some placeholder =>
        rw [found] at made
        obtain ⟨_, s₂, _, made⟩ := ok_of_bind made
        obtain ⟨ms', t', mounted, returned⟩ := ok_of_bind made
        cases returned
        exact ⟨ms', s₂, _, rfl, mounted⟩
    obtain ⟨ms', t, t', rfl, mounted⟩ := tail
    rw [Extension.LiveAll]
    exact ⟨creates _ _ _ created, creates' _ _ _ _ _ mounted⟩
  · cases ms with
    | nil =>
      rw [Extension.LiveAll] at live
      exact live.elim
    | cons m ms =>
      rw [Extension.LiveAll] at live
      have here := updates m s live.1
      rw [Extension.updateAll] at fine ⊢
      rcases run : subtree.update host scope m s with ⟨⟨after, error⟩, s₁⟩
      rw [run] at fine here
      cases error with
      | some e => cases fine
      | none =>
        rw [Extension.LiveAll]
        exact ⟨here rfl, updates' ms s₁ live.2 fine⟩

mutual

theorem Subtree.carries : ∀ {subtree : Subtree}, scope.Admits P subtree.templates →
    subtree.Carries P host scope
  | .template t, admits => by
    rw [Subtree.templates] at admits
    intro must weaker
    obtain ⟨creates, updates⟩ := Template.carries admits must weaker
    refine ⟨fun s m s' made => ?_, fun m s live fine => ?_⟩
    · rw [Subtree.create] at made
      rw [Subtree.Live]
      exact creates s m s' made
    · rw [Subtree.update] at fine ⊢
      rw [Subtree.Live] at live ⊢
      exact updates m s live fine
  | .conditional condition body, admits => by
    rw [Subtree.templates] at admits
    exact Subtree.conditional_carries (Subtree.carries admits)

theorem Template.carries : ∀ {t : Template}, scope.Admits P (t :: t.nested) → t.Carries P host scope
  | ⟨id, plan, bindings, anchors, extensions, events, handlers⟩, admits => by
    obtain ⟨own, inner⟩ := List.forall_mem_cons.mp admits
    rw [Template.nested] at inner
    exact Template.carries_of_extensions own (Extension.allCarry inner)

theorem Extension.allCarry : ∀ {extensions : List Extension},
    scope.Admits P (Extension.templates extensions) → Extension.AllCarry P host scope extensions
  | [], _ => by
    intro must weaker
    refine ⟨fun _ _ _ _ _ _ => ?_, fun _ _ _ _ => ?_⟩ <;>
    · rw [Extension.LiveAll]
      trivial
  | ⟨path, name, subtree⟩ :: rest, admits => by
    rw [Extension.templates] at admits
    obtain ⟨first, others⟩ := List.forall_mem_append.mp admits
    exact Extension.allCarry_cons (Subtree.carries first) (Extension.allCarry others)

end

end

end LiveTemplate
