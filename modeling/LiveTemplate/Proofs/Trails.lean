import LiveTemplate.Proofs.Runs

/-!
# LiveTemplate.Proofs.Trails

The past of the instances of a run: which passes each of them has been through, and what those
computed. Failed passes leave no trace. The trails follow the calls of the run and their
evaluations, not what the instances keep for themselves.

  * `Trail`           the passes of all instances in a live subtree
  * `Run.trails`      the trails that a run leaves
  * `Run.recalls`     an instance remembers its last pass, and so does everything mounted in it
-/

namespace LiveTemplate

variable {κ : Type}

/-- What the passes of the instances in a live subtree computed, the latest pass first. -/
inductive Trail where
  | template (passes : List (List (Anchor × Computed))) (children : List Trail)
  | conditional (body : Option Trail)

/-- The values of the bindings of a template. -/
def Template.evaluate (host : Host κ) (scope : Scope) (t : Template) (s : Stage κ) :
    List (Anchor × Computed) :=
  match Template.computeAll host (scope.narrow t.vars).read t.bindings s with
  | .ok values _ => values.map fun (binding, value) => (binding.anchor, value)
  | .error _ _ => []

mutual

/-- The trail of a subtree that is made live. -/
def Subtree.createTrail (host : Host κ) (scope : Scope) : Subtree → Stage κ → Trail
  | .template t, s => t.createTrail host scope s
  | .conditional condition body, s =>
    match condition.check host scope s with
    | .ok true s => .conditional (some (body.createTrail host scope s))
    | _ => .conditional none

/-- What is mounted in a new instance goes through one more pass after the first one of the
instance. -/
def Template.createTrail (host : Host κ) (scope : Scope) : Template → Stage κ → Trail
  | t@⟨_, _, _, _, extensions, _, _⟩, s =>
    match (t.buildPlan scope).onStage s with
    | .error _ _ => .template [] []
    | .ok (root, site) s =>
      let trails := Extension.createTrails host scope site.placeholders 0 extensions s
      match Extension.createAll host scope site.placeholders 0 extensions s with
      | .error _ _ => .template [] trails
      | .ok children s =>
        match t.update host scope root none s with
        | .error _ _ => .template [] trails
        | .ok _ s' => .template [t.evaluate host scope s]
            (Extension.updateTrails host scope extensions children trails s')

def Extension.createTrails (host : Host κ) (scope : Scope) (placeholders : List (Nat × NodeId))
    (index : Nat) : List Extension → Stage κ → List Trail
  | [], _ => []
  | ⟨_, _, subtree⟩ :: rest, s =>
    subtree.createTrail host scope s ::
      match subtree.create host scope s with
      | .error _ _ => []
      | .ok mounted s =>
        let s := match placeholders.lookup index with
          | some placeholder => s.edit (swapNodes placeholder mounted.node)
          | none => s
        Extension.createTrails host scope placeholders (index + 1) rest s

/-- The trail of a live subtree after an update. -/
def Subtree.updateTrail (host : Host κ) (scope : Scope) :
    Subtree → Mount → Trail → Stage κ → Trail
  | .template t, mount, trail, s => t.updateTrail host scope mount trail s
  | .conditional condition body, .conditional _ mounted, .conditional past, s =>
    match condition.check host scope s, mounted, past with
    | .error _ _, _, past => .conditional past
    | .ok true s, some live, some trail =>
      .conditional (some (body.updateTrail host scope live trail s))
    | .ok true s, _, _ =>
      match body.create host scope s with
      | .error _ _ => .conditional none
      | .ok _ _ => .conditional (some (body.createTrail host scope s))
    | .ok false _, _, _ => .conditional none
  | .conditional _ _, _, trail, _ => trail

def Template.updateTrail (host : Host κ) (scope : Scope) :
    Template → Mount → Trail → Stage κ → Trail
  | t@⟨_, _, _, _, extensions, _, _⟩, .template root snapshot children, .template passes trails, s =>
    match t.update host scope root snapshot s with
    | .error _ _ => .template passes trails
    | .ok _ s' => .template (t.evaluate host scope s :: passes)
        (Extension.updateTrails host scope extensions children trails s')
  | _, _, trail, _ => trail

def Extension.updateTrails (host : Host κ) (scope : Scope) :
    List Extension → List Mount → List Trail → Stage κ → List Trail
  | ⟨_, _, subtree⟩ :: rest, mount :: mounts, trail :: trails, s =>
    subtree.updateTrail host scope mount trail s ::
      match subtree.update host scope mount s with
      | (⟨_, some _⟩, _) => trails
      | (⟨_, none⟩, s) => Extension.updateTrails host scope rest mounts trails s
  | _, _, trails, _ => trails

end

/-- The trails that a run leaves, one for each instance. -/
def Run.trails {host : Host κ} {held : κ → Heap} {admitted : Template → Prop} {origin : Document} :
    {s : Stage κ} → {instances : List Instance} → Run host held admitted origin s instances →
      List Trail
  | _, _, .start _ => []
  | _, _, .idle run _ => run.trails
  | _, _, .create (s := s) (t := t) run scope _ _ _ =>
    run.trails ++ [t.createTrail host scope s]
  | _, _, .createFailed run _ _ _ _ => run.trails
  | _, _, .update (s := s) (k := k) (i := i) run scope _ _ _ =>
    run.trails.modify k fun trail => i.template.updateTrail host scope i.toMount trail s

/-! ## What instances remember -/

/-- The snapshots of a live subtree are those of the last passes. -/
inductive Mount.Recalls : Mount → Trail → Prop
  | template {root : NodeId} {snapshot : Option Snapshot} {children : List Mount}
      {passes : List (List (Anchor × Computed))} {trails : List Trail}
      (latest : snapshot.map Snapshot.values = passes.head?)
      (mounted : List.Forall₂ Recalls children trails) :
      Recalls (.template root snapshot children) (.template passes trails)
  | hidden {node : NodeId} : Recalls (.conditional node none) (.conditional none)
  | shown {node : NodeId} {m : Mount} {trail : Trail} (body : Recalls m trail) :
      Recalls (.conditional node (some m)) (.conditional (some trail))

section

variable {host : Host κ} {scope : Scope}

/-- A pass returns the values of the bindings. -/
theorem Template.update_evaluates (t : Template) (root : NodeId) (previous : Option Snapshot)
    (s : Stage κ) :
    Ends (t.update host scope root previous) s
      (fun next _ => next.values = t.evaluate host scope s) (fun _ => True) := by
  have pass : Ends (do
        let computed ← computeAll host (scope.narrow t.vars).read t.bindings
        let applied ← applyAll host root previous computed
        return (⟨t.id, computed.map fun (binding, value) => (binding.anchor, value), applied⟩ :
          Snapshot)) s
      (fun next _ => next.values = t.evaluate host scope s) (fun _ => True) := by
    refine Ends.bind (Ends.of_run (fun values s₁ run => ?_) fun _ _ _ => trivial)
    refine Ends.bind (Ends.of_run (fun applied s₂ _ => ?_) fun _ _ _ => trivial)
    refine Ends.of_ok rfl ?_
    rw [evaluate, run]
  unfold Template.update
  by_cases foreign : previous.any (·.template ≠ t.id) = true
  · rw [if_pos foreign]
    exact Ends.of_error rfl trivial
  · rw [if_neg foreign]
    exact pass

mutual

theorem Subtree.create_recalls : ∀ (subtree : Subtree) (s : Stage κ),
    Ends (subtree.create host scope) s
      (fun m _ => m.Recalls (subtree.createTrail host scope s)) (fun _ => True)
  | .template t, s => by
    rw [Subtree.create, Subtree.createTrail]
    exact (Template.create_recalls t s).imp (fun _ _ h => h.2) fun _ h => h
  | .conditional condition body, s => by
    rw [Subtree.create, Subtree.createTrail]
    refine Ends.bind (Ends.of_run (fun holds s₁ checked => ?_) fun _ _ _ => trivial)
    rw [checked]
    cases holds with
    | true =>
      exact Ends.bind ((Subtree.create_recalls body s₁).imp (fun _ _ recalls => .shown recalls)
        fun _ h => h)
    | false => exact Mount.Recalls.hidden

theorem Template.create_recalls : ∀ (t : Template) (s : Stage κ),
    Ends (t.createMount host scope) s
      (fun m _ => (Instance.ofMount t m).toMount = m ∧ m.Recalls (t.createTrail host scope s))
      (fun _ => True)
  | ⟨id, plan, bindings, anchors, extensions, events, handlers⟩, s => by
    rw [Template.createMount, Template.createTrail]
    refine Ends.bind (Ends.of_run (fun ⟨root, site⟩ s₁ built => ?_) fun _ _ _ => trivial)
    rw [built]
    have mounted := Extension.createAll_recalls site.placeholders 0 extensions s₁
    refine Ends.bind (Ends.of_run (fun children s₂ made => ?_) fun _ _ _ => trivial)
    have recalls := mounted.ok made
    refine Ends.bind (Ends.of_run (fun next s₃ passed => ?_) fun _ _ _ => trivial)
    have latest := (Template.update_evaluates _ root none s₂).ok passed
    refine Ends.bind (Ends.modifyGet ?_)
    dsimp only
    rw [made]
    dsimp only
    rw [passed]
    split
    · exact Ends.of_error rfl trivial
    · exact Ends.of_ok rfl ⟨rfl, .template (congrArg some latest)
        (Extension.updateAll_recalls extensions s₃ recalls)⟩

theorem Extension.createAll_recalls (placeholders : List (Nat × NodeId)) : ∀ (index : Nat)
    (extensions : List Extension) (s : Stage κ),
    Ends (Extension.createAll host scope placeholders index extensions) s
      (fun ms _ => List.Forall₂ Mount.Recalls ms
        (Extension.createTrails host scope placeholders index extensions s)) (fun _ => True)
  | index, [], s => by
    rw [Extension.createAll, Extension.createTrails]
    exact List.Forall₂.nil
  | index, ⟨path, name, subtree⟩ :: rest, s => by
    rw [Extension.createAll, Extension.createTrails]
    have here := Subtree.create_recalls subtree s
    refine Ends.bind (Ends.of_run (fun m s₁ made => ?_) fun _ _ _ => trivial)
    rw [made]
    have recalls := here.ok made
    cases found : placeholders.lookup index with
    | none =>
      dsimp only
      exact Ends.bind ((Extension.createAll_recalls placeholders (index + 1) rest s₁).imp
        (fun _ _ more => .cons recalls more) fun _ h => h)
    | some placeholder =>
      dsimp only
      exact Ends.bind (Ends.bind ((Extension.createAll_recalls placeholders (index + 1) rest _).imp
        (fun _ _ more => .cons recalls more) fun _ h => h))

theorem Subtree.update_recalls : ∀ (subtree : Subtree) {m : Mount} {trail : Trail} (s : Stage κ),
    m.Recalls trail →
      (subtree.update host scope m s).1.live.Recalls (subtree.updateTrail host scope m trail s)
  | .template t, m, trail, s, h => by
    rw [Subtree.update, Subtree.updateTrail]
    exact Template.update_recalls t s h
  | .conditional condition body, _, _, s, .template latest mounted => by
    rw [Subtree.update, Subtree.updateTrail]
    · exact .template latest mounted
    all_goals exact nofun
  | .conditional condition body, _, _, s, .hidden => by
    rcases checked : condition.check host scope s with ⟨_ | _, s₁⟩ | ⟨e, s₁⟩ <;>
      simp only [Subtree.update, Subtree.updateTrail, checked]
    · exact .hidden
    · have made := Subtree.create_recalls body s₁
      cases run : body.create host scope s₁ with
      | error e s₂ => exact .hidden
      | ok m s₂ => exact .shown (made.ok run)
    · exact .hidden
  | .conditional condition body, _, _, s, .shown inner => by
    rcases checked : condition.check host scope s with ⟨_ | _, s₁⟩ | ⟨e, s₁⟩ <;>
      simp only [Subtree.update, Subtree.updateTrail, checked]
    · exact .hidden
    · exact .shown (Subtree.update_recalls body s₁ inner)
    · exact .shown inner

theorem Template.update_recalls : ∀ (t : Template) {m : Mount} {trail : Trail} (s : Stage κ),
    m.Recalls trail →
      (t.updateMount host scope m s).1.live.Recalls (t.updateTrail host scope m trail s)
  | ⟨id, plan, bindings, anchors, extensions, events, handlers⟩, _, _, s,
      @Mount.Recalls.template root snapshot children passes trails latest mounted => by
    rw [Template.updateMount, Template.updateTrail]
    cases run : Template.update host ⟨id, plan, bindings, anchors, extensions, events, handlers⟩
        scope root snapshot s with
    | error e s₁ => exact .template latest mounted
    | ok next s₁ =>
      exact .template (congrArg some ((Template.update_evaluates _ root snapshot s).ok run))
        (Extension.updateAll_recalls extensions s₁ mounted)
  | ⟨_, _, _, _, _, _, _⟩, _, _, s, .hidden => by
    rw [Template.updateMount, Template.updateTrail]
    · exact .hidden
    all_goals exact nofun
  | ⟨_, _, _, _, _, _, _⟩, _, _, s, .shown inner => by
    rw [Template.updateMount, Template.updateTrail]
    · exact .shown inner
    all_goals exact nofun

theorem Extension.updateAll_recalls : ∀ (extensions : List Extension) {ms : List Mount}
    {trails : List Trail} (s : Stage κ), List.Forall₂ Mount.Recalls ms trails →
      List.Forall₂ Mount.Recalls (Extension.updateAll host scope extensions ms s).1.live
        (Extension.updateTrails host scope extensions ms trails s)
  | [], ms, trails, s, h => by
    rw [Extension.updateAll, Extension.updateTrails]
    · exact h
    all_goals exact nofun
  | ⟨path, name, subtree⟩ :: rest, _, _, s, .nil => by
    rw [Extension.updateAll, Extension.updateTrails]
    · exact .nil
    all_goals exact nofun
  | ⟨path, name, subtree⟩ :: rest, m :: ms, _, s, .cons here more => by
    rw [Extension.updateAll, Extension.updateTrails]
    have recalls := Subtree.update_recalls subtree s here
    rcases run : subtree.update host scope m s with ⟨⟨live, _ | e⟩, s₁⟩
    · rw [run] at recalls
      exact .cons recalls (Extension.updateAll_recalls rest s₁ more)
    · rw [run] at recalls
      exact .cons recalls more

end

end

theorem Template.createInstance_recalls {host : Host κ} {scope : Scope} (t : Template)
    (s : Stage κ) :
    Ends (t.createInstance host scope) s
      (fun i _ => i.toMount.Recalls (t.createTrail host scope s)) (fun _ => True) := by
  refine Ends.bind ((t.create_recalls s).imp (fun m s' ⟨same, recalls⟩ => ?_) fun _ h => h)
  refine Ends.of_ok rfl ?_
  rwa [same]

theorem Instance.update_recalls (host : Host κ) (scope : Scope) (i : Instance) {trail : Trail}
    (s : Stage κ) (h : i.toMount.Recalls trail) :
    (i.update host scope s).1.live.toMount.Recalls
      (i.template.updateTrail host scope i.toMount trail s) := by
  have same : (i.update host scope s).1.live.toMount =
      (i.template.updateMount host scope i.toMount s).1.live := by
    change (ofMount i.template (i.template.updateMount host scope
      (.template i.root i.snapshot i.children) s).1.live).toMount =
        (i.template.updateMount host scope (.template i.root i.snapshot i.children) s).1.live
    rw [Template.updateMount_template]
    split <;> rfl
  rw [same]
  exact i.template.update_recalls s h

theorem forall₂_getElem? {α β : Type} {R : α → β → Prop} {xs : List α} {ys : List β}
    (h : List.Forall₂ R xs ys) {k : Nat} {x : α} (found : xs[k]? = some x) :
    ∃ y, ys[k]? = some y ∧ R x y := by
  obtain ⟨lt, rfl⟩ := List.getElem?_eq_some_iff.mp found
  have lt' : k < ys.length := h.length_eq ▸ lt
  exact ⟨_, List.getElem?_eq_getElem lt', h.get lt lt'⟩

theorem forall₂_set_modify {α β : Type} {R : α → β → Prop} {xs : List α} {ys : List β}
    (h : List.Forall₂ R xs ys) {k : Nat} {x x' : α} (found : xs[k]? = some x) {f : β → β}
    (step : ∀ y, R x y → R x' (f y)) : List.Forall₂ R (xs.set k x') (ys.modify k f) := by
  induction h generalizing k with
  | nil => cases found
  | cons here rest ih =>
    cases k with
    | zero =>
      cases found
      exact .cons (step _ here) rest
    | succ k => exact .cons here (ih found)

/-- After every run, the instances remember their last passes. -/
theorem Run.recalls {host : Host κ} {held : κ → Heap} {admitted : Template → Prop}
    {origin : Document} {s : Stage κ} {instances : List Instance}
    (run : Run host held admitted origin s instances) :
    List.Forall₂ (fun i trail => i.toMount.Recalls trail) instances run.trails := by
  induction run with
  | start fresh => exact .nil
  | idle run same ih => exact ih
  | @create s s' instances t i run scope ok coherent made ih =>
    exact List.rel_append ih (.cons ((t.createInstance_recalls s).ok made) .nil)
  | createFailed run scope ok coherent failed ih => exact ih
  | @update s s' instances k i i' error run scope found coherent updated ih =>
    refine forall₂_set_modify ih found fun trail recalls => ?_
    have after := i.update_recalls host scope s recalls
    rwa [updated] at after

end LiveTemplate
