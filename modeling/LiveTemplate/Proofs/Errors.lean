import LiveTemplate.Proofs.Host
import LiveTemplate.Proofs.Plans

/-!
# LiveTemplate.Proofs.Errors

Which errors can come out of a computation. Evaluating raises two kinds of errors, and a directive
puts its name on those of its value. A pass adds one for the snapshot of another template and one
for an anchor without a node, and building adds one for a handler that is no function.

  * `Raises`                  every error is allowed, and every result keeps a condition
  * `Expr.eval_raises`        evaluation, and with it the values of bindings and conditions
  * `Template.update_error`   where a pass can fail
  * `Plan.build_raises`       building fails only for want of a handler
-/

namespace LiveTemplate

/-- A condition on the state that calls and new lists keep. -/
structure Calls.Sustain {σ : Type} (calls : Calls σ) (inv : σ → Prop) : Prop where
  call : ∀ f args s, inv s → inv (calls.call f args s).2
  fresh : ∀ s, inv s → inv (calls.fresh s).2

/-- The condition is kept, and every error is allowed. -/
def Raises {σ α : Type} (allowed : EvalError → Prop) (inv : σ → Prop)
    (m : EStateM EvalError σ α) : Prop :=
  ∀ s, inv s →
    match m s with
    | .ok _ t => inv t
    | .error e _ => allowed e

/-- The errors of evaluation are allowed, also under the name of a directive. -/
structure EvalError.Ordinary (allowed : EvalError → Prop) : Prop where
  property : ∀ property base, allowed (.propertyOfNullish property base)
  callee : ∀ callee found, allowed (.notCallable callee found)
  directive : ∀ name cause, allowed cause → allowed (.directive name cause)

section

variable {σ α β : Type} {allowed : EvalError → Prop} {inv : σ → Prop}

theorem raises_pure (a : α) : Raises allowed inv (pure a) := fun _ h => h

theorem raises_throw {e : EvalError} (h : allowed e) :
    Raises allowed inv (throw e : EStateM EvalError σ α) := fun _ _ => h

theorem raises_modify {f : σ → σ} (keeps : ∀ s, inv s → inv (f s)) :
    Raises allowed inv (modify f : EStateM EvalError σ PUnit) := fun s h => keeps s h

theorem Raises.bind {m : EStateM EvalError σ α} {f : α → EStateM EvalError σ β}
    (h : Raises allowed inv m) (next : ∀ a, Raises allowed inv (f a)) :
    Raises allowed inv (m >>= f) := by
  intro s start
  have first := h s start
  cases run : m s with
  | ok a t =>
    rw [run] at first
    rw [bind_of_ok run]
    exact next a t first
  | error e t =>
    rw [run] at first
    rw [bind_of_error run]
    exact first

theorem Raises.loop {body : α → PUnit → EStateM EvalError σ (ForInStep PUnit)} {xs : List α}
    (turn : ∀ a ∈ xs, Raises allowed inv (body a ⟨⟩)) :
    Raises allowed inv (forIn xs PUnit.unit body) := by
  induction xs with
  | nil => exact raises_pure _
  | cons a rest ih =>
    rw [List.forIn_cons]
    refine (turn a List.mem_cons_self).bind fun r => ?_
    cases r with
    | done b => exact raises_pure _
    | yield b => exact ih fun a mem => turn a (List.mem_cons_of_mem _ mem)

/-- A computation that raises the errors of another under the name of a directive. -/
theorem Raises.named {m n : EStateM EvalError σ α} (ordinary : EvalError.Ordinary allowed)
    (h : Raises allowed inv m) (name : String) (ok : ∀ s a t, m s = .ok a t → n s = .ok a t)
    (error : ∀ s e t, m s = .error e t → n s = .error (.directive name e) t) :
    Raises allowed inv n := by
  intro s start
  have ends := h s start
  cases run : m s with
  | ok a t =>
    rw [run] at ends
    rw [ok s a t run]
    exact ends
  | error e t =>
    rw [run] at ends
    rw [error s e t run]
    exact ordinary.directive name e ends

theorem Raises.of_error {m : EStateM EvalError σ α} {s t : σ} {e : EvalError}
    (h : Raises allowed inv m) (start : inv s) (run : m s = .error e t) : allowed e := by
  have ends := h s start
  rwa [run] at ends

/-! ## Evaluation -/

variable {calls : Calls σ} {env : String → Value}

mutual

theorem Expr.eval_raises (ordinary : EvalError.Ordinary allowed) (sustain : calls.Sustain inv) :
    ∀ e : Expr, Raises allowed inv (e.eval calls env)
  | .literal l => by rw [Expr.eval]; exact raises_pure _
  | .ident name => by rw [Expr.eval]; exact raises_pure _
  | .member e name => by
    rw [Expr.eval]
    refine (Expr.eval_raises ordinary sustain e).bind fun base => ?_
    dsimp only
    split
    · exact raises_throw (ordinary.property _ _)
    · exact raises_pure _
  | .element e key => by
    rw [Expr.eval]
    refine (Expr.eval_raises ordinary sustain e).bind fun base => ?_
    refine (Expr.eval_raises ordinary sustain key).bind fun k => ?_
    dsimp only
    split
    · exact raises_throw (ordinary.property _ _)
    · exact raises_pure _
  | .call callee args => by
    rw [Expr.eval]
    refine (Expr.eval_raises ordinary sustain callee).bind fun target => ?_
    split
    · refine (Expr.evalAll_raises ordinary sustain args).bind fun vs => ?_
      exact fun s kept => sustain.call _ vs s kept
    · exact raises_throw (ordinary.callee _ _)
  | .list items => by
    rw [Expr.eval]
    refine (Expr.evalAll_raises ordinary sustain items).bind fun vs => ?_
    exact fun s kept => sustain.fresh s kept
  | .unary op e => by
    rw [Expr.eval]
    exact (Expr.eval_raises ordinary sustain e).bind fun a => raises_pure _
  | .binary op left right => by
    have first := Expr.eval_raises ordinary sustain left
    have second := Expr.eval_raises ordinary sustain right
    cases op
    case and =>
      rw [Expr.eval]
      refine first.bind fun a => ?_
      split
      · exact second
      · exact raises_pure _
    case or =>
      rw [Expr.eval]
      refine first.bind fun a => ?_
      split
      · exact raises_pure _
      · exact second
    all_goals
      simp only [Expr.eval]
      exact first.bind fun a => second.bind fun b => raises_pure _
  | .conditional test yes no => by
    rw [Expr.eval]
    refine (Expr.eval_raises ordinary sustain test).bind fun a => ?_
    split
    · exact Expr.eval_raises ordinary sustain yes
    · exact Expr.eval_raises ordinary sustain no

theorem Expr.evalAll_raises (ordinary : EvalError.Ordinary allowed)
    (sustain : calls.Sustain inv) :
    ∀ es : List Expr, Raises allowed inv (Expr.evalAll calls env es)
  | [] => by rw [Expr.evalAll]; exact raises_pure _
  | e :: rest => by
    rw [Expr.evalAll]
    exact (Expr.eval_raises ordinary sustain e).bind fun v =>
      (Expr.evalAll_raises ordinary sustain rest).bind fun vs => raises_pure _

end

theorem Interpolation.eval_raises (ordinary : EvalError.Ordinary allowed)
    (sustain : calls.Sustain inv) (i : Interpolation) : Raises allowed inv (i.eval calls env) := by
  have rest (parts : List (Span × String)) :
      Raises allowed inv (Interpolation.evalRest calls env parts) := by
    induction parts with
    | nil => exact raises_pure _
    | cons head parts ih =>
      exact (head.1.expr.eval_raises ordinary sustain).bind fun v =>
        ih.bind fun tail => raises_pure _
  unfold Interpolation.eval
  split
  · exact Expr.eval_raises ordinary sustain _
  · exact (rest i.rest).bind fun tail => raises_pure _

theorem Action.compute_raises (ordinary : EvalError.Ordinary allowed)
    (sustain : calls.Sustain inv) (action : Action) :
    Raises allowed inv (action.compute calls env) := by
  cases action with
  | setText content | replaceClass content | setAttribute _ content =>
    exact (content.eval_raises ordinary sustain).bind fun v => raises_pure _
  | applyDirective name d e => exact (e.eval_raises ordinary sustain).bind fun v => raises_pure _
  | setEventData event args =>
    exact (Expr.evalAll_raises ordinary sustain args).bind fun vs => raises_pure _

theorem Binding.compute_raises (ordinary : EvalError.Ordinary allowed)
    (sustain : calls.Sustain inv) (b : Binding) : Raises allowed inv (b.compute calls env) := by
  have action : Raises allowed inv (b.action.compute calls env) :=
    b.action.compute_raises ordinary sustain
  cases found : b.action with
  | applyDirective name directive e =>
    rw [found] at action
    refine action.named ordinary name (fun s a t run => ?_) fun s e t run => ?_
    · simp only [Binding.compute, found, run]
    · simp only [Binding.compute, found, run]
  | _ =>
    rw [found] at action
    simp only [Binding.compute, found]
    exact action

theorem Condition.holds_raises (ordinary : EvalError.Ordinary allowed)
    (sustain : calls.Sustain inv) (scope : Scope) (condition : Condition) :
    Raises allowed inv (condition.holds calls scope) := by
  cases condition with
  | always => exact raises_pure _
  | ident name => exact raises_pure _
  | predicate _ e | expression e =>
    exact (e.eval_raises ordinary sustain).bind fun v => raises_pure _

end

/-! ## One pass -/

variable {κ : Type} {host : Host κ} {allowed : EvalError → Prop} {inv : Stage κ → Prop}

theorem Condition.check_raises (ordinary : EvalError.Ordinary allowed)
    (sustain : host.calls.Sustain inv) (scope : Scope) (condition : Condition) :
    Raises allowed inv (condition.check host scope) :=
  (condition.holds_raises ordinary sustain scope).named ordinary Condition.directiveName
    (fun _ _ _ run => by simp only [Condition.check, run])
    (fun _ _ _ run => by simp only [Condition.check, run])

namespace Template

theorem computeAll_raises (ordinary : EvalError.Ordinary allowed)
    (sustain : host.calls.Sustain inv) (env : String → Value) (bindings : List Binding) :
    Raises allowed inv (computeAll host env bindings) := by
  induction bindings with
  | nil => exact raises_pure _
  | cons b rest ih =>
    exact (b.compute_raises ordinary sustain).bind fun v => ih.bind fun vs => raises_pure _

variable {root : NodeId} {previous : Option Snapshot} {s s' : Stage κ} {e : EvalError}

/-- The second half of a pass fails only for want of an anchor. -/
theorem applyAll_error {values : List (Binding × Computed)}
    (failed : applyAll host root previous values s = .error e s') :
    ∃ anchor, e = .detachedAnchor anchor root := by
  induction values generalizing s with
  | nil => cases failed
  | cons p rest ih =>
    obtain ⟨b, c⟩ := p
    rw [applyAll] at failed
    split at failed
    · exact ih failed
    · rcases error_of_bind failed with unreached | ⟨_, t, _, failed⟩
      · unfold Binding.applyTo at unreached
        split at unreached
        · cases unreached
          exact ⟨_, rfl⟩
        · cases unreached
      · rcases error_of_bind failed with failed | ⟨_, _, _, returned⟩
        · exact ih failed
        · cases returned

/-- Where a pass can fail: on the snapshot of another template, while computing, or while writing
what was computed. -/
theorem update_error {t : Template} {scope : Scope}
    (failed : t.update host scope root previous s = .error e s') :
    e = .foreignSnapshot ∧ s' = s ∨
      computeAll host (scope.narrow t.vars).read t.bindings s = .error e s' ∨
      ∃ values mid, computeAll host (scope.narrow t.vars).read t.bindings s = .ok values mid ∧
        applyAll host root previous values mid = .error e s' := by
  unfold update at failed
  split at failed
  · cases failed
    exact .inl ⟨rfl, rfl⟩
  · rcases error_of_bind failed with computing | ⟨values, mid, computed, failed⟩
    · exact .inr (.inl computing)
    · rcases error_of_bind failed with writing | ⟨_, _, _, returned⟩
      · exact .inr (.inr ⟨values, mid, computed, writing⟩)
      · cases returned

end Template

/-! ## Building -/

/-- The handler is a function of the scope. -/
def Wiring.Found (scope : Scope) (w : Wiring) : Prop := ∃ f, scope.read w.handler = .function f

/-- The error for a handler that is no function. -/
def Wiring.missing (scope : Scope) (w : Wiring) : EvalError :=
  .missingHandler w.event w.handler (scope.read w.handler).typeName

namespace Plan

variable {scope : Scope}

theorem wire_raises {w : Wiring} (missing : ¬w.Found scope → allowed (w.missing scope))
    (id : NodeId) : Raises allowed (fun _ => True) (wire scope id w) := by
  unfold wire
  split
  · exact raises_modify fun _ _ => trivial
  · case h_2 other =>
    exact raises_throw (missing fun found => found.elim fun f same => other f same)

theorem wire_ok {w : Wiring} {id : NodeId} {site site' : Site}
    (run : wire scope id w site = .ok () site') : w.Found scope := by
  cases read : scope.read w.handler with
  | function f => exact ⟨f, read⟩
  | _ =>
    simp only [wire, read] at run
    cases run

mutual

/-- The only errors of building are for handlers that are no functions. -/
theorem build_raises : ∀ {plan : Plan},
    (∀ w ∈ plan.allWirings, ¬w.Found scope → allowed (w.missing scope)) →
      Raises allowed (fun _ => True) (build scope plan)
  | .element tag attributes handlers kids anchor, missing => by
    rw [allWirings, List.forall_mem_append] at missing
    rw [build]
    refine Raises.bind (fun _ _ => trivial) fun id => ?_
    refine Raises.bind (Raises.loop fun _ _ => fun _ _ => trivial) fun _ => ?_
    refine Raises.bind (Raises.loop fun w mem => ?_) fun _ => ?_
    · exact (wire_raises (missing.1 w mem) id).bind fun _ => raises_pure _
    · refine (buildChildren_raises missing.2 id).bind fun _ => ?_
      cases anchor <;> exact fun _ _ => trivial
  | .text content anchor, _ => by
    rw [build]
    cases anchor <;> exact fun _ _ => trivial
  | .comment content, _ => fun _ _ => trivial
  | .placeholder index, _ => fun _ _ => trivial

theorem buildChildren_raises : ∀ {plans : List Plan},
    (∀ w ∈ wiringsOf plans, ¬w.Found scope → allowed (w.missing scope)) →
      ∀ parent : NodeId, Raises allowed (fun _ => True) (buildChildren scope parent plans)
  | [], _, parent => raises_pure _
  | plan :: rest, missing, parent => by
    rw [wiringsOf, List.forall_mem_append] at missing
    rw [buildChildren]
    refine (build_raises missing.1).bind fun id => ?_
    exact Raises.bind (fun _ _ => trivial) fun _ => buildChildren_raises missing.2 parent

end

theorem found_of_loop {id : NodeId} {handlers : List Wiring} {site site' : Site} {u : PUnit}
    (run : (forIn handlers PUnit.unit fun w _ => do
      wire scope id w
      pure (ForInStep.yield PUnit.unit) : Construction PUnit) site = .ok u site') :
    ∀ w ∈ handlers, w.Found scope := by
  induction handlers generalizing site with
  | nil => exact fun _ mem => (List.not_mem_nil mem).elim
  | cons head rest ih =>
    rw [List.forIn_cons] at run
    obtain ⟨step, site₁, first, run⟩ := ok_of_bind run
    obtain ⟨_, site₂, wired, first⟩ := ok_of_bind first
    cases first
    rw [List.forall_mem_cons]
    exact ⟨wire_ok wired, ih run⟩

mutual

/-- What was built found all its handlers. -/
theorem found_of_build : ∀ {plan : Plan} {site site' : Site} {id : NodeId},
    build scope plan site = .ok id site' → ∀ w ∈ plan.allWirings, w.Found scope
  | .element tag attributes handlers kids anchor, site, site', id, run => by
    rw [build] at run
    obtain ⟨_, _, _, run⟩ := ok_of_bind run
    obtain ⟨_, _, _, run⟩ := ok_of_bind run
    obtain ⟨_, _, wired, run⟩ := ok_of_bind run
    obtain ⟨_, _, below, _⟩ := ok_of_bind run
    rw [allWirings, List.forall_mem_append]
    exact ⟨found_of_loop wired, found_of_buildChildren below⟩
  | .text _ _, _, _, _, _ | .comment _, _, _, _, _ | .placeholder _, _, _, _, _ =>
    fun _ mem => (List.not_mem_nil mem).elim

theorem found_of_buildChildren : ∀ {plans : List Plan} {parent : NodeId} {site site' : Site},
    buildChildren scope parent plans site = .ok () site' → ∀ w ∈ wiringsOf plans, w.Found scope
  | [], _, _, _, _ => fun _ mem => (List.not_mem_nil mem).elim
  | plan :: rest, parent, site, site', run => by
    rw [buildChildren] at run
    obtain ⟨_, _, first, run⟩ := ok_of_bind run
    obtain ⟨_, _, _, others⟩ := ok_of_bind run
    rw [wiringsOf, List.forall_mem_append]
    exact ⟨found_of_build first, found_of_buildChildren others⟩

end

end Plan
end LiveTemplate
