import LiveTemplate.Proofs.References
import LiveTemplate.Template.Update

/-!
# LiveTemplate.Proofs.Evaluation

Evaluating the same expression twice, from two states of the host. If the states and the
environments agree up to references, and the host keeps it so, then both evaluations stop at the
same error, or neither does and the results agree too.

  * `Abreast`             two outcomes, both results or both the same error
  * `Coupling.InStep`     two computations whose outcomes are so
  * `Expr.eval_inStep`    the main result, for expressions
-/

namespace LiveTemplate

variable {σ : Type}

/-- A relation between two states that calls and new lists keep, up to references. -/
structure Coupling (calls : Calls σ) where
  holds : Pairing → σ → σ → Prop
  faithful : ∀ pairs s t, holds pairs s t → pairs.Faithful
  call : ∀ f pairs s t as bs, holds pairs s t → List.Forall₂ (Value.Alike pairs) as bs →
    ∃ more : Pairing, more.Extends pairs ∧
      holds more (calls.call f as s).2 (calls.call f bs t).2 ∧
      Value.Alike more (calls.call f as s).1 (calls.call f bs t).1
  newList : ∀ pairs s t as bs, holds pairs s t → List.Forall₂ (Value.Alike pairs) as bs →
    ∃ more : Pairing, more.Extends pairs ∧ holds more (calls.fresh s).2 (calls.fresh t).2 ∧
      Value.Alike more (.list (calls.fresh s).1 as) (.list (calls.fresh t).1 bs)

theorem ok_of_bind {ε α β : Type} {m : EStateM ε σ α} {f : α → EStateM ε σ β} {s s' : σ} {b : β}
    (h : (m >>= f) s = .ok b s') : ∃ a t, m s = .ok a t ∧ f a t = .ok b s' := by
  change EStateM.bind m f s = .ok b s' at h
  unfold EStateM.bind at h
  split at h
  · rename_i a t run
    exact ⟨a, t, run, h⟩
  · cases h

theorem bind_of_ok {ε α β : Type} {m : EStateM ε σ α} {f : α → EStateM ε σ β} {s t : σ} {a : α}
    (h : m s = .ok a t) : (m >>= f) s = f a t := by
  change EStateM.bind m f s = f a t
  unfold EStateM.bind
  rw [h]

theorem bind_of_error {ε α β : Type} {m : EStateM ε σ α} {f : α → EStateM ε σ β} {s t : σ} {e : ε}
    (h : m s = .error e t) : (m >>= f) s = .error e t := by
  change EStateM.bind m f s = .error e t
  unfold EStateM.bind
  rw [h]

theorem error_of_bind {ε α β : Type} {m : EStateM ε σ α} {f : α → EStateM ε σ β} {s s' : σ} {e : ε}
    (h : (m >>= f) s = .error e s') :
    m s = .error e s' ∨ ∃ a t, m s = .ok a t ∧ f a t = .error e s' := by
  cases run : m s with
  | ok a t =>
    rw [bind_of_ok run] at h
    exact .inr ⟨a, t, rfl, h⟩
  | error e' t =>
    rw [bind_of_error run] at h
    cases h
    exact .inl rfl

/-- Two outcomes: both are results, related to each other, or both are the same error. -/
inductive Abreast {ε τ α β : Type} (related : α → σ → β → τ → Prop) :
    EStateM.Result ε σ α → EStateM.Result ε τ β → Prop
  | ok {a : α} {s : σ} {b : β} {t : τ} (h : related a s b t) : Abreast related (.ok a s) (.ok b t)
  | error (e : ε) (s : σ) (t : τ) : Abreast related (.error e s) (.error e t)

namespace Abreast

variable {ε τ α β γ δ : Type} {related : α → σ → β → τ → Prop} {after : γ → σ → δ → τ → Prop}

theorem outcomes {r : EStateM.Result ε σ α} {r' : EStateM.Result ε τ β} (h : Abreast related r r') :
    (∃ a s b t, r = .ok a s ∧ r' = .ok b t ∧ related a s b t) ∨
      ∃ e s t, r = .error e s ∧ r' = .error e t := by
  cases h with
  | ok h => exact .inl ⟨_, _, _, _, rfl, rfl, h⟩
  | error e s t => exact .inr ⟨e, s, t, rfl, rfl⟩

theorem imp {related' : α → σ → β → τ → Prop} {r : EStateM.Result ε σ α} {r' : EStateM.Result ε τ β}
    (h : Abreast related r r') (weaker : ∀ a s b t, related a s b t → related' a s b t) :
    Abreast related' r r' := by
  cases h with
  | ok h => exact .ok (weaker _ _ _ _ h)
  | error e s t => exact .error e s t

theorem bind {m : EStateM ε σ α} {n : EStateM ε τ β} {f : α → EStateM ε σ γ}
    {g : β → EStateM ε τ δ} {s : σ} {t : τ} (h : Abreast related (m s) (n t))
    (next : ∀ a s' b t', related a s' b t' → Abreast after (f a s') (g b t')) :
    Abreast after ((m >>= f) s) ((n >>= g) t) := by
  rcases h.outcomes with ⟨a, s', b, t', hm, hn, rel⟩ | ⟨e, s', t', hm, hn⟩
  · rw [bind_of_ok hm, bind_of_ok hn]
    exact next a s' b t' rel
  · rw [bind_of_error hm, bind_of_error hn]
    exact .error e s' t'

end Abreast

namespace Coupling

variable {calls : Calls σ} {α β γ δ : Type}

/-- Where both computations give a result, the states are still coupled and the results related. -/
def Together (c : Coupling calls) (base : Pairing) (related : Pairing → α → β → Prop)
    (m : Eval σ α) (n : Eval σ β) : Prop :=
  ∀ pairs s t, pairs.Extends base → c.holds pairs s t →
    ∀ a s' b t', m s = .ok a s' → n t = .ok b t' →
      ∃ more : Pairing, more.Extends pairs ∧ c.holds more s' t' ∧ related more a b

/-- What is related once two computations gave their results. -/
def Joint (c : Coupling calls) (pairs : Pairing) (related : Pairing → α → β → Prop) (a : α)
    (s : σ) (b : β) (t : σ) : Prop :=
  ∃ more : Pairing, more.Extends pairs ∧ c.holds more s t ∧ related more a b

/-- Both computations give a result, or both stop at the same error. After results the states are
still coupled and the results related. -/
def InStep (c : Coupling calls) (base : Pairing) (related : Pairing → α → β → Prop)
    (m : Eval σ α) (n : Eval σ β) : Prop :=
  ∀ pairs s t, pairs.Extends base → c.holds pairs s t →
    Abreast (c.Joint pairs related) (m s) (n t)

variable {c : Coupling calls} {base : Pairing}

theorem InStep.together {related : Pairing → α → β → Prop} {m : Eval σ α} {n : Eval σ β}
    (h : c.InStep base related m n) : c.Together base related m n := by
  intro pairs s t up holds a s' b t' hm hn
  have abreast := h pairs s t up holds
  rw [hm, hn] at abreast
  cases abreast with
  | ok joint => exact joint

theorem InStep.mono {more : Pairing} {related : Pairing → α → β → Prop} {m : Eval σ α}
    {n : Eval σ β} (h : c.InStep base related m n) (le : more.Extends base) :
    c.InStep more related m n :=
  fun pairs s t up => h pairs s t (le.trans up)

theorem inStep_pure {related : Pairing → α → β → Prop} {a : α} {b : β}
    (h : ∀ pairs : Pairing, pairs.Extends base → related pairs a b) :
    c.InStep base related (pure a) (pure b) :=
  fun pairs _ _ up holds => .ok ⟨pairs, .refl pairs, holds, h pairs up⟩

theorem inStep_throw {related : Pairing → α → β → Prop} (e : EvalError) :
    c.InStep base related (throw e) (throw e) :=
  fun _ s t _ _ => .error e s t

theorem InStep.bind {related : Pairing → α → β → Prop} {after : Pairing → γ → δ → Prop}
    {m : Eval σ α} {n : Eval σ β} {f : α → Eval σ γ} {g : β → Eval σ δ}
    (h : c.InStep base related m n)
    (next : ∀ pairs : Pairing, pairs.Extends base → ∀ a b, related pairs a b →
      c.InStep pairs after (f a) (g b)) :
    c.InStep base after (m >>= f) (n >>= g) := by
  intro pairs s t up holds
  refine (h pairs s t up holds).bind ?_
  rintro a s' b t' ⟨more, grown, holds', rel⟩
  refine (next more (up.trans grown) a b rel more s' t' (.refl more) holds').imp ?_
  rintro v s'' w t'' ⟨most, grown', holds'', rel'⟩
  exact ⟨most, grown.trans grown', holds'', rel'⟩

theorem inStep_binary (op : BinaryOp) {m n m' n' : Eval σ Value}
    (first : c.InStep base Value.Alike m n) (second : c.InStep base Value.Alike m' n') :
    c.InStep base Value.Alike (do let a ← m; let b ← m'; return op.apply a b)
      (do let a ← n; let b ← n'; return op.apply a b) := by
  refine first.bind ?_
  intro pairs up a b same
  refine (second.mono up).bind ?_
  -- The pairing of the state in which the operator is applied has to be one to one.
  intro more grown a' b' same' most s t top holds
  exact .ok ⟨most, .refl most, holds, ((same.mono grown).mono top).binary op
    (c.faithful most s t holds) (same'.mono top)⟩

end Coupling

theorem Value.Alike.all_mono {pairs more : Pairing} {as bs : List Value}
    (h : List.Forall₂ (Value.Alike pairs) as bs) (le : more.Extends pairs) :
    List.Forall₂ (Value.Alike more) as bs :=
  h.imp fun _ _ alike => alike.mono le

namespace Expr

open Coupling

variable {calls : Calls σ}

mutual

theorem eval_inStep (c : Coupling calls) {base : Pairing} {env env' : String → Value}
    (alike : ∀ name, Value.Alike base (env name) (env' name)) :
    ∀ e : Expr, c.InStep base Value.Alike (e.eval calls env) (e.eval calls env')
  | .literal l => by
    simp only [eval]
    refine inStep_pure fun pairs _ => .scalar _ ?_
    cases l <;> rfl
  | .ident name => by
    simp only [eval]
    exact inStep_pure fun pairs up => (alike name).mono up
  | .member e name => by
    simp only [eval]
    refine (eval_inStep c alike e).bind ?_
    intro pairs _ a b same
    rw [same.isNullish, same.typeName]
    split
    · exact inStep_throw _
    · exact inStep_pure fun more grown => (same.mono grown).property name
  | .element e key => by
    simp only [eval]
    refine (eval_inStep c alike e).bind ?_
    intro pairs up a b same
    refine ((eval_inStep c alike key).mono up).bind ?_
    intro more grown k l same'
    rw [same.isNullish, same.typeName, same'.text]
    split
    · exact inStep_throw _
    · exact inStep_pure fun most top => ((same.mono grown).mono top).element (same'.mono top)
  | .call callee args => by
    simp only [eval]
    refine (eval_inStep c alike callee).bind ?_
    intro pairs up a b same
    cases same with
    | scalar _ h =>
      cases a with
      | function f =>
        refine ((evalAll_inStep c alike args).mono up).bind ?_
        intro more _ as bs same pairs s t up holds
        exact .ok (c.call f pairs s t as bs holds (Value.Alike.all_mono same up))
      | _ => exact inStep_throw _
    | list => exact inStep_throw _
    | map => exact inStep_throw _
  | .list items => by
    simp only [eval]
    refine (evalAll_inStep c alike items).bind ?_
    intro more _ as bs same pairs s t up holds
    exact .ok (c.newList pairs s t as bs holds (Value.Alike.all_mono same up))
  | .unary op e => by
    simp only [eval]
    refine (eval_inStep c alike e).bind ?_
    intro pairs _ a b same
    exact inStep_pure fun more grown => (same.mono grown).unary op
  | .binary op left right => by
    have first := eval_inStep c alike left
    have second := eval_inStep c alike right
    cases op
    case and =>
      simp only [eval]
      refine first.bind ?_
      intro pairs up a b same
      rw [same.isTruthy]
      split
      · exact second.mono up
      · exact inStep_pure fun more grown => same.mono grown
    case or =>
      simp only [eval]
      refine first.bind ?_
      intro pairs up a b same
      rw [same.isTruthy]
      split
      · exact inStep_pure fun more grown => same.mono grown
      · exact second.mono up
    all_goals
      simp only [eval]
      exact inStep_binary _ first second
  | .conditional test yes no => by
    simp only [eval]
    refine (eval_inStep c alike test).bind ?_
    intro pairs up a b same
    rw [same.isTruthy]
    split
    · exact (eval_inStep c alike yes).mono up
    · exact (eval_inStep c alike no).mono up

theorem evalAll_inStep (c : Coupling calls) {base : Pairing} {env env' : String → Value}
    (alike : ∀ name, Value.Alike base (env name) (env' name)) :
    ∀ es : List Expr, c.InStep base (fun pairs => List.Forall₂ (Value.Alike pairs))
      (evalAll calls env es) (evalAll calls env' es)
  | [] => by
    simp only [evalAll]
    exact inStep_pure fun _ _ => .nil
  | e :: rest => by
    simp only [evalAll]
    refine (eval_inStep c alike e).bind ?_
    intro pairs up a b same
    refine ((evalAll_inStep c alike rest).mono up).bind ?_
    intro more grown as bs same'
    exact inStep_pure fun most top =>
      .cons ((same.mono grown).mono top) (Value.Alike.all_mono same' top)

end

end Expr

/-! ## Bindings and conditions -/

inductive Computed.Alike (pairs : Pairing) : Computed → Computed → Prop
  | value {a b : Value} (h : Value.Alike pairs a b) : Alike pairs (.value a) (.value b)
  | args {as bs : List Value} (h : List.Forall₂ (Value.Alike pairs) as bs) :
      Alike pairs (.args as) (.args bs)

theorem Computed.Alike.mono {pairs more : Pairing} {a b : Computed} (h : Alike pairs a b)
    (le : more.Extends pairs) : Alike more a b := by
  cases h with
  | value h => exact .value (h.mono le)
  | args h => exact .args (Value.Alike.all_mono h le)

section

open Coupling

variable {calls : Calls σ} {base : Pairing} {env env' : String → Value}

theorem Interpolation.evalRest_inStep (c : Coupling calls)
    (alike : ∀ name, Value.Alike base (env name) (env' name)) (rest : List (Span × String)) :
    c.InStep base (fun _ a b => a = b) (evalRest calls env rest) (evalRest calls env' rest) := by
  induction rest with
  | nil => exact inStep_pure fun _ _ => rfl
  | cons head rest ih =>
    obtain ⟨span, literal⟩ := head
    refine (Expr.eval_inStep c alike span.expr).bind ?_
    intro pairs up a b same
    refine (ih.mono up).bind ?_
    rintro more grown tail _ rfl
    exact inStep_pure fun most top => by rw [same.text]

theorem Interpolation.eval_inStep (c : Coupling calls)
    (alike : ∀ name, Value.Alike base (env name) (env' name)) (i : Interpolation) :
    c.InStep base Value.Alike (i.eval calls env) (i.eval calls env') := by
  unfold Interpolation.eval
  split
  · exact Expr.eval_inStep c alike _
  · refine (evalRest_inStep c alike i.rest).bind ?_
    rintro pairs up tail _ rfl
    exact inStep_pure fun more grown => .scalar _ rfl

theorem Action.compute_inStep (c : Coupling calls)
    (alike : ∀ name, Value.Alike base (env name) (env' name)) (action : Action) :
    c.InStep base Computed.Alike (action.compute calls env) (action.compute calls env') := by
  have values {m n : Eval σ Value} (h : c.InStep base Value.Alike m n) :
      c.InStep base Computed.Alike (do let v ← m; return .value v)
        (do let v ← n; return .value v) := by
    refine h.bind ?_
    intro pairs up a b same
    exact inStep_pure fun more grown => .value (same.mono grown)
  cases action with
  | setText content => exact values (content.eval_inStep c alike)
  | replaceClass content => exact values (content.eval_inStep c alike)
  | setAttribute name content => exact values (content.eval_inStep c alike)
  | applyDirective name directive e => exact values (e.eval_inStep c alike)
  | setEventData event args =>
    refine (Expr.evalAll_inStep c alike args).bind ?_
    intro pairs up as bs same
    exact inStep_pure fun more grown => .args (Value.Alike.all_mono same grown)

theorem Binding.compute_ok {b : Binding} {s s' : σ} {v : Computed}
    (h : b.compute calls env s = .ok v s') : b.action.compute calls env s = .ok v s' := by
  cases found : b.action with
  | applyDirective name directive e =>
    simp only [Binding.compute, found] at h
    split at h
    · rename_i run
      cases h
      exact run
    · cases h
  | _ => simpa only [Binding.compute, found] using h

theorem Binding.compute_inStep (c : Coupling calls)
    (alike : ∀ name, Value.Alike base (env name) (env' name)) (b : Binding) :
    c.InStep base Computed.Alike (b.compute calls env) (b.compute calls env') := by
  have action := b.action.compute_inStep c alike
  cases found : b.action with
  | applyDirective name directive e =>
    -- Errors are named after the directive on both sides.
    intro pairs s t up holds
    have abreast := action pairs s t up holds
    simp only [Binding.compute, found] at abreast ⊢
    rcases abreast.outcomes with ⟨a, s', b, t', hm, hn, joint⟩ | ⟨e, s', t', hm, hn⟩
    · rw [hm, hn]
      exact .ok joint
    · rw [hm, hn]
      exact .error _ s' t'
  | _ =>
    rw [found] at action
    simp only [Binding.compute, found]
    exact action

/-- The values of two passes over the same bindings, one by one. -/
def ComputedAlike (pairs : Pairing) : List (Binding × Computed) → List (Binding × Computed) → Prop :=
  List.Forall₂ fun p q => p.1 = q.1 ∧ p.2.Alike pairs q.2

theorem Template.computeAll_inStep {κ : Type} {host : Host κ} (c : Coupling host.calls)
    (alike : ∀ name, Value.Alike base (env name) (env' name)) (bindings : List Binding) :
    c.InStep base ComputedAlike (computeAll host env bindings)
      (computeAll host env' bindings) := by
  induction bindings with
  | nil => exact inStep_pure fun _ _ => .nil
  | cons b rest ih =>
    refine (b.compute_inStep c alike).bind ?_
    intro pairs up v w same
    refine (ih.mono up).bind ?_
    intro more grown vs ws same'
    refine inStep_pure fun most top => .cons ⟨rfl, (same.mono grown).mono top⟩ ?_
    exact same'.imp fun p q h => ⟨h.1, h.2.mono top⟩

theorem Condition.isTrue_alike {a b : Value} (h : Value.Alike base a b) : isTrue a = isTrue b := by
  cases h <;> rfl

theorem Condition.holds_inStep (c : Coupling calls) {scope scope' : Scope}
    (alike : ∀ name, Value.Alike base (scope.read name) (scope'.read name))
    (condition : Condition) :
    c.InStep base (fun _ a b => a = b) (condition.holds calls scope)
      (condition.holds calls scope') := by
  have outcome {m n : Eval σ Value} (h : c.InStep base Value.Alike m n) :
      c.InStep base (fun _ a b => a = b) (do let v ← m; return isTrue v)
        (do let v ← n; return isTrue v) := by
    refine h.bind ?_
    intro pairs up a b same
    exact inStep_pure fun _ _ => isTrue_alike same
  cases condition with
  | always => exact inStep_pure fun _ _ => rfl
  | ident name =>
    intro pairs s t up holds
    exact .ok ⟨pairs, .refl pairs, holds,
      ((alike name).mono up).looselyEqual (c.faithful pairs s t holds) (.scalar _ rfl)⟩
  | expression e => exact outcome (e.eval_inStep c alike)
  | predicate params body =>
    refine outcome (body.eval_inStep c ?_)
    intro name
    unfold paramEnv
    split
    · exact alike name
    · exact .scalar _ rfl

end

end LiveTemplate
