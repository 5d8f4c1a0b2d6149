import LiveTemplate.Proofs.Rebuilding
import LiveTemplate.Proofs.Variables

/-!
# LiveTemplate.Proofs.Readers

Which bindings a pass writes when only some variables have changed. The others compute what they
computed before, and that is identical to what the last snapshot has, with two exceptions: a list
literal gives a new list each time, as a call may, and NaN is not identical to itself.

  * `Expr.asksHost`                   calls and list literals, for which evaluation needs the host
  * `Steady`                          a computation that has nothing to do with the host
  * `Computed.identical_self`         what is identical to itself
  * `Template.update_writes_readers`  the main result
-/

namespace LiveTemplate

/-! ## NaN -/

namespace Value

def isNaN : Value → Bool
  | .number x => x.isNaN
  | _ => false

theorem identical_self (v : Value) : v.identical v = !v.isNaN := by
  cases v <;> simp [identical, isNaN, Number.beq_self]

theorem not_isNaN_of_identical {v w : Value} (h : v.identical w = true) : w.isNaN = false := by
  cases w with
  | number y =>
    cases v with
    | number x => exact Number.not_isNaN_of_beq h
    | _ => cases h
  | _ => rfl

end Value

namespace Computed

/-- The value is NaN, or one of the arguments is. -/
def hasNaN (c : Computed) : Bool := c.toArgs.any Value.isNaN

theorem identical_self (c : Computed) : c.identical c = !c.hasNaN := by
  cases c with
  | value v => simp [identical, hasNaN, toArgs, Value.identical_self]
  | args vs =>
    have pairs : (vs.zip vs).all (fun p => p.1.identical p.2) = !vs.any Value.isNaN := by
      induction vs with
      | nil => rfl
      | cons v rest ih => simp [List.zip_cons_cons, Value.identical_self, ih]
    simpa [identical, hasNaN, toArgs] using pairs

theorem not_hasNaN_of_identical {old c : Computed} (h : old.identical c = true) :
    c.hasNaN = false := by
  cases old <;> cases c
  case value.value v w => simpa [hasNaN, toArgs] using Value.not_isNaN_of_identical h
  case args.args vs ws =>
    obtain ⟨length, pairs⟩ : vs.length = ws.length ∧ ∀ p ∈ vs.zip ws, p.1.identical p.2 = true := by
      simpa [identical] using h
    rw [hasNaN, toArgs, List.any_eq_false]
    intro w mem
    obtain ⟨i, bound, rfl⟩ := List.getElem_of_mem mem
    have paired : (vs[i], ws[i]) ∈ vs.zip ws := by
      rw [← List.getElem_zip (h := by simp; omega)]
      exact List.getElem_mem _
    simp [Value.not_isNaN_of_identical (pairs _ paired)]
  all_goals cases h

end Computed

/-! ## What has nothing to do with the host -/

/-- The computation does not look at the state and does not change it. -/
def Steady {σ α : Type} (m : Eval σ α) : Prop := (∃ a, m = pure a) ∨ ∃ e, m = throw e

section

variable {σ α β : Type}

theorem steady_pure (a : α) : Steady (pure a : Eval σ α) := .inl ⟨a, rfl⟩

theorem steady_throw (e : EvalError) : Steady (throw e : Eval σ α) := .inr ⟨e, rfl⟩

theorem Steady.bind {m : Eval σ α} {f : α → Eval σ β} (h : Steady m) (next : ∀ a, Steady (f a)) :
    Steady (m >>= f) := by
  rcases h with ⟨a, rfl⟩ | ⟨e, rfl⟩
  · rw [pure_bind]
    exact next a
  · exact .inr ⟨e, rfl⟩

theorem Steady.unique {m : Eval σ α} (h : Steady m) {s s' t t' : σ} {a b : α}
    (left : m s = .ok a s') (right : m t = .ok b t') : a = b ∧ t' = t := by
  rcases h with ⟨c, rfl⟩ | ⟨e, rfl⟩
  · cases left
    cases right
    exact ⟨rfl, rfl⟩
  · cases left

namespace Expr

/-- Holds a call or a list literal. -/
def asksHost : Expr → Bool
  | .literal _ | .ident _ => false
  | .member e _ | .unary _ e => e.asksHost
  | .element e key => e.asksHost || key.asksHost
  | .call _ _ | .list _ => true
  | .binary _ left right => left.asksHost || right.asksHost
  | .conditional test yes no => test.asksHost || yes.asksHost || no.asksHost

variable (calls : Calls σ) (env : String → Value)

theorem eval_steady : ∀ e : Expr, e.asksHost = false → Steady (e.eval calls env)
  | .literal l, _ => by
    rw [eval]
    exact steady_pure _
  | .ident name, _ => by
    rw [eval]
    exact steady_pure _
  | .member e name, h => by
    rw [asksHost] at h
    rw [eval]
    refine (e.eval_steady h).bind fun base => ?_
    split
    · exact steady_throw _
    · exact steady_pure _
  | .element e key, h => by
    rw [asksHost, Bool.or_eq_false_iff] at h
    rw [eval]
    refine (e.eval_steady h.1).bind fun base => (key.eval_steady h.2).bind fun name => ?_
    split
    · exact steady_throw _
    · exact steady_pure _
  | .call callee args, h => by cases h
  | .list items, h => by cases h
  | .unary op e, h => by
    rw [asksHost] at h
    rw [eval]
    exact (e.eval_steady h).bind fun a => steady_pure _
  | .binary op left right, h => by
    rw [asksHost, Bool.or_eq_false_iff] at h
    have first := left.eval_steady h.1
    have second := right.eval_steady h.2
    cases op
    case and | or =>
      rw [eval]
      refine first.bind fun a => ?_
      split
      all_goals first | exact second | exact steady_pure a
    all_goals
      simp only [eval]
      exact first.bind fun a => second.bind fun b => steady_pure _
  | .conditional test yes no, h => by
    rw [asksHost, Bool.or_eq_false_iff, Bool.or_eq_false_iff] at h
    rw [eval]
    refine (test.eval_steady h.1.1).bind fun a => ?_
    split
    · exact yes.eval_steady h.1.2
    · exact no.eval_steady h.2

theorem evalAll_steady {es : List Expr} (h : es.any asksHost = false) :
    Steady (evalAll calls env es) := by
  induction es with
  | nil => exact steady_pure []
  | cons e rest ih =>
    rw [List.any_cons, Bool.or_eq_false_iff] at h
    rw [evalAll]
    exact (e.eval_steady calls env h.1).bind fun v => (ih h.2).bind fun vs => steady_pure _

end Expr

namespace Interpolation

def asksHost (i : Interpolation) : Bool := i.spans.any fun span => span.expr.asksHost

variable (calls : Calls σ) (env : String → Value)

theorem evalRest_steady {rest : List (Span × String)}
    (h : rest.any (fun piece => piece.1.expr.asksHost) = false) :
    Steady (evalRest calls env rest) := by
  induction rest with
  | nil => exact steady_pure ""
  | cons piece rest ih =>
    rw [List.any_cons, Bool.or_eq_false_iff] at h
    rw [evalRest]
    exact (piece.1.expr.eval_steady calls env h.1).bind fun v => (ih h.2).bind fun _ => steady_pure _

theorem eval_steady {i : Interpolation} (h : i.asksHost = false) : Steady (i.eval calls env) := by
  rw [asksHost, spans, List.any_map] at h
  unfold eval
  split
  case h_1 span alone =>
    refine span.expr.eval_steady calls env ?_
    simpa [rest_of_single? alone] using h
  case h_2 => exact (evalRest_steady calls env h).bind fun _ => steady_pure _

end Interpolation

def Action.asksHost : Action → Bool
  | .setText content | .replaceClass content | .setAttribute _ content => content.asksHost
  | .setEventData _ args => args.any Expr.asksHost
  | .applyDirective _ _ e => e.asksHost

theorem Action.compute_steady (calls : Calls σ) (env : String → Value) {action : Action}
    (h : action.asksHost = false) : Steady (action.compute calls env) := by
  cases action with
  | setText content => exact (content.eval_steady calls env h).bind fun v => steady_pure _
  | replaceClass content => exact (content.eval_steady calls env h).bind fun v => steady_pure _
  | setAttribute name content => exact (content.eval_steady calls env h).bind fun v => steady_pure _
  | setEventData event args => exact (Expr.evalAll_steady calls env h).bind fun vs => steady_pure _
  | applyDirective name directive e =>
    exact (e.eval_steady calls env h).bind fun v => steady_pure _

/-- A call or a list literal stands in one of the expressions of the binding. -/
def Binding.asksHost (b : Binding) : Bool := b.action.asksHost

theorem Binding.compute_steady (calls : Calls σ) (env : String → Value) {b : Binding}
    (h : b.asksHost = false) : Steady (b.compute calls env) := by
  have steady := Action.compute_steady calls env h
  unfold Binding.compute
  cases found : b.action with
  | applyDirective name directive e =>
    rw [found] at steady
    rcases steady with ⟨a, run⟩ | ⟨error, run⟩
    · exact .inl ⟨a, by simp only [run]; rfl⟩
    · exact .inr ⟨.directive name error, by simp only [run]; rfl⟩
  | _ => simpa only [found] using steady

end

/-! ## Passes -/

namespace Template

variable {κ : Type} {host : Host κ} {t : Template}

/-- Each value of a pass was computed for its binding. -/
theorem compute_of_mem {env : String → Value} {bindings : List Binding} {s s' : Stage κ}
    {values : List (Binding × Computed)} (run : computeAll host env bindings s = .ok values s')
    {p : Binding × Computed} (mem : p ∈ values) :
    ∃ u u', p.1.compute host.calls env u = .ok p.2 u' := by
  induction bindings generalizing s values with
  | nil =>
    cases run
    cases mem
  | cons b rest ih =>
    obtain ⟨c, s₁, first, run⟩ := ok_of_bind run
    obtain ⟨more, s₂, others, run⟩ := ok_of_bind run
    cases run
    rcases List.mem_cons.mp mem with rfl | mem
    · exact ⟨_, _, first⟩
    · exact ih others mem

theorem computeAll_steady {env : String → Value} {bindings : List Binding}
    (h : ∀ b ∈ bindings, b.asksHost = false) : Steady (computeAll host env bindings) := by
  induction bindings with
  | nil => exact steady_pure []
  | cons b rest ih =>
    rw [List.forall_mem_cons] at h
    rw [computeAll]
    exact (b.compute_steady host.calls env h.1).bind fun c => (ih h.2).bind fun more => steady_pure _

/-- The second half of a pass writes the changed values and no others. -/
theorem applyAll_eq (root : NodeId) (previous : Option Snapshot)
    (values : List (Binding × Computed)) :
    applyAll host root previous values = (do
      (changes previous values).forM fun p => p.1.applyTo host root p.2
      return (changes previous values).length) := by
  induction values with
  | nil => rfl
  | cons p rest ih =>
    rw [applyAll, changes, List.filter_cons]
    cases same : p.1.isUnchanged previous p.2 with
    | true =>
      rw [if_pos rfl, ih]
      simp [changes]
    | false =>
      rw [if_neg (by simp), ih]
      simp [changes, List.forM_cons]

/-- What a pass that succeeds consists of. -/
theorem update_ok {scope : Scope} {root : NodeId} {previous : Option Snapshot} {s s' : Stage κ}
    {snapshot : Snapshot} (run : t.update host scope root previous s = .ok snapshot s') :
    ∃ values mid, computeAll host (scope.narrow t.vars).read t.bindings s = .ok values mid ∧
      (changes previous values).forM (fun p => p.1.applyTo host root p.2) mid = .ok () s' ∧
      snapshot = t.snapshotOf values (changes previous values).length := by
  unfold update at run
  split at run
  · cases run
  · obtain ⟨values, mid, computed, run⟩ := ok_of_bind run
    obtain ⟨n, s₁, applied, run⟩ := ok_of_bind run
    cases run
    rw [applyAll_eq] at applied
    obtain ⟨⟨⟩, s₂, written, applied⟩ := ok_of_bind applied
    cases applied
    exact ⟨values, mid, computed, written, rfl⟩

/-- A binding that reads none of the changed names and does not ask the host computes what it
computed in the last pass. -/
theorem value_kept {scope scope' : Scope} {s s' u u' : Stage κ}
    {olds values : List (Binding × Computed)}
    (earlier : computeAll host (scope.narrow t.vars).read t.bindings s = .ok olds s')
    (later : computeAll host (scope'.narrow t.vars).read t.bindings u = .ok values u')
    {o p : Binding × Computed} (old : o ∈ olds) (mem : p ∈ values) (same : o.1 = p.1)
    (unread : ∀ name, p.1.reads name = true → scope'.read name = scope.read name)
    (plain : p.1.asksHost = false) : o.2 = p.2 := by
  have declared : p.1 ∈ t.bindings := by
    rw [← (computeAll_values later).1]
    exact List.mem_map_of_mem mem
  have agree : AgreeOn p.1.vars (scope.narrow t.vars).read (scope'.narrow t.vars).read := by
    intro name reads
    have listed : name ∈ t.vars :=
      NameSet.mem_ofNames.mpr (List.mem_flatMap.mpr ⟨p.1, declared, reads⟩)
    rw [scope.read_narrow listed, scope'.read_narrow listed]
    exact (unread name (by simpa [Binding.reads] using reads)).symm
  obtain ⟨_, _, was⟩ := compute_of_mem earlier old
  obtain ⟨_, _, is⟩ := compute_of_mem later mem
  rw [same, p.1.compute_eq host.calls agree] at was
  exact ((p.1.compute_steady host.calls _ plain).unique was is).1

/-- Why a value is not the one of the last pass. -/
theorem reason_of_change {scope scope' : Scope} {changed : Set String}
    (same : ∀ name ∉ changed, scope'.read name = scope.read name) {s s' u u' : Stage κ}
    {olds values : List (Binding × Computed)}
    (earlier : computeAll host (scope.narrow t.vars).read t.bindings s = .ok olds s')
    (later : computeAll host (scope'.narrow t.vars).read t.bindings u = .ok values u')
    (distinct : (t.bindings.map Binding.anchor).Nodup) {applied : Nat} {p : Binding × Computed}
    (new : p ∈ changes (some (t.snapshotOf olds applied)) values) :
    (∃ name ∈ changed, p.1.reads name = true) ∨ p.1.asksHost = true ∨ p.2.hasNaN = true := by
  obtain ⟨mem, new⟩ := List.mem_filter.mp new
  have bound := (computeAll_values earlier).1
  by_contra other
  simp only [not_or, not_exists, not_and, Bool.not_eq_true] at other
  obtain ⟨unread, plain, number⟩ := other
  obtain ⟨o, old, binding⟩ : ∃ o ∈ olds, o.1 = p.1 := by
    rw [← List.mem_map, bound, ← (computeAll_values later).1]
    exact List.mem_map_of_mem mem
  have kept := get?_snapshotOf applied distinct bound old
  have value : o.2 = p.2 := by
    refine value_kept earlier later old mem binding (fun name reads => ?_) plain
    refine same name fun mem => ?_
    rw [unread name mem] at reads
    cases reads
  rw [isUnchanged_eq, Option.bind_some, ← binding, kept, Option.any_some, value,
    Computed.identical_self, number] at new
  cases new

/-- NaN is new in every pass. -/
theorem mem_changes_of_hasNaN {previous : Option Snapshot} {values : List (Binding × Computed)}
    {p : Binding × Computed} (mem : p ∈ values) (nan : p.2.hasNaN = true) :
    p ∈ changes previous values := by
  refine List.mem_filter.mpr ⟨mem, ?_⟩
  rw [isUnchanged_eq, Bool.not_eq_true', Option.any_eq_false]
  intro old _
  rw [Bool.eq_false_iff]
  intro identical
  rw [Computed.not_hasNaN_of_identical identical] at nan
  cases nan

/-- A pass after some variables have changed writes nothing but bindings that read one of these
variables, bindings with a call or a list literal, and NaN; and NaN is written in every pass. So a
pass over an unchanged scope writes nothing, where there are no calls, no list literals and no
NaN. -/
theorem update_writes_readers (compiled : t.Compiled (fun _ _ => True) fun _ => True)
    {scope scope' : Scope} {changed : Set String}
    (same : ∀ name ∉ changed, scope'.read name = scope.read name)
    {root root' : NodeId} {previous : Option Snapshot} {first second : Snapshot}
    {s s₁ s₂ s₃ : Stage κ} (earlier : t.update host scope root previous s = .ok first s₁)
    (later : t.update host scope' root' (some first) s₂ = .ok second s₃) :
    ∃ values mid,
      computeAll host (scope'.narrow t.vars).read t.bindings s₂ = .ok values mid ∧
      (changes (some first) values).forM (fun p => p.1.applyTo host root' p.2) mid = .ok () s₃ ∧
      second.applied = (changes (some first) values).length ∧
      (∀ p ∈ changes (some first) values, (∃ name ∈ changed, p.1.reads name = true) ∨
        p.1.asksHost = true ∨ p.2.hasNaN = true) ∧
      (∀ p ∈ values, p.2.hasNaN = true → p ∈ changes (some first) values) ∧
      (changed = ∅ → (∀ p ∈ values, p.1.asksHost = false ∧ p.2.hasNaN = false) →
        second.applied = 0 ∧ s₃ = s₂) := by
  obtain ⟨olds, _, computed₀, _, rfl⟩ := update_ok earlier
  obtain ⟨values, mid, computed, written, rfl⟩ := update_ok later
  have each : t.Each (Fine False False) :=
    Compiled.each compiled (fun loose => loose.elim) fun _ _ => False.elim
  have distinct := (Template.each_iff.mp each).1.tidy.distinct
  have readers : ∀ p ∈ changes (some (t.snapshotOf olds (changes previous olds).length)) values,
      (∃ name ∈ changed, p.1.reads name = true) ∨ p.1.asksHost = true ∨ p.2.hasNaN = true :=
    fun _ => reason_of_change same computed₀ computed distinct
  refine ⟨values, mid, computed, written, rfl, readers, fun p => mem_changes_of_hasNaN, ?_⟩
  rintro rfl plain
  have nothing : changes (some (t.snapshotOf olds (changes previous olds).length)) values = [] := by
    refine List.eq_nil_iff_forall_not_mem.mpr fun p new => ?_
    obtain ⟨quiet, number⟩ := plain p (List.mem_filter.mp new).1
    rcases readers p new with ⟨_, none, _⟩ | asks | nan
    · exact none
    · rw [quiet] at asks
      cases asks
    · rw [number] at nan
      cases nan
  have steady : Steady (computeAll host (scope'.narrow t.vars).read t.bindings) := by
    refine computeAll_steady fun b mem => ?_
    rw [← (computeAll_values computed).1] at mem
    obtain ⟨p, found, rfl⟩ := List.mem_map.mp mem
    exact (plain p found).1
  rw [nothing] at written ⊢
  cases written
  exact ⟨rfl, (steady.unique computed computed).2⟩

end Template

namespace Sample

/-- A text, a list literal, a product that is NaN, and a class. -/
def mixed : Markup :=
  .element "p" [("class", "${c}"), ("title", "${[c]}"), ("lang", "${c * 1}")] [.text "${t}"]

/-- All but the class are written again. -/
def writesThree : Bool :=
  match Template.compile .standard 0 mixed with
  | .error _ => false
  | .ok (t, _) =>
    match t.create echo (scope "a" "x" true) blank with
    | .error _ _ => false
    | .ok (root, _) s =>
      match t.update echo (scope "a" "x" true) root none s with
      | .error _ _ => false
      | .ok first s₁ =>
        match t.update echo (scope "a" "y" true) root (some first) s₁ with
        | .error _ _ => false
        | .ok second _ => first.applied = 4 && second.applied = 3

end Sample

theorem Template.update_writes_readers_mixed : ∃ t next root children start first s second s',
    Template.compile .standard 0 Sample.mixed = .ok (t, next) ∧
      t.create Sample.echo (Sample.scope "a" "x" true) Sample.blank = .ok (root, children) start ∧
      t.update Sample.echo (Sample.scope "a" "x" true) root none start = .ok first s ∧
      t.update Sample.echo (Sample.scope "a" "y" true) root (some first) s = .ok second s' ∧
      ∃ written : List (Binding × Computed), written.length = 3 ∧
        ∀ p ∈ written, p.1.reads "t" = true ∨ p.1.asksHost = true ∨ p.2.hasNaN = true := by
  have told : Sample.writesThree = true := by decide +kernel
  unfold Sample.writesThree at told
  split at told
  · cases told
  case h_2 t next compiled =>
  split at told
  · cases told
  case h_2 root children start created =>
  split at told
  · cases told
  case h_2 first s once =>
  split at told
  · cases told
  case h_2 second s' twice =>
  have applied : second.applied = 3 := of_decide_eq_true (Bool.and_eq_true_iff.mp told).2
  have same : ∀ name ∉ ({"t"} : Set String),
      (Sample.scope "a" "y" true).read name = (Sample.scope "a" "x" true).read name := by
    intro name other
    have ne : name ≠ "t" := other
    simp [Sample.scope, Scope.read, Scope.get?, Scope.ofEntries, Table.lookup_ofEntries, ne,
      List.lookup_cons, beq_false_of_ne]
  have general : t.Compiled (fun _ _ => True) fun _ => True := by
    refine .intro (fun _ _ _ => trivial) (fun name t found => ?_) (fun tag t found => ?_) trivial
      compiled
    · cases Registry.standard_builtIn found
    · cases found
  obtain ⟨values, _, _, _, length, readers, _⟩ :=
    Template.update_writes_readers general same once twice
  refine ⟨t, next, root, children, start, first, s, second, s', compiled, created, once, twice,
    _, length.symm.trans applied, fun p mem => ?_⟩
  rcases readers p mem with ⟨_, rfl, reads⟩ | other
  · exact .inl reads
  · exact .inr other

end LiveTemplate
