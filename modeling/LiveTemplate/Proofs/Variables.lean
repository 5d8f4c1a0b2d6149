import LiveTemplate.Template.Update

/-!
# LiveTemplate.Proofs.Variables

The declared variables of expressions, texts, bindings and templates are all that they read. What
stands under other names changes nothing: not the value, not the error, and not the calls that are
made on the way.

  * `AgreeOn`               two environments give these names the same values
  * `Indistinct`            two computations that no host can tell apart
  * `Expr.eval_eq`          an expression reads nothing but its names
  * `Scope.read_narrow`     a narrowed scope keeps the values of the names that it is narrowed to
-/

namespace LiveTemplate

/-! ## Tables and sets of names -/

theorem NameSet.mem_ofNames {names : List String} {name : String} :
    name ∈ ofNames names ↔ name ∈ names := by
  have h := mem_union [] names name
  simpa [union, ofNames] using h

/-- Of two entries with one name the later counts. -/
theorem Table.lookup_ofEntries {α : Type} (entries : List (String × α)) (name : String) :
    (Table.ofEntries entries).lookup name = entries.reverse.lookup name := by
  unfold Table.ofEntries
  rw [← List.foldr_reverse]
  induction entries.reverse with
  | nil => rfl
  | cons entry rest ih =>
    obtain ⟨key, value⟩ := entry
    rw [List.foldr_cons, List.lookup_cons]
    by_cases same : name = key
    · subst same
      simp [Table.lookup_insert_self]
    · rw [Table.lookup_insert_of_ne same, ih, beq_false_of_ne same]

namespace Scope

theorem lookup_entries (scope : Scope) (name : String) (names : List String) :
    (names.filterMap fun other => (scope.get? other).map (other, ·)).lookup name =
      if name ∈ names then scope.get? name else none := by
  induction names with
  | nil => rfl
  | cons head rest ih =>
    by_cases same : name = head
    · subst same
      cases found : scope.get? name with
      | none => simp [found, ih]
      | some value => simp [found]
    · cases found : scope.get? head with
      | none => simp [found, ih, same]
      | some value => simp [found, List.lookup_cons, beq_false_of_ne same, ih, same]

/-- Narrowing keeps what the names read as, also of a name that is not set. -/
theorem read_narrow (scope : Scope) {names : List String} {name : String} (mem : name ∈ names) :
    (scope.narrow names).read name = scope.read name := by
  have kept : (scope.narrow names).get? name = scope.get? name := by
    unfold narrow get? ofEntries
    rw [Table.lookup_ofEntries, ← List.filterMap_reverse]
    refine (scope.lookup_entries name names.reverse).trans ?_
    simp [mem, get?]
  rw [read, read, kept]

end Scope

/-! ## Environments -/

/-- Both environments give these names the same values. -/
def AgreeOn (names : List String) (env env' : String → Value) : Prop :=
  ∀ name ∈ names, env name = env' name

namespace AgreeOn

variable {env env' : String → Value}

theorem mono {names more : List String} (h : AgreeOn more env env') (le : names ⊆ more) :
    AgreeOn names env env' :=
  fun name mem => h name (le mem)

theorem ofNames_iff {names : List String} :
    AgreeOn (NameSet.ofNames names) env env' ↔ AgreeOn names env env' := by
  simp only [AgreeOn, NameSet.mem_ofNames]

theorem append_iff {left right : List String} :
    AgreeOn (left ++ right) env env' ↔ AgreeOn left env env' ∧ AgreeOn right env env' := by
  simp only [AgreeOn, List.mem_append]
  grind

theorem narrow (scope : Scope) (names : List String) :
    AgreeOn names (scope.narrow names).read scope.read :=
  fun _ mem => scope.read_narrow mem

/-- The body of an arrow function sees the same where the parameters have the same values. -/
theorem paramEnv {params : List String} {scope scope' : Scope}
    (h : AgreeOn params scope.read scope'.read) :
    Condition.paramEnv params scope = Condition.paramEnv params scope' := by
  funext name
  unfold Condition.paramEnv
  by_cases mem : name ∈ params
  · simp [mem, h name mem]
  · simp [mem]

end AgreeOn

/-! ## Evaluation -/

section

variable {σ : Type}

/-- The same host, with a record of the calls it gets: each function with its arguments, in
order. -/
def Calls.recorded (calls : Calls σ) : Calls (σ × List (Function × List Value)) where
  call f args := fun (s, made) =>
    let (v, s) := calls.call f args s
    (v, s, made ++ [(f, args)])
  fresh := fun (s, made) =>
    let (ref, s) := calls.fresh s
    (ref, s, made)

/-- No host can tell the two computations apart. From every state they come to the same value or
to the same error, they leave the same state, and they make the same calls with the same arguments
in the same order. -/
def Indistinct {α : Type} (m n : (σ : Type) → Calls σ → Eval σ α) : Prop :=
  ∀ (σ : Type) (calls : Calls σ), m σ calls = n σ calls ∧
    m (σ × List (Function × List Value)) calls.recorded =
      n (σ × List (Function × List Value)) calls.recorded

theorem Indistinct.of_forall {α : Type} {m n : (σ : Type) → Calls σ → Eval σ α}
    (h : ∀ (σ : Type) (calls : Calls σ), m σ calls = n σ calls) : Indistinct m n :=
  fun σ calls => ⟨h σ calls, h _ calls.recorded⟩

variable (calls : Calls σ) {env env' : String → Value}

mutual

theorem Expr.eval_eq : ∀ e : Expr, AgreeOn e.names env env' →
    e.eval calls env = e.eval calls env'
  | .literal l, _ => by simp only [Expr.eval]
  | .ident name, h => by
    simp only [Expr.eval, h name (by simp [Expr.names])]
  | .member e name, h => by
    rw [Expr.names] at h
    simp only [Expr.eval, e.eval_eq h]
  | .element e key, h => by
    rw [Expr.names, AgreeOn.append_iff] at h
    simp only [Expr.eval, e.eval_eq h.1, key.eval_eq h.2]
  | .call callee args, h => by
    rw [Expr.names, AgreeOn.append_iff] at h
    simp only [Expr.eval, callee.eval_eq h.1, Expr.evalAll_eq args h.2]
  | .list items, h => by
    rw [Expr.names] at h
    simp only [Expr.eval, Expr.evalAll_eq items h]
  | .unary op e, h => by
    rw [Expr.names] at h
    simp only [Expr.eval, e.eval_eq h]
  | .binary op left right, h => by
    rw [Expr.names, AgreeOn.append_iff] at h
    cases op <;> simp only [Expr.eval, left.eval_eq h.1, right.eval_eq h.2]
  | .conditional test yes no, h => by
    rw [Expr.names, AgreeOn.append_iff, AgreeOn.append_iff] at h
    simp only [Expr.eval, test.eval_eq h.1.1, yes.eval_eq h.1.2, no.eval_eq h.2]

theorem Expr.evalAll_eq : ∀ es : List Expr, AgreeOn (Expr.namesOfAll es) env env' →
    Expr.evalAll calls env es = Expr.evalAll calls env' es
  | [], _ => by simp only [Expr.evalAll]
  | e :: rest, h => by
    rw [Expr.namesOfAll, AgreeOn.append_iff] at h
    simp only [Expr.evalAll, e.eval_eq h.1, Expr.evalAll_eq rest h.2]

end

theorem Interpolation.rest_of_single? {i : Interpolation} {span : Span}
    (h : i.single? = some span) : i.rest = [(span, "")] := by
  unfold single? at h
  split at h
  · rename_i _ rest
    cases h
    exact rest
  · cases h

theorem Interpolation.evalRest_eq : ∀ rest : List (Span × String),
    AgreeOn (rest.flatMap fun piece => piece.1.expr.names) env env' →
      Interpolation.evalRest calls env rest = Interpolation.evalRest calls env' rest
  | [], _ => rfl
  | (span, literal) :: rest, h => by
    rw [List.flatMap_cons, AgreeOn.append_iff] at h
    simp only [Interpolation.evalRest, span.expr.eval_eq calls h.1, evalRest_eq rest h.2]

theorem Interpolation.eval_eq (i : Interpolation) (h : AgreeOn i.vars env env') :
    i.eval calls env = i.eval calls env' := by
  rw [Interpolation.vars, AgreeOn.ofNames_iff, Interpolation.spans, List.flatMap_map] at h
  unfold Interpolation.eval
  split
  case h_1 span alone =>
    refine span.expr.eval_eq calls (h.mono ?_)
    simp [Interpolation.rest_of_single? alone]
  case h_2 => rw [Interpolation.evalRest_eq calls i.rest h]

theorem Action.compute_eq (action : Action) (h : AgreeOn action.vars env env') :
    action.compute calls env = action.compute calls env' := by
  cases action with
  | setText content => simp only [Action.compute, content.eval_eq calls h]
  | replaceClass content => simp only [Action.compute, content.eval_eq calls h]
  | setAttribute name content => simp only [Action.compute, content.eval_eq calls h]
  | setEventData event args =>
    simp only [Action.compute, Expr.evalAll_eq calls args (AgreeOn.ofNames_iff.1 h)]
  | applyDirective name directive e =>
    simp only [Action.compute, e.eval_eq calls (AgreeOn.ofNames_iff.1 h)]

theorem Binding.compute_eq (binding : Binding) (h : AgreeOn binding.vars env env') :
    binding.compute calls env = binding.compute calls env' := by
  have same := binding.action.compute_eq calls h
  rw [Binding.compute, Binding.compute, same]
  cases found : binding.action with
  | applyDirective name directive e => rfl
  | _ => simpa only [found] using same

end

/-- The variables of a template are those of its bindings. -/
theorem Template.computeAll_eq {κ : Type} (host : Host κ) {env env' : String → Value} :
    ∀ bindings : List Binding, AgreeOn (bindings.flatMap Binding.vars) env env' →
      Template.computeAll host env bindings = Template.computeAll host env' bindings
  | [], _ => rfl
  | binding :: rest, h => by
    rw [List.flatMap_cons, AgreeOn.append_iff] at h
    simp only [Template.computeAll, binding.compute_eq host.calls h.1, computeAll_eq host rest h.2]

/-- The declared variables are all that is read. Environments that agree on them give the same
values, errors and calls; so a pass over a template needs no more of the scope than the variables
of the template, and an arrow function no more than its parameters. -/
theorem vars_suffice :
    (∀ (e : Expr) (env env' : String → Value), AgreeOn e.vars env env' →
      Indistinct (fun _ calls => e.eval calls env) (fun _ calls => e.eval calls env')) ∧
    (∀ (i : Interpolation) (env env' : String → Value), AgreeOn i.vars env env' →
      Indistinct (fun _ calls => i.eval calls env) (fun _ calls => i.eval calls env')) ∧
    (∀ (args : List Expr) (env env' : String → Value),
      AgreeOn (NameSet.ofNames (Expr.namesOfAll args)) env env' →
        Indistinct (fun _ calls => Expr.evalAll calls env args)
          (fun _ calls => Expr.evalAll calls env' args)) ∧
    (∀ (b : Binding) (env env' : String → Value), AgreeOn b.vars env env' →
      Indistinct (fun _ calls => b.compute calls env) (fun _ calls => b.compute calls env')) ∧
    (∀ (t : Template) (scope : Scope) {κ : Type} (host : Host κ),
      Template.computeAll host (scope.narrow t.vars).read t.bindings =
        Template.computeAll host scope.read t.bindings) ∧
    (∀ (params : List String) (body : Expr) (scope scope' : Scope),
      AgreeOn params scope.read scope'.read →
        Indistinct (fun _ calls => (Condition.predicate params body).holds calls scope)
          (fun _ calls => (Condition.predicate params body).holds calls scope')) := by
  refine ⟨?_, ?_, ?_, ?_, ?_, ?_⟩
  · intro e env env' h
    exact .of_forall fun σ calls => e.eval_eq calls (AgreeOn.ofNames_iff.1 h)
  · intro i env env' h
    exact .of_forall fun σ calls => i.eval_eq calls h
  · intro args env env' h
    exact .of_forall fun σ calls => Expr.evalAll_eq calls args (AgreeOn.ofNames_iff.1 h)
  · intro b env env' h
    exact .of_forall fun σ calls => b.compute_eq calls h
  · intro t scope κ host
    exact Template.computeAll_eq host t.bindings
      (AgreeOn.ofNames_iff.1 (AgreeOn.narrow scope t.vars))
  · intro params body scope scope' h
    refine .of_forall fun σ calls => ?_
    simp only [Condition.holds, h.paramEnv]

/-- A call, in environments that differ in a name it does not read. -/
theorem vars_suffice_call :
    let e := Expr.call (.ident "f") [.member (.ident "a") "z"]
    let env := fun name => if name = "f" then Value.function ⟨"f"⟩ else .string name
    let env' := fun name => if name = "z" then Value.null else env name
    AgreeOn e.vars env env' ∧ env "z" ≠ env' "z" ∧
      Indistinct (fun _ calls => e.eval calls env) (fun _ calls => e.eval calls env') := by
  intro e env env'
  have agree : AgreeOn e.vars env env' := by
    intro name mem
    have read : name = "a" ∨ name = "f" := by
      simpa [e, Expr.vars, Expr.names, Expr.namesOfAll, NameSet.mem_ofNames, or_comm] using mem
    rcases read with rfl | rfl <;> rfl
  exact ⟨agree, by simp [env, env'], vars_suffice.1 e env env' agree⟩

end LiveTemplate
