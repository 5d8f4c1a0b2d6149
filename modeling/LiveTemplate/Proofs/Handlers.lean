import LiveTemplate.Command.Render
import LiveTemplate.Proofs.Compiling
import LiveTemplate.Proofs.Nesting

/-!
# LiveTemplate.Proofs.Handlers

Handlers that are looked up while a template is rendered. A rendering supplies the handlers that
its template itself wires. Bodies of conditions and components are templates of their own, and
theirs are supplied only where the template wires the same names.

  * `Template.lists_handlers`    compiling lists the handlers that the plan wires
  * `Command.Settles`            the handlers in the scopes of a rendering
  * `Command.render_handlers`    which handlers a rendering misses
-/

namespace LiveTemplate

/-! ## Compiling lists the handlers -/

/-- These handlers are listed, and no handler was dropped. -/
structure Draft.Names (ws : List Wiring) (d d' : Draft) : Prop where
  kept : ∀ name ∈ d.handlers, name ∈ d'.handlers
  listed : ∀ w ∈ ws, w.handler ∈ d'.handlers

namespace Draft

variable {ws ws' : List Wiring} {d d₁ d₂ : Draft}

theorem Names.of_eq (same : d₁.handlers = d.handlers) : Names [] d d₁ :=
  ⟨fun _ mem => same ▸ mem, fun _ mem => (List.not_mem_nil mem).elim⟩

theorem Names.append (h : Names ws d d₁) (h' : Names ws' d₁ d₂) : Names (ws ++ ws') d d₂ := by
  refine ⟨fun name mem => h'.kept name (h.kept name mem), ?_⟩
  rw [List.forall_mem_append]
  exact ⟨fun w mem => h'.kept _ (h.listed w mem), h'.listed⟩

end Draft

namespace Analysis

open Draft

variable {registry : Registry} {path : Path} {d : Draft}

theorem targetOf_names : Gives (targetOf path) d fun _ d' => d'.handlers = d.handlers :=
  targetOf_gives fun _ _ _ _ _ => rfl

theorem bind_names (action : Action) (source : String) :
    Gives (bind path action source) d fun _ d' => d'.handlers = d.handlers := by
  unfold bind
  refine gives_bind (gives_get ?_)
  dsimp only
  split
  · exact gives_bind gives_throw
  · exact gives_bind (targetOf_names.imp fun _ _ same => gives_modify same)

theorem addEvent_names (event value : String) :
    Gives (addEvent path event value) d fun w d' => Names [w] d d' := by
  unfold addEvent
  refine gives_bind (gives_lift fun call _ => gives_bind (gives_modify ?_))
  have added : Names [⟨event, call.handler⟩] d { d with
      events := d.events.insert event
      handlers := d.handlers.insert call.handler } := by
    refine ⟨fun _ mem => (NameSet.mem_insert _ _ _).mpr (.inr mem), fun w mem => ?_⟩
    rw [List.mem_singleton.mp mem]
    exact (NameSet.mem_insert _ _ _).mpr (.inl rfl)
  dsimp only
  split
  · refine gives_bind ((bind_names _ _).imp fun _ d' same => gives_pure ?_)
    exact added.append (.of_eq same)
  · exact gives_pure added

theorem addDirective_names (name value : String) :
    Gives (addDirective registry path name value) d fun _ d' => d'.handlers = d.handlers := by
  unfold addDirective
  split
  · exact gives_throw
  · exact gives_pure rfl
  · exact gives_bind (gives_lift fun e _ => bind_names _ _)

theorem attributes_names : ∀ (attrs fixed : List (String × String)) (handlers : List Wiring)
    {d : Draft}, Gives (attributes registry path attrs fixed handlers) d fun result d' =>
      ∃ news, result.2 = handlers ++ news ∧ Names news d d'
  | [], fixed, handlers, d => gives_pure ⟨[], (List.append_nil _).symm, .of_eq rfl⟩
  | (name, value) :: rest, fixed, handlers, d => by
    have further {d₁ : Draft} (same : d₁.handlers = d.handlers)
        (fixed : List (String × String)) :
        Gives (attributes registry path rest fixed handlers) d₁ fun result d' =>
          ∃ news, result.2 = handlers ++ news ∧ Names news d d' := by
      refine (attributes_names rest fixed handlers).imp ?_
      rintro result d' ⟨news, all, names⟩
      exact ⟨news, all, (Names.of_eq same).append names⟩
    unfold attributes
    split
    · exact gives_bind ((addDirective_names _ _).imp fun _ d₁ same => further same fixed)
    · split
      · refine gives_bind ((addEvent_names _ _).imp fun w d₁ added => ?_)
        dsimp only
        split
        · exact gives_bind gives_throw
        · refine (attributes_names rest fixed (handlers ++ [w])).imp ?_
          rintro result d' ⟨news, all, names⟩
          exact ⟨[w] ++ news, by rw [all, List.append_assoc], added.append names⟩
      · refine gives_bind (gives_lift fun content _ => ?_)
        split
        · exact further rfl _
        · exact gives_bind ((bind_names _ _).imp fun _ d₁ same => further same fixed)

theorem text_names (content : String) : Gives (text path content) d fun plan? d' =>
    Names (Plan.wiringsOf plan?.toList) d d' := by
  unfold text
  split
  · exact gives_pure (.of_eq rfl)
  · refine gives_bind (gives_lift fun parsed _ => ?_)
    split
    · exact gives_pure (.of_eq rfl)
    · refine gives_bind ((bind_names _ _).imp fun _ d₁ same => ?_)
      exact gives_bind (anchorSlot?_gives (gives_pure (.of_eq same)))

theorem plainElement_names {tag : String} {attrs : List (String × String)}
    {children : Analysis (List Plan)}
    (below : ∀ {d₁}, Gives children d₁ fun plans d₂ => Names (Plan.wiringsOf plans) d₁ d₂) :
    Gives (plainElement registry tag attrs children path) d fun plan d' =>
      Names plan.allWirings d d' := by
  unfold plainElement
  refine gives_bind ((attributes_names attrs [] []).imp ?_)
  rintro ⟨fixed, handlers⟩ d₁ ⟨news, same, names⟩
  cases same
  refine gives_bind (anchorSlot?_gives (gives_bind (below.imp fun plans d₂ others => ?_)))
  exact gives_pure (names.append others)

theorem mount_names {name : String} {subtree : Subtree} :
    Gives (mount path name subtree) d fun plan d' => Names plan.allWirings d d' := by
  unfold mount
  exact gives_bind (gives_get (gives_bind (gives_modify (gives_pure (.of_eq rfl)))))

theorem conditional_names (tag : String) (attrs : List (String × String))
    (children : Analysis (List Plan)) (source : String) :
    Gives (conditional registry tag attrs children source) d fun _ d' =>
      d'.handlers = d.handlers := by
  unfold conditional
  refine gives_bind (gives_lift fun condition _ => ?_)
  split
  · exact gives_bind (gives_lift fun body _ => gives_pure rfl)
  · split
    · exact gives_throw
    · have apart : Gives (isolated (plainElement registry tag attrs children .root)) d fun _ d' =>
          True ∧ ∃ id, d' = { d with nextId := id } :=
        isolated_gives fun _ _ _ _ => trivial
      refine gives_bind (apart.imp ?_)
      rintro t d' ⟨_, id, rfl⟩
      exact gives_pure rfl

theorem extension?_names (tag : String) (attrs : List (String × String))
    (children : Analysis (List Plan)) :
    Gives (extension? registry tag attrs children path) d fun plan? d' =>
      Names (Plan.wiringsOf plan?.toList) d d' := by
  have mounted {d₁ : Draft} (same : d₁.handlers = d.handlers) {name : String}
      {subtree : Subtree} : Gives (mount path name subtree) d₁ fun plan d' =>
        Gives (pure (some plan)) d' fun plan? d' => Names (Plan.wiringsOf plan?.toList) d d' := by
    refine mount_names.imp fun plan d' names => gives_pure ?_
    have all := (Names.of_eq same).append names
    simpa [Plan.wiringsOf] using all
  unfold extension?
  split
  · case h_1 name value directive _ =>
    dsimp only
    split
    · exact gives_bind gives_throw
    · cases directive with
      | template t => exact gives_bind (gives_pure (gives_bind (mounted rfl)))
      | conditional =>
        exact gives_bind ((conditional_names _ _ _ _).imp fun _ d₁ same =>
          gives_bind (mounted same))
  · split
    · dsimp only
      split
      · exact gives_bind gives_throw
      · exact gives_bind (gives_lift fun subtree _ => gives_bind (mounted rfl))
    · exact gives_pure (.of_eq rfl)

mutual

theorem node_names : ∀ (m : Markup) (path : Path) {d : Draft},
    Gives (node registry m path) d fun plan? d' => Names (Plan.wiringsOf plan?.toList) d d'
  | .comment content, path, d => gives_pure (.of_eq rfl)
  | .text content, path, d => text_names content
  | .element tag attrs children, path, d => by
    unfold node
    refine gives_bind ((extension?_names tag attrs _).imp fun plan? d₁ names => ?_)
    cases plan? with
    | some plan => exact gives_pure names
    | none =>
      refine gives_bind ((plainElement_names (nodes_names children path 0)).imp
        fun plan d₂ others => gives_pure ?_)
      have all := names.append others
      simpa [Plan.wiringsOf] using all

theorem nodes_names : ∀ (kids : List Markup) (path : Path) (index : Nat) {d : Draft},
    Gives (nodes registry kids path index) d fun plans d' => Names (Plan.wiringsOf plans) d d'
  | [], path, index, d => gives_pure (.of_eq rfl)
  | kid :: rest, path, index, d => by
    unfold nodes
    refine gives_bind ((node_names kid (path.child index)).imp fun plan? d₁ first => ?_)
    refine gives_bind ((nodes_names rest path (index + 1)).imp fun plans d₂ others => ?_)
    refine gives_pure ?_
    have all := first.append others
    cases plan? <;> simpa [Plan.wiringsOf] using all

end

end Analysis

namespace Template

/-- A compiled template lists the handlers that it wires itself. -/
theorem lists_handlers {t : Template} {admitted : String → Directive → Prop}
    {markup : Markup → Prop} (compiled : t.Compiled admitted markup) :
    ∀ w ∈ t.wirings, w.handler ∈ t.handlers := by
  obtain ⟨_, _, _, _, run⟩ := compiled
  obtain ⟨plan?, d, walk, rfl⟩ := compile_walk run
  have names := Analysis.node_names _ _ _ _ walk
  cases plan? with
  | none => exact fun _ mem => (List.not_mem_nil mem).elim
  | some plan =>
    intro w mem
    have own : w ∈ plan.allWirings := mem
    exact names.listed w (by simpa [Plan.wiringsOf] using own)

end Template

/-! ## Rendering -/

/-- The handler that an error is about, with what was found in its place. -/
def EvalError.unwired? : EvalError → Option (Wiring × String)
  | .missingHandler event handler found => some (⟨event, handler⟩, found)
  | .directive _ cause => cause.unwired?
  | _ => none

theorem Scope.get?_set (scope : Scope) (name other : String) (value : Value) :
    (scope.set name value).get? other = if other = name then some value else scope.get? other := by
  unfold set get?
  split
  · case isTrue same => rw [same, Table.lookup_insert_self]
  · case isFalse other => exact Table.lookup_insert_of_ne other value scope.vars

namespace Command

def RenderFault.cause : RenderFault → EvalError
  | .creation cause | .update _ cause => cause

/-- The scopes of a rendering: that of the creation, and then one for each update. -/
def scopes (supplied : String → Function) (t : Template) (scope : Scope) (updates : List Scope) :
    List Scope :=
  updates.scanl overlay (withHandlers supplied t scope)

/-- A handler that the scope lacks is supplied. All else stays. -/
theorem get?_withHandlers (supplied : String → Function) (t : Template) (scope : Scope)
    (name : String) :
    (withHandlers supplied t scope).get? name =
      if name ∈ t.handlers ∧ scope.get? name = none then some (.function (supplied name))
      else scope.get? name := by
  unfold withHandlers
  induction t.handlers generalizing scope with
  | nil => simp
  | cons head rest ih =>
    rw [List.foldl_cons, ih]
    unfold Scope.contains
    cases held : scope.get? head with
    | some v =>
      by_cases same : name = head
      · simp [same, held]
      · simp [same]
    | none =>
      by_cases same : name = head
      · simp [same, held, Scope.get?_set]
      · simp [same, Scope.get?_set]

theorem get?_overlay {scope next : Scope} {name : String} (absent : next.get? name = none) :
    (overlay scope next).get? name = scope.get? name := by
  obtain ⟨vars⟩ := next
  unfold Scope.get? at absent
  unfold overlay
  induction vars generalizing scope with
  | nil => rfl
  | cons entry rest ih =>
    obtain ⟨other, value⟩ := entry
    rw [List.lookup_cons] at absent
    cases same : name == other with
    | true =>
      rw [same] at absent
      cases absent
    | false =>
      rw [same] at absent
      rw [List.foldl_cons, ih absent, Scope.get?_set, if_neg (ne_of_beq_false same)]

/-- A scope in which the handlers of a tree of templates are functions or missing, as the template
on top lists them or not. -/
def Settles (supplied : String → Function) (t : Template) (scope : Scope) : Prop :=
  ∀ u ∈ t :: t.nested, ∀ w ∈ u.wirings, scope.get? w.handler =
    if w.handler ∈ t.handlers then some (.function (supplied w.handler)) else none

/-- No name of a handler in a tree of templates is set. -/
def Lacks (t : Template) (scope : Scope) : Prop :=
  ∀ u ∈ t :: t.nested, ∀ w ∈ u.wirings, scope.contains w.handler = false

variable {κ : Type} {host : Host κ} {supplied : String → Function} {t : Template} {scope : Scope}

theorem Lacks.get? (lacks : Lacks t scope) {u : Template} (mem : u ∈ t :: t.nested) {w : Wiring}
    (wired : w ∈ u.wirings) : scope.get? w.handler = none := by
  simpa [Scope.contains] using lacks u mem w wired

theorem settles_withHandlers (lacks : Lacks t scope) :
    Settles supplied t (withHandlers supplied t scope) := by
  intro u mem w wired
  rw [get?_withHandlers, lacks.get? mem wired]
  simp

theorem Settles.overlay {next : Scope} (settles : Settles supplied t scope)
    (lacks : Lacks t next) : Settles supplied t (overlay scope next) := by
  intro u mem w wired
  rw [get?_overlay (lacks.get? mem wired)]
  exact settles u mem w wired

theorem Settles.found_iff (settles : Settles supplied t scope) {u : Template}
    (mem : u ∈ t :: t.nested) {w : Wiring} (wired : w ∈ u.wirings) :
    w.Found scope ↔ w.handler ∈ t.handlers := by
  unfold Wiring.Found Scope.read
  rw [settles u mem w wired]
  split
  · case isTrue listed => simp [listed]
  · case isFalse missing => simp [missing]

/-- An error for a handler is for one that a nested template wires and the template on top does
not list. -/
def Unlisted (t : Template) (e : EvalError) : Prop :=
  ∀ w found, e.unwired? = some (w, found) →
    found = "undefined" ∧ w.handler ∉ t.handlers ∧ ∃ u ∈ t.nested, w ∈ u.wirings

theorem lenient_unlisted : EvalError.Lenient (Unlisted t) where
  property := fun _ _ _ _ none => by cases none
  callee := fun _ _ _ _ none => by cases none
  directive := fun _ _ cause => cause
  foreign := fun _ _ none => by cases none
  detached := fun _ _ _ _ none => by cases none

theorem Settles.excuses (settles : Settles supplied t scope)
    (lists : ∀ w ∈ t.wirings, w.handler ∈ t.handlers) :
    scope.Excuses (Unlisted t) (t :: t.nested) := by
  intro u mem w wired missing
  have unlisted : w.handler ∉ t.handlers := fun listed =>
    missing ((settles.found_iff mem wired).mpr listed)
  have nested : u ∈ t.nested := by
    rcases List.mem_cons.mp mem with rfl | nested
    · exact (unlisted (lists w wired)).elim
    · exact nested
  have read : scope.read w.handler = .undefined := by
    simp [Scope.read, settles u mem w wired, unlisted]
  intro w' found same
  unfold Wiring.missing at same
  rw [read] at same
  cases same
  exact ⟨rfl, unlisted, u, nested, wired⟩

/-- The template on top lists all handlers of a template. -/
def Covers (t u : Template) : Prop := ∀ w ∈ u.wirings, w.handler ∈ t.handlers

theorem Settles.admits (settles : Settles supplied t scope) :
    scope.Admits (Covers t) (t :: t.nested) :=
  fun _ mem found w wired => (settles.found_iff mem wired).mp (found w wired)

theorem toMount_ofMount {P : Template → Prop} {must : Condition → Prop} {m : Mount}
    (live : t.Live P must m) : (Instance.ofMount t m).toMount = m := by
  cases m with
  | template root snapshot children => rfl
  | conditional node body =>
    rw [Template.Live] at live
    exact live.elim

/-- Everything that the template shows in this scope is covered. -/
def Shows (host : Host κ) (t : Template) (scope : Scope) : Prop :=
  ∀ u, t.Presents (Condition.Holds host scope) u → Covers t u

/-- An error for a handler is for an unlisted one, and without an error everything shown is
covered. -/
structure Accounts (host : Host κ) (t : Template) (scopes : List Scope)
    (outcome : Except RenderFault Rendered) : Prop where
  error : ∀ fault, outcome = .error fault → Unlisted t fault.cause
  ok : ∀ rendered, outcome = .ok rendered → ∀ scope ∈ scopes, Shows host t scope

theorem Accounts.fault {scopes : List Scope} {fault : RenderFault}
    (unlisted : Unlisted t fault.cause) : Accounts host t scopes (.error fault) := by
  refine ⟨fun fault' same => ?_, fun rendered done => ?_⟩
  · cases same
    exact unlisted
  · cases done

theorem Accounts.close {scopes : List Scope} {outcome : Except RenderFault Rendered}
    (accounts : Accounts host t scopes outcome) (pass : Pass) :
    Accounts host t scopes (do
      let rendered ← outcome
      return { rendered with passes := pass :: rendered.passes }) := by
  cases outcome with
  | error fault => exact .fault (accounts.error fault rfl)
  | ok rendered =>
    refine ⟨fun fault failed => ?_, fun _ _ => accounts.ok rendered rfl⟩
    cases failed

theorem renderUpdates_accounts (lists : ∀ w ∈ t.wirings, w.handler ∈ t.handlers)
    {updates : List Scope} (lacks : ∀ next ∈ updates, Lacks t next)
    (settles : Settles supplied t scope) (shows : Shows host t scope) {m : Mount}
    (live : t.Live (Covers t) (fun _ => False) m) (number : Nat) (s : Stage κ) :
    Accounts host t (updates.scanl overlay scope)
      (renderUpdates host (.ofMount t m) scope number s updates) := by
  induction updates generalizing scope m number s with
  | nil =>
    refine ⟨fun fault failed => ?_, fun _ _ scope' mem => ?_⟩
    · rw [renderUpdates] at failed
      cases failed
    · rw [List.scanl_nil, List.mem_singleton] at mem
      exact mem ▸ shows
  | cons next rest ih =>
    obtain ⟨first, others⟩ := List.forall_mem_cons.mp lacks
    have settles' := settles.overlay first
    have raises : (t.updateMount host (overlay scope next) m s).1.Raises (Unlisted t) :=
      (Template.raises lenient_unlisted (settles'.excuses lists)).2 m s
    have carries (must : Condition → Prop)
        (weaker : ∀ condition, must condition → condition.Holds host (overlay scope next)) :=
      (Template.carries settles'.admits must weaker).2 m s live
    have template : (Instance.ofMount t m).template = t := by cases m <;> rfl
    rw [renderUpdates]
    unfold Instance.update
    rw [template, toMount_ofMount live]
    rcases run : t.updateMount host (overlay scope next) m s with ⟨⟨after, error⟩, s₁⟩
    rw [run] at raises carries
    dsimp only
    cases error with
    | some e => exact .fault (raises e rfl)
    | none =>
      have kept := carries (fun _ => False) (fun _ never => never.elim) rfl
      have shows' : Shows host t (overlay scope next) := fun u presents =>
        (carries _ (fun _ holds => holds) rfl).of_presents presents
      refine Accounts.close ?_ _
      have rest := ih others settles' shows' kept (number + 1)
        (closePass (.ofMount t after) s₁).2
      refine ⟨rest.error, fun rendered done => ?_⟩
      rw [List.scanl_cons, List.forall_mem_cons]
      exact ⟨shows, rest.ok rendered done⟩

/-- Which handlers a rendering misses, if none is in the scopes. It never misses one that the
template wires itself; an error for a handler is for one that only nested templates wire. And such
errors do occur: a rendering that succeeds has not shown any template with a handler of that kind,
neither when it made the instance nor after any of the updates. -/
theorem render_handlers (compiled : t.Compiled (fun _ _ => True) fun _ => True)
    {updates : List Scope} (lacks : Lacks t scope) (later : ∀ next ∈ updates, Lacks t next)
    (backing : Backing κ) (own : κ) (nextRef : Ref) :
    (∀ fault w found, render backing own t scope updates nextRef = .error fault →
      fault.cause.unwired? = some (w, found) →
        found = "undefined" ∧ w.handler ∉ t.handlers ∧ ∃ u ∈ t.nested, w ∈ u.wirings) ∧
    ∀ rendered, render backing own t scope updates nextRef = .ok rendered →
      ∀ current ∈ scopes backing.supplied t scope updates, ∀ u,
        t.Presents (Condition.Holds backing.host current) u →
          ∀ w ∈ u.wirings, w.handler ∈ t.handlers := by
  have lists := Template.lists_handlers compiled
  obtain ⟨host, supplied, silent⟩ := backing
  have settles : Settles supplied t (withHandlers supplied t scope) := settles_withHandlers lacks
  have raises : Raises (Unlisted t) (fun _ => True)
      (t.createMount host (withHandlers supplied t scope)) :=
    (Template.raises lenient_unlisted (settles.excuses lists)).1
  have carries (must : Condition → Prop) (weaker : ∀ condition, must condition →
      condition.Holds host (withHandlers supplied t scope)) :=
    (Template.carries settles.admits must weaker).1
  have accounts : Accounts host t (scopes supplied t scope updates)
      (render ⟨host, supplied, silent⟩ own t scope updates nextRef) := by
    unfold render
    dsimp only
    cases run : t.createMount host (withHandlers supplied t scope) ⟨.withJournal, nextRef, own⟩ with
    | error e s =>
      have failed : t.createInstance host (withHandlers supplied t scope)
          ⟨.withJournal, nextRef, own⟩ = .error e s := bind_of_error run
      rw [failed]
      exact .fault (raises.of_error trivial run)
    | ok m s =>
      have made : t.createInstance host (withHandlers supplied t scope)
          ⟨.withJournal, nextRef, own⟩ = .ok (.ofMount t m) s := bind_of_ok run
      have kept := carries (fun _ => False) (fun _ never => never.elim) _ m s run
      have shows : Shows host t (withHandlers supplied t scope) := fun u presents =>
        (carries _ (fun _ holds => holds) _ m s run).of_presents presents
      rw [made]
      exact (renderUpdates_accounts lists later settles shows kept 1 _).close _
  exact ⟨fun fault w found failed about => accounts.error fault failed w found about,
    fun rendered done => accounts.ok rendered done⟩

end Command

namespace Sample

/-- A handler in the body of a condition, and nowhere else. -/
def guarded : Markup := .element "div" [] [.element "p" [("v-if", "a"), ("onclick", "go")] []]

def guardedScope (shown : Bool) : Scope := .ofEntries [("a", .bool shown)]

theorem guarded_compiled {t : Template} {next : TemplateId}
    (run : Template.compile .standard 0 guarded = .ok (t, next)) :
    t.Compiled (fun _ _ => True) fun _ => True := by
  refine .intro (fun _ _ _ => trivial) (fun _ _ found => ?_) (fun _ _ found => ?_) trivial run
  · cases Registry.standard_builtIn found
  · cases found

/-- No handler is in the scopes. -/
def lacksGuarded (t : Template) (shown : Bool) : Bool :=
  (t :: t.nested).all fun u => u.wirings.all fun w => !(guardedScope shown).contains w.handler

theorem lacks_guarded {t : Template} {shown : Bool} (told : lacksGuarded t shown = true) :
    Command.Lacks t (guardedScope shown) := by
  intro u mem w wired
  have all := List.all_eq_true.mp (List.all_eq_true.mp told u mem) w wired
  simpa using all

/-- The rendering stops at the handler. -/
def missesGuarded (start : Bool) (updates : List Bool) : Bool :=
  match Template.compile .standard 0 guarded with
  | .error _ => false
  | .ok (t, _) =>
    lacksGuarded t true && lacksGuarded t false &&
      match Command.render .idle () t (guardedScope start) (updates.map guardedScope) 0 with
      | .ok _ => false
      | .error fault => fault.cause.unwired? = some (⟨"click", "go"⟩, "undefined")

/-- The handler is in none of the scopes, and the rendering stops at it. -/
def MissesGuarded (start : Bool) (updates : List Bool) : Prop :=
  ∃ t next fault, Template.compile .standard 0 guarded = .ok (t, next) ∧
    Command.Lacks t (guardedScope true) ∧ Command.Lacks t (guardedScope false) ∧
    Command.render .idle () t (guardedScope start) (updates.map guardedScope) 0 = .error fault ∧
    fault.cause.unwired? = some (⟨"click", "go"⟩, "undefined")

theorem MissesGuarded.of_run {start : Bool} {updates : List Bool}
    (told : missesGuarded start updates = true) : MissesGuarded start updates := by
  unfold missesGuarded at told
  split at told
  · cases told
  case h_2 t next compiled =>
  rw [Bool.and_eq_true, Bool.and_eq_true] at told
  obtain ⟨⟨shown, hidden⟩, told⟩ := told
  split at told
  · cases told
  case h_2 fault failed =>
  exact ⟨t, next, fault, compiled, lacks_guarded shown, lacks_guarded hidden, failed,
    of_decide_eq_true told⟩

end Sample

/-- A handler in the body of a condition is not supplied: neither if the body is shown at once, nor
if an update brings it up. -/
theorem Command.render_misses_nested_handler :
    Sample.MissesGuarded true [] ∧ Sample.MissesGuarded false [true] :=
  ⟨.of_run (by decide +kernel), .of_run (by decide +kernel)⟩

theorem Command.render_handlers_guarded : ∃ t next fault u,
    Template.compile .standard 0 Sample.guarded = .ok (t, next) ∧
      Command.render .idle () t (Sample.guardedScope false) [Sample.guardedScope true] 0 =
        .error fault ∧
      "go" ∉ t.handlers ∧ u ∈ t.nested ∧ ⟨"click", "go"⟩ ∈ u.wirings := by
  obtain ⟨t, next, fault, compiled, shown, hidden, failed, about⟩ :
      Sample.MissesGuarded false [true] := .of_run (by decide +kernel)
  have later : ∀ next ∈ [Sample.guardedScope true], Command.Lacks t next := by
    intro next mem
    rw [List.mem_singleton.mp mem]
    exact shown
  obtain ⟨_, unlisted, u, nested, wired⟩ :=
    (Command.render_handlers (Sample.guarded_compiled compiled) hidden later .idle () 0).1 fault _ _
      failed about
  exact ⟨t, next, fault, u, compiled, failed, unlisted, nested, wired⟩

end LiveTemplate
