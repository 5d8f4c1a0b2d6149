import LiveTemplate.Proofs.Agreement
import LiveTemplate.Proofs.Compiling

/-!
# LiveTemplate.Proofs.Rebuilding

Updating an instance leads to the tree that building it anew would give, whatever happened to the
instance before.

  * `Template.Plain`                               templates with the directives `if` and `show` only
  * `Instance.update_agrees_with_createInstance`   the main result
-/

namespace LiveTemplate

variable {κ : Type}

/-- The templates made with the directives `if` and `show` and with components made so. -/
abbrev Template.Plain (t : Template) : Prop := t.Compiled Directive.BuiltIn fun _ => True

theorem Template.Plain.fine {t : Template} (h : t.Plain) : t.Each (Template.Fine True False) := by
  refine Template.Compiled.each h (fun _ name d builtin => ?_) fun _ _ => False.elim
  cases builtin
  exact ⟨rfl, rfl⟩

theorem Template.Plain.tidy {t : Template} (h : t.Plain) : t.Each (Template.Tidy True) :=
  h.fine.mono fun _ fine => fine.tidy

theorem Host.behaves_of_pure {host : Host κ} {kept : Heap} (quiet : host.Quiet)
    (pure : host.Pure kept) : host.Behaves Terms.full fun _ => kept :=
  ⟨quiet, fun _ => pure.consistent, .inl trivial⟩

/-- Let some instances be created and updated in any order, with failures, and let the last update
of one of them succeed. Then its tree is the one that a new instance under the same scope has in a
document of its own. -/
theorem Instance.update_agrees_with_createInstance {host : Host κ} {kept : Heap}
    (quiet : host.Quiet) (pure : host.Pure kept) {origin : Document} (sound : origin.Sound)
    {s s' : Stage κ} {instances : List Instance}
    (run : Run host (fun _ => kept) Template.Plain origin s instances) {k : Nat} {i i' : Instance}
    (found : instances[k]? = some i) {scope : Scope}
    (coherent : Coherent (fun _ => kept) s scope instances)
    (updated : i.update host scope s = (⟨i', none⟩, s')) {new new' : Stage κ}
    (sound' : new.document.Sound) (coherent' : Coherent (fun _ => kept) new scope [])
    {j : Instance} (made : i.template.createInstance host scope new = .ok j new') :
    SameTree s'.document new'.document i'.root j.root := by
  have behaves := Host.behaves_of_pure quiet pure
  obtain ⟨sound, _, plain, parts, standing⟩ :=
    run.standing behaves (fun _ => Template.Plain.tidy) sound
  have tidy := (plain i (List.mem_of_getElem? found)).tidy
  obtain ⟨heap, knows, fits⟩ := coherent
  obtain ⟨_, root, _, part, refreshed⟩ := Instance.update_refreshed behaves tidy sound knows
    (fits i (List.mem_of_getElem? found)) (standing.stands k i found) updated
  obtain ⟨heap', knows', _⟩ := coherent'
  obtain ⟨_, part', created⟩ :=
    (Template.createInstance_ends behaves tidy sound' knows').ok made
  have stands := refreshed.stands
  have stands' := created.stands
  rw [Subtree.Stands] at stands stands'
  exact stands.same pure stands' (refreshed.under rfl trivial) (created.under trivial)

/-! ## A run -/

theorem Template.plain_of_standard {m : Markup} {t : Template} {id next : TemplateId}
    (run : Template.compile .standard id m = .ok (t, next)) : t.Plain := by
  refine .intro (fun _ _ => Registry.standard_builtIn) (fun name t found => ?_)
    (fun tag t found => ?_) trivial run
  · cases Registry.standard_builtIn found
  · cases found

namespace Sample

/-- Its functions give their first argument back. -/
def echo : Host Unit where
  call _ args s := (args.headD .undefined, s)
  hear _ _ s := s
  apply _ _ _ s := s

/-- No lists and no maps. -/
def nothing : Heap := fun _ => False

theorem echo_quiet : echo.Quiet := fun _ _ _ => rfl

theorem echo_pure : echo.Pure nothing := by
  intro f as bs s t pairs sound _ same
  refine ⟨pairs, .refl pairs, sound, ?_⟩
  cases same with
  | nil => exact .scalar _ rfl
  | cons head _ => exact head

def isPlain (v : Value) : Bool := v.ref?.isNone

theorem fits_of_isPlain {v : Value} (h : isPlain v = true) (heap : Heap) : v.Fits heap :=
  .scalar v (Option.isNone_iff_eq_none.mp h)

def remembersPlain (i : Instance) : Bool := i.toMount.values.all fun c => c.toArgs.all isPlain

theorem coherent {s : Stage Unit} {scope : Scope} {instances : List Instance}
    (values : scope.vars.all fun e => isPlain e.2)
    (remembered : ∀ i ∈ instances, remembersPlain i = true) :
    Coherent (fun _ => nothing) s scope instances := by
  refine ⟨nothing, ⟨⟨⟨fun _ _ h => h.elim, fun _ _ h => h.elim⟩, fun _ h => h⟩, fun name => ?_⟩, ?_⟩
  · unfold Scope.read Scope.get?
    cases found : scope.vars.lookup name with
    | none => exact .scalar _ rfl
    | some v => exact fits_of_isPlain (List.all_eq_true.mp values _ (mem_of_lookup found)) nothing
  · intro i mem c hc v hv
    have all := List.all_eq_true.mp (remembered i mem) c hc
    exact fits_of_isPlain (List.all_eq_true.mp all v hv) nothing

def markup : Markup :=
  .element "p" [("class", "${c}"), ("onclick", "${f(c)}")]
    [.text " ", .element "b" [("v-if", "shown")] [.text "${f(t)}"]]

def scope (c t : String) (shown : Bool) : Scope :=
  .ofEntries [("c", .string c), ("f", .function ⟨"f"⟩), ("shown", .bool shown), ("t", .string t)]

/-- Here nothing can be called. -/
def broken : Scope := .ofEntries [("c", .string "b"), ("shown", .bool true)]

def blank : Stage Unit := ⟨.empty, 0, ()⟩

/-- An instance is made, an update of it fails below its root, and the next one succeeds. -/
def succeeds : Bool :=
  match Template.compile .standard 0 markup with
  | .error _ => false
  | .ok (t, _) =>
    match t.createInstance echo (scope "a" "x" true) blank with
    | .error _ _ => false
    | .ok i s =>
      match i.update echo broken s with
      | (⟨_, .none⟩, _) => false
      | (⟨i₁, some _⟩, s₁) =>
        match i₁.update echo (scope "z" "y" false) s₁,
          i₁.template.createInstance echo (scope "z" "y" false) blank with
        | (⟨_, .none⟩, _), .ok _ _ => remembersPlain i && remembersPlain i₁
        | _, _ => false

end Sample

theorem Instance.update_agrees_after_failure : ∃ t next i s e i₁ s₁ i₂ s₂ j s',
    Template.compile .standard 0 Sample.markup = .ok (t, next) ∧
      t.createInstance Sample.echo (Sample.scope "a" "x" true) Sample.blank = .ok i s ∧
      i.update Sample.echo Sample.broken s = (⟨i₁, some e⟩, s₁) ∧
      i₁.update Sample.echo (Sample.scope "z" "y" false) s₁ = (⟨i₂, none⟩, s₂) ∧
      i₁.template.createInstance Sample.echo (Sample.scope "z" "y" false) Sample.blank =
        .ok j s' ∧
      SameTree s₂.document s'.document i₂.root j.root := by
  have told : Sample.succeeds = true := by decide +kernel
  unfold Sample.succeeds at told
  split at told
  · cases told
  case h_2 t next compiled =>
  split at told
  · cases told
  case h_2 i s made =>
  split at told
  · cases told
  case h_2 i₁ e s₁ failed =>
  split at told
  case h_2 => cases told
  case h_1 i₂ s₂ j s' updated rebuilt =>
  obtain ⟨known, known₁⟩ := Bool.and_eq_true_iff.mp told
  have start : Run Sample.echo (fun _ => Sample.nothing) Template.Plain .empty Sample.blank [] :=
    .start rfl
  have first := start.create _ (Template.plain_of_standard compiled)
    (Sample.coherent (by decide +kernel) fun _ mem => (List.not_mem_nil mem).elim) made
  have second := first.update (k := 0) _ rfl (Sample.coherent (by decide +kernel) fun _ mem => by
    rw [List.mem_singleton.mp mem]; exact known) failed
  refine ⟨t, next, i, s, e, i₁, s₁, i₂, s₂, j, s', compiled, made, failed, updated, rebuilt, ?_⟩
  exact Instance.update_agrees_with_createInstance Sample.echo_quiet Sample.echo_pure
    (Document.sound_new false) second (k := 0) rfl
    (Sample.coherent (by decide +kernel) fun _ mem => by
      rw [List.mem_singleton.mp mem]; exact known₁) updated (Document.sound_new false)
    (Sample.coherent (by decide +kernel) fun _ mem => (List.not_mem_nil mem).elim) rebuilt

end LiveTemplate
