import LiveTemplate.Proofs.Inventory

/-!
# LiveTemplate.Proofs.Sites

The extension points of compiled markup. Each is for the element that stands at its place, and has
the subtree that this element asks for. No element handles an event twice.

  * `Markup.Serves`            the subtree that stands for an element
  * `Markup.Assigns`           every extension point of a plan serves its element
  * `Plan.Distinct`            every element of a plan wires an event once
  * `Template.compile_sites`   compiling leads to such plans
-/

namespace LiveTemplate

namespace Markup

/-- The subtree that stands for an element, with the name that its extension point has: what the
first structural directive asks for, or else the component of the tag. A condition is about the
component of the tag, or about the element without the directive, compiled on its own. -/
inductive Serves (registry : Registry) : Markup → String → Subtree → Prop
  | directive {tag name value : String} {attributes : List (String × String)}
      {children : List Markup} {t : Template}
      (found : Analysis.structural? registry attributes = some ((name, value), .template t)) :
      Serves registry (.element tag attributes children) name (.template t)
  | component {tag : String} {attributes : List (String × String)} {children : List Markup}
      {t : Template} (free : Analysis.structural? registry attributes = none)
      (named : isComponentTag tag = true) (found : registry.component? tag = some t) :
      Serves registry (.element tag attributes children) tag (.template t)
  | conditionalComponent {tag name value : String} {attributes : List (String × String)}
      {children : List Markup} {condition : Condition} {t : Template}
      (found : Analysis.structural? registry attributes = some ((name, value), .conditional))
      (read : Condition.parse value = .ok condition) (named : isComponentTag tag = true)
      (body : registry.component? tag = some t) :
      Serves registry (.element tag attributes children) name (.conditional condition (.template t))
  | conditional {tag name value : String} {attributes : List (String × String)}
      {children : List Markup} {condition : Condition} {id next : TemplateId} {t : Template}
      (found : Analysis.structural? registry attributes = some ((name, value), .conditional))
      (read : Condition.parse value = .ok condition)
      (body : Template.compile registry id
        (.element tag (attributes.filter (·.1 ≠ name)) children) = .ok (t, next)) :
      Serves registry (.element tag attributes children) name (.conditional condition (.template t))

/-- Where the plan has an extension point for an element, the extension of that number serves the
element. -/
inductive Assigns (registry : Registry) (extensions : List Extension) : Markup → Plan → Prop
  | comment (content : String) (plan : Plan) : Assigns registry extensions (.comment content) plan
  | text (content : String) (plan : Plan) : Assigns registry extensions (.text content) plan
  | extension {m : Markup} {index : Nat} {e : Extension} (here : extensions[index]? = some e)
      (serves : m.Serves registry e.name e.subtree) :
      Assigns registry extensions m (.placeholder index)
  | element {tag : String} {attributes fixed : List (String × String)} {children : List Markup}
      {handlers : List Wiring} {plans : List Plan} {slot : Option Nat}
      (inner : List.Forall₂ (Assigns registry extensions) (children.filter (!·.isBlank)) plans) :
      Assigns registry extensions (.element tag attributes children)
        (.element tag fixed handlers plans slot)

end Markup

/-- Every element wires an event once. -/
def Plan.Distinct (plan : Plan) : Prop :=
  ∀ q p, plan.at? q = some p → (p.wirings.map Wiring.event).Nodup

theorem Plan.Distinct.leaf {plan : Plan} (leaf : plan.kids = []) (bare : plan.wirings = []) :
    plan.Distinct := by
  intro q p found
  cases q with
  | nil =>
    cases (Plan.at?_nil plan).symm.trans found
    rw [bare]
    exact List.nodup_nil
  | cons i q =>
    rw [Plan.at?_cons, leaf] at found
    cases found

theorem Plan.Distinct.element {tag : String} {fixed : List (String × String)}
    {handlers : List Wiring} {kids : List Plan} {anchor : Option Nat}
    (own : (handlers.map Wiring.event).Nodup) (below : ∀ kid ∈ kids, kid.Distinct) :
    (Plan.element tag fixed handlers kids anchor).Distinct := by
  intro q p found
  cases q with
  | nil =>
    cases found
    exact own
  | cons i q =>
    rw [Plan.at?_cons] at found
    obtain ⟨kid, here, found⟩ := Option.bind_eq_some_iff.mp found
    exact below kid (List.mem_of_getElem? here) q p found

namespace Analysis

variable {registry : Registry} {path : Path} {d : Draft} {P : Template → Prop}

/-- What the analysis of nodes comes to. Extensions that are added later change nothing. -/
structure Sited (registry : Registry) (ms : List Markup) (d : Draft) (plans : List Plan)
    (d' : Draft) : Prop where
  grows : ∃ news, d'.extensions = d.extensions ++ news
  assigns : ∀ later, List.Forall₂ (Markup.Assigns registry (d'.extensions ++ later))
    (ms.filter (!·.isBlank)) plans
  distinct : ∀ plan ∈ plans, plan.Distinct

theorem Sited.single {m : Markup} {plan : Plan} {d' : Draft} (solid : m.isBlank = false)
    (grows : ∃ news, d'.extensions = d.extensions ++ news)
    (assigns : ∀ later, m.Assigns registry (d'.extensions ++ later) plan)
    (distinct : plan.Distinct) : Sited registry [m] d [plan] d' := by
  refine ⟨grows, fun later => by simpa [solid] using assigns later, fun other mem => ?_⟩
  rw [List.mem_singleton.mp mem]
  exact distinct

theorem Sited.append {ms more : List Markup} {plans others : List Plan} {d₁ d₂ : Draft}
    (h : Sited registry ms d plans d₁) (h' : Sited registry more d₁ others d₂) :
    Sited registry (ms ++ more) d (plans ++ others) d₂ := by
  obtain ⟨news, added⟩ := h.grows
  obtain ⟨news', added'⟩ := h'.grows
  refine ⟨⟨news ++ news', by rw [added', added, List.append_assoc]⟩, fun later => ?_, ?_⟩
  · have first := h.assigns (news' ++ later)
    rw [← List.append_assoc, ← added'] at first
    rw [List.filter_append]
    exact List.rel_append first (h'.assigns later)
  · exact fun plan mem => (List.mem_append.mp mem).elim (h.distinct plan) (h'.distinct plan)

theorem attributes_distinct : ∀ (attrs fixed : List (String × String)) (handlers : List Wiring)
    {d : Draft}, (handlers.map Wiring.event).Nodup →
      Gives (attributes registry path attrs fixed handlers) d fun result _ =>
        (result.2.map Wiring.event).Nodup
  | [], fixed, handlers, d, nodup => gives_pure nodup
  | (name, value) :: rest, fixed, handlers, d, nodup => by
    unfold attributes
    split
    · exact gives_bind fun _ _ _ => attributes_distinct rest fixed handlers nodup
    · split
      · case h_1 event _ =>
        refine gives_bind ((addEvent_handles False event value).imp ?_)
        rintro wiring d₁ ⟨_, named, _⟩
        dsimp only
        split
        · exact gives_bind gives_throw
        · case isFalse new =>
          refine attributes_distinct rest fixed (handlers ++ [wiring]) ?_
          rw [List.map_append]
          refine nodup.append (List.nodup_singleton _) fun e mem here => new ?_
          obtain ⟨w, known, rfl⟩ := List.mem_map.mp mem
          rw [List.map_singleton, List.mem_singleton, named] at here
          exact List.any_eq_true.mpr ⟨w, known, decide_eq_true here⟩
      · refine gives_bind (gives_lift fun content _ => ?_)
        split
        · exact attributes_distinct rest _ handlers nodup
        · exact gives_bind fun _ _ _ => attributes_distinct rest fixed handlers nodup

theorem text_sited (content : String) : Gives (text path content) d fun plan? d' =>
    Sited registry [.text content] d plan?.toList d' := by
  unfold text
  split
  · case isTrue blank =>
    refine gives_pure ⟨⟨[], (List.append_nil _).symm⟩, fun _ => ?_, fun _ mem => ?_⟩
    · simp [Markup.isBlank, blank]
    · exact (List.not_mem_nil mem).elim
  · case isFalse solid =>
    have solid : (Markup.text content).isBlank = false := Bool.eq_false_iff.mpr solid
    have leaf {d' : Draft} {content' : String} {slot : Option Nat}
        (same : d'.extensions = d.extensions) :
        Sited registry [.text content] d (some (Plan.text content' slot)).toList d' :=
      .single solid ⟨[], by rw [same, List.append_nil]⟩ (fun _ => .text content _) (.leaf rfl rfl)
    refine gives_bind (gives_lift fun parsed _ => ?_)
    split
    · exact gives_pure (leaf rfl)
    · refine gives_bind ((bind_handles _ _ (fun h : False => h.elim) rfl).imp fun _ d₁ handles => ?_)
      exact gives_bind (anchorSlot?_gives (gives_pure (leaf handles.extensions)))

theorem plainElement_sited (proper : registry.Proper False P) {tag : String}
    {attrs : List (String × String)} {kids : List Markup} {children : Analysis (List Plan)}
    (below : ∀ {d₁}, Gives children d₁ (Sited registry kids d₁)) :
    Gives (plainElement registry tag attrs children path) d fun plan d' =>
      Sited registry [.element tag attrs kids] d [plan] d' := by
  unfold plainElement
  refine gives_bind fun result d₁ run => ?_
  have distinct := attributes_distinct attrs [] [] List.nodup_nil _ _ run
  have handles := (attributes_handles proper attrs [] [] (fun _ mem => by cases mem) _ _ run).1
  refine gives_bind (anchorSlot?_gives (gives_bind (below.imp fun plans d₂ sited => ?_)))
  obtain ⟨news, added⟩ := sited.grows
  exact gives_pure (.single rfl ⟨news, by rw [added, handles.extensions]⟩
    (fun later => .element (sited.assigns later)) (.element distinct sited.distinct))

/-! ## Extension points -/

theorem component_found {tag : String} {attrs : List (String × String)} {subtree : Subtree}
    (found : component registry tag attrs = .ok subtree) :
    ∃ t, subtree = .template t ∧ registry.component? tag = some t := by
  unfold component at found
  split at found
  · cases found
  · case h_2 t registered =>
    split at found
    · cases found
    · cases found
      exact ⟨t, rfl, registered⟩

/-- An element that no extension takes over is compiled by the analysis of itself. -/
theorem compile_plain {tag : String} {attrs : List (String × String)} {children : List Markup}
    (free : structural? registry attrs = none) (plain : isComponentTag tag = false)
    {id : TemplateId} {plan : Plan} {inner : Draft}
    (run : (plainElement registry tag attrs (nodes registry children .root 0) .root).run
      { nextId := id } = .ok (plan, inner)) :
    Template.compile registry id (.element tag attrs children) =
      .ok (template plan inner, inner.nextId + 1) := by
  have left : extension? registry tag attrs (nodes registry children .root 0) .root = pure none := by
    unfold extension?
    rw [free]
    simp [plain]
  unfold Template.compile
  rw [node, left, pure_bind]
  have walk : (do
      let plan ← plainElement registry tag attrs (nodes registry children .root 0) .root
      pure (some plan) : Analysis (Option Plan)).run { nextId := id } = .ok (some plan, inner) := by
    rw [StateT.run_bind, run]
    rfl
  dsimp only
  rw [walk]
  rfl

theorem conditional_serves {tag name value : String} {attrs : List (String × String)}
    {children : List Markup}
    (found : structural? registry attrs = some ((name, value), .conditional)) :
    Gives (conditional registry tag (attrs.filter (·.1 ≠ name)) (nodes registry children .root 0)
        value) d fun subtree d' =>
      (Markup.element tag attrs children).Serves registry name subtree ∧
        ∃ id, d' = { d with nextId := id } := by
  unfold conditional
  refine gives_bind (gives_lift fun condition read => ?_)
  split
  · case isTrue named =>
    refine gives_bind (gives_lift fun body got => gives_pure ⟨?_, d.nextId, rfl⟩)
    obtain ⟨t, rfl, registered⟩ := component_found got
    exact .conditionalComponent found read named registered
  · case isFalse plain =>
    split
    · exact gives_throw
    · case h_2 free =>
      have alone : Gives (isolated (plainElement registry tag (attrs.filter (·.1 ≠ name))
          (nodes registry children .root 0) .root)) d fun t d' =>
            (∃ id next, Template.compile registry id
              (.element tag (attrs.filter (·.1 ≠ name)) children) = .ok (t, next)) ∧
            ∃ id, d' = { d with nextId := id } :=
        isolated_gives fun id plan inner run =>
          ⟨id, _, compile_plain free (Bool.eq_false_iff.mpr plain) run⟩
      refine gives_bind (alone.imp ?_)
      rintro t d' ⟨⟨id, next, compiled⟩, kept⟩
      exact gives_pure ⟨.conditional found read compiled, kept⟩

theorem mount_sited {m : Markup} {name : String} {subtree : Subtree} {id : TemplateId}
    (solid : m.isBlank = false) (serves : m.Serves registry name subtree) :
    Gives (mount path name subtree) { d with nextId := id } fun plan d' =>
      Sited registry [m] d [plan] d' := by
  unfold mount
  refine gives_bind (gives_get (gives_bind (gives_modify (gives_pure ?_))))
  refine .single solid ⟨[⟨path, name, subtree⟩], rfl⟩ (fun later => ?_) (.leaf rfl rfl)
  refine .extension (e := ⟨path, name, subtree⟩) ?_ serves
  rw [List.append_assoc, List.getElem?_append_right (Nat.le_refl _), Nat.sub_self]
  rfl

theorem extension?_sited (tag : String) (attrs : List (String × String)) (children : List Markup) :
    Gives (extension? registry tag attrs (nodes registry children .root 0) path) d fun plan? d' =>
      ∀ plan, plan? = some plan → Sited registry [.element tag attrs children] d [plan] d' := by
  have mounted {name : String} {subtree : Subtree} {id : TemplateId}
      (serves : (Markup.element tag attrs children).Serves registry name subtree) :
      Gives (mount path name subtree) { d with nextId := id } fun plan d' =>
        Gives (pure (some plan)) d' fun plan? d' => ∀ plan, plan? = some plan →
          Sited registry [.element tag attrs children] d [plan] d' := by
    refine (mount_sited rfl serves).imp fun plan d' sited => gives_pure fun _ same => ?_
    cases same
    exact sited
  unfold extension?
  split
  · case h_1 name value directive found =>
    dsimp only
    split
    · exact gives_bind gives_throw
    · cases directive with
      | template t => exact gives_bind (gives_pure (gives_bind (mounted (.directive found))))
      | conditional =>
        refine gives_bind ((conditional_serves found).imp ?_)
        rintro subtree d₁ ⟨serves, id, rfl⟩
        exact gives_bind (mounted serves)
  · case h_2 free =>
    split
    · case isTrue named =>
      dsimp only
      split
      · exact gives_bind gives_throw
      · refine gives_bind (gives_lift fun subtree got => ?_)
        obtain ⟨t, rfl, registered⟩ := component_found got
        exact gives_bind (mounted (.component free named registered))
    · exact gives_pure fun plan same => (Option.some_ne_none plan same.symm).elim

/-! ## The walk -/

mutual

theorem node_sited (proper : registry.Proper False P) : ∀ (m : Markup) (path : Path) {d : Draft},
    Gives (node registry m path) d fun plan? d' => Sited registry [m] d plan?.toList d'
  | .comment content, path, d =>
    gives_pure (.single rfl ⟨[], (List.append_nil _).symm⟩ (fun _ => .comment content _)
      (.leaf rfl rfl))
  | .text content, path, d => text_sited content
  | .element tag attrs children, path, d => by
    unfold node
    refine gives_bind fun plan? d₁ run => ?_
    have claimed := extension?_lists tag attrs (nodes_lists children .root 0) _ _ run
    have sited := extension?_sited tag attrs children _ _ run
    cases plan? with
    | none =>
      obtain ⟨left, rfl⟩ := claimed
      exact gives_bind ((plainElement_sited proper (nodes_sited proper children path 0)).imp
        fun plan d₂ below => gives_pure below)
    | some plan => exact gives_pure (sited plan rfl)

theorem nodes_sited (proper : registry.Proper False P) : ∀ (kids : List Markup) (path : Path)
    (index : Nat) {d : Draft},
    Gives (nodes registry kids path index) d (Sited registry kids d)
  | [], path, index, d =>
    gives_pure ⟨⟨[], (List.append_nil _).symm⟩, fun _ => .nil, fun _ mem =>
      (List.not_mem_nil mem).elim⟩
  | kid :: rest, path, index, d => by
    unfold nodes
    refine gives_bind ((node_sited proper kid (path.child index)).imp fun plan? d₁ first => ?_)
    refine gives_bind ((nodes_sited proper rest path (index + 1)).imp fun plans d₂ others => ?_)
    exact gives_pure (first.append others)

end

end Analysis

/-- The plan of a template has the nodes of its markup, its extension points serve the elements at
their places, and no element of it handles an event twice. -/
theorem Template.compile_sites {registry : Registry} {P : Template → Prop}
    (proper : registry.Proper False P) {id next : TemplateId} {m : Markup} {t : Template}
    (element : m.tag?.isSome = true) (run : compile registry id m = .ok (t, next)) :
    m.Mirrors registry t.plan ∧ m.Assigns registry t.extensions t.plan ∧ t.plan.Distinct := by
  have solid : m.isBlank = false := by
    cases m with
    | text content => cases element
    | _ => rfl
  obtain ⟨plan?, d, walk, rfl⟩ := compile_walk run
  have mirrors := (Analysis.node_lists m .root _ _ walk).mirrors
  obtain ⟨_, assigns, distinct⟩ := Analysis.node_sited proper m .root _ _ walk
  have assigns := assigns []
  rw [List.filter_cons, solid] at mirrors assigns
  rw [List.append_nil] at assigns
  cases plan? with
  | none => cases assigns
  | some plan =>
    exact ⟨(List.forall₂_cons.mp mirrors).1, (List.forall₂_cons.mp assigns).1,
      distinct plan (List.mem_singleton_self plan)⟩

end LiveTemplate
