import LiveTemplate.Proofs.Standing
import LiveTemplate.Template.Analysis

/-!
# LiveTemplate.Proofs.Drafts

The state of an analysis. Every step keeps the draft tidy: each facet of a node is bound once,
each binding reaches its node, and a node is numbered once.

  * `Analysis.Gives`   what an analysis leads to if it succeeds
  * `Draft.Tidy`       what holds between two steps
  * `Draft.Handles`    what handling the attributes or the text of one node does to the draft
-/

namespace LiveTemplate

/-! ## Analyses that succeed -/

namespace Analysis

variable {α β : Type} {d : Draft}

/-- Whatever the analysis gives satisfies the condition. -/
def Gives (m : Analysis α) (d : Draft) (post : α → Draft → Prop) : Prop :=
  ∀ a d', m.run d = .ok (a, d') → post a d'

theorem Gives.imp {m : Analysis α} {post post' : α → Draft → Prop} (h : Gives m d post)
    (weaker : ∀ a d', post a d' → post' a d') : Gives m d post' :=
  fun a d' run => weaker a d' (h a d' run)

theorem gives_pure {a : α} {post : α → Draft → Prop} (h : post a d) :
    Gives (pure a) d post := by
  intro b d' run
  cases run
  exact h

theorem gives_bind {m : Analysis α} {f : α → Analysis β} {post : β → Draft → Prop}
    (h : Gives m d fun a d₁ => Gives (f a) d₁ post) : Gives (m >>= f) d post := by
  intro b d' run
  rw [StateT.run_bind] at run
  cases first : m.run d with
  | error e => rw [first] at run; cases run
  | ok p =>
    rw [first] at run
    exact h p.1 p.2 first b d' run

theorem gives_throw {e : CompileError} {post : α → Draft → Prop} :
    Gives (throw e) d post := by
  intro a d' run
  cases run

theorem gives_get {post : Draft → Draft → Prop} (h : post d d) : Gives get d post := by
  intro a d' run
  cases run
  exact h

theorem gives_modify {f : Draft → Draft} {post : Unit → Draft → Prop} (h : post () (f d)) :
    Gives (modify f) d post := by
  intro a d' run
  cases run
  exact h

theorem gives_lift {e : Except CompileError α} {post : α → Draft → Prop}
    (h : ∀ a, e = .ok a → post a d) : Gives (liftM e) d post := by
  intro a d' run
  cases e with
  | error e => cases run
  | ok b => cases run; exact h a rfl

end Analysis

/-! ## Drafts -/

/-- Whether an action writes to text. All others write to elements. -/
def Action.onText : Action → Bool
  | .setText _ => true
  | _ => false

/-- The number of the anchor. -/
def Target.slot? : Target → Option Nat
  | .root => none
  | .anchor slot => some slot

theorem getElem?_of_prefix {anchors more : List Path} (grows : anchors <+: more) {slot : Nat}
    {path : Path} (found : anchors[slot]? = some path) : more[slot]? = some path := by
  obtain ⟨rest, rfl⟩ := grows
  rw [List.getElem?_append_left (List.getElem?_eq_some_iff.mp found).1, found]

theorem Binding.Reaches.mono {b : Binding} {anchors more : List Path} (h : b.Reaches anchors)
    (grows : anchors <+: more) : b.Reaches more := by
  rcases h with root | ⟨slot, target, found⟩
  · exact .inl root
  · exact .inr ⟨slot, target, getElem?_of_prefix grows found⟩

namespace Draft

structure Tidy (strict : Prop) (d : Draft) : Prop where
  builtin : strict → ∀ b ∈ d.bindings, b.action.isBuiltin = true
  reach : ∀ b ∈ d.bindings, b.Reaches d.anchors
  distinct : (d.bindings.map Binding.anchor).Nodup
  nodup : d.anchors.Nodup
  rootless : Path.root ∉ d.anchors

theorem Tidy.empty (strict : Prop) (id : TemplateId) : Tidy strict { nextId := id } :=
  ⟨fun _ _ mem => (List.not_mem_nil mem).elim, fun _ mem => (List.not_mem_nil mem).elim,
    .nil, .nil, List.not_mem_nil⟩

/-- More was found. -/
structure Grows (d d' : Draft) : Prop where
  anchors : d.anchors <+: d'.anchors
  events : ∀ event ∈ d.events, event ∈ d'.events

theorem Grows.refl (d : Draft) : d.Grows d := ⟨List.prefix_rfl, fun _ h => h⟩

theorem Grows.trans {d d₁ d₂ : Draft} (h : d.Grows d₁) (h' : d₁.Grows d₂) : d.Grows d₂ :=
  ⟨h.anchors.trans h'.anchors, fun event mem => h'.events event (h.events event mem)⟩

/-- What is bound to the text or the element at `path`, and nothing else, was added. -/
structure Handles (strict : Prop) (path : Path) (text : Bool) (d d' : Draft) : Prop where
  tidy : d.Tidy strict → d'.Tidy strict
  grows : d.Grows d'
  bound : ∀ b ∈ d'.bindings, b ∈ d.bindings ∨ b.path = path ∧ b.action.onText = text
  extensions : d'.extensions = d.extensions

variable {strict : Prop} {path : Path} {text : Bool} {d d₁ d₂ : Draft}

theorem Handles.refl (d : Draft) : Handles strict path text d d :=
  ⟨fun h => h, .refl d, fun _ mem => .inl mem, rfl⟩

theorem Handles.trans (h : Handles strict path text d d₁) (h' : Handles strict path text d₁ d₂) :
    Handles strict path text d d₂ := by
  refine ⟨fun tidy => h'.tidy (h.tidy tidy), h.grows.trans h'.grows, fun b mem => ?_,
    h'.extensions.trans h.extensions⟩
  rcases h'.bound b mem with mem | new
  · exact h.bound b mem
  · exact .inr new

/-- Events and handlers do not matter to the bindings. -/
theorem Handles.listed (d : Draft) (events handlers : NameSet)
    (grows : ∀ event ∈ d.events, event ∈ events) :
    Handles strict path text d { d with events, handlers } :=
  ⟨fun h => ⟨h.builtin, h.reach, h.distinct, h.nodup, h.rootless⟩, ⟨List.prefix_rfl, grows⟩,
    fun _ mem => .inl mem, rfl⟩

end Draft

/-- What is registered: of the directives that act on their element at most the built-in one, if
that is asked for, and templates with a property. -/
structure Registry.Proper (strict : Prop) (P : Template → Prop) (registry : Registry) :
    Prop where
  elements : strict → ∀ name directive, registry.directive? name = some (.onElement directive) →
    name = "show" ∧ directive = .toggle
  structural : ∀ name t, registry.directive? name = some (.structural (.template t)) → t.Each P
  components : ∀ tag t, registry.component? tag = some t → t.Each P

theorem Path.isRoot_iff {path : Path} : path.isRoot = true ↔ path = .root := by
  obtain ⟨indexes⟩ := path
  simp [Path.isRoot, Path.root, List.isEmpty_iff]

/-! ## Handling one node -/

namespace Analysis

open Draft

variable {strict : Prop} {path : Path} {text : Bool} {d : Draft}

theorem anchorSlot?_gives {post : Option Nat → Draft → Prop}
    (h : post (d.anchors.findIdx? (· = path)) d) : Gives (anchorSlot? path) d post := by
  unfold anchorSlot?
  exact gives_bind (gives_get (gives_pure h))

/-- The number of a node is its place among the anchors. -/
theorem findIdx?_of_reach {b : Binding} (tidy : d.Tidy strict) (reach : b.Reaches d.anchors) :
    d.anchors.findIdx? (· = b.path) = b.target.slot? := by
  rcases reach with ⟨target, root⟩ | ⟨slot, target, found⟩
  · rw [target, root]
    refine List.findIdx?_eq_none_iff.mpr fun q mem => decide_eq_false ?_
    rintro rfl
    exact tidy.rootless mem
  · rw [target]
    obtain ⟨lt, found⟩ := List.getElem?_eq_some_iff.mp found
    refine List.findIdx?_eq_some_iff_getElem.mpr ⟨lt, decide_eq_true found, fun j hj same => ?_⟩
    have same := (of_decide_eq_true same).trans found.symm
    have := (tidy.nodup.getElem_inj_iff).mp same
    omega

theorem slot_of_findIdx? {slot : Nat} (h : d.anchors.findIdx? (· = path) = some slot) :
    d.anchors[slot]? = some path := by
  obtain ⟨lt, found, _⟩ := List.findIdx?_eq_some_iff_getElem.mp h
  rw [List.getElem?_eq_getElem lt, of_decide_eq_true found]

/-- A node other than the root gets a number, unless it has one. -/
theorem targetOf_gives {post : Target → Draft → Prop}
    (h : ∀ target anchors, d.anchors <+: anchors →
      (∀ strict, d.Tidy strict → anchors.Nodup ∧ Path.root ∉ anchors) →
      (∀ action source, Binding.Reaches ⟨path, target, action, source⟩ anchors) →
      post target { d with anchors }) :
    Gives (targetOf path) d post := by
  unfold targetOf
  split
  case isTrue root =>
    exact gives_pure (h .root d.anchors List.prefix_rfl (fun _ tidy => ⟨tidy.nodup, tidy.rootless⟩)
      fun _ _ => .inl ⟨rfl, Path.isRoot_iff.mp root⟩)
  case isFalse inner =>
    refine gives_bind (anchorSlot?_gives ?_)
    cases slot : d.anchors.findIdx? (· = path) with
    | some slot =>
      have found := slot_of_findIdx? slot
      exact gives_pure (h (.anchor _) d.anchors List.prefix_rfl (fun _ tidy => ⟨tidy.nodup, tidy.rootless⟩)
        fun _ _ => .inr ⟨_, rfl, found⟩)
    | none =>
      have new : path ∉ d.anchors := fun mem =>
        of_decide_eq_false (List.findIdx?_eq_none_iff.mp slot path mem) rfl
      refine gives_bind (gives_get (gives_bind (gives_modify (gives_pure ?_))))
      refine h (.anchor d.anchors.length) (d.anchors ++ [path]) (List.prefix_append _ _)
        (fun _ tidy => ⟨?_, ?_⟩) fun _ _ => .inr ⟨_, rfl, List.getElem?_concat_length⟩
      · refine tidy.nodup.append (List.nodup_singleton path) fun x mem here => ?_
        rw [List.mem_singleton.mp here] at mem
        exact new mem
      · rw [List.mem_append, List.mem_singleton, not_or]
        exact ⟨tidy.rootless, fun same => inner (Path.isRoot_iff.mpr same.symm)⟩

theorem bind_handles (action : Action) (source : String)
    (builtin : strict → action.isBuiltin = true) (same : action.onText = text) :
    Gives (bind path action source) d fun _ d' => Handles strict path text d d' := by
  unfold bind
  refine gives_bind (gives_get ?_)
  dsimp only
  split
  · exact gives_bind gives_throw
  · case isFalse free =>
    refine gives_bind (targetOf_gives fun target anchors grows numbered reach => gives_modify ?_)
    refine ⟨fun tidy => ⟨fun hs b mem => ?_, fun b mem => ?_, ?_, (numbered strict tidy).1,
      (numbered strict tidy).2⟩, ⟨grows, fun _ h => h⟩, fun b mem => ?_, rfl⟩
    · rcases List.mem_append.mp mem with mem | mem
      · exact tidy.builtin hs b mem
      · rw [List.mem_singleton.mp mem]
        exact builtin hs
    · rcases List.mem_append.mp mem with mem | mem
      · exact (tidy.reach b mem).mono grows
      · rw [List.mem_singleton.mp mem]
        exact reach action source
    · rw [List.map_append]
      refine tidy.distinct.append (List.nodup_singleton _) fun anchor mem here => free ?_
      obtain ⟨b, known, rfl⟩ := List.mem_map.mp mem
      exact List.any_eq_true.mpr ⟨b, known, decide_eq_true (List.mem_singleton.mp here)⟩
    · rcases List.mem_append.mp mem with mem | mem
      · exact .inl mem
      · rw [List.mem_singleton.mp mem]
        exact .inr ⟨rfl, same⟩

theorem addEvent_handles (strict : Prop) (event value : String) :
    Gives (addEvent path event value) d fun wiring d' => Handles strict path false d d' ∧
      wiring.event = event ∧ event ∈ d'.events := by
  unfold addEvent
  refine gives_bind (gives_lift fun call _ => gives_bind (gives_modify ?_))
  have known : event ∈ d.events.insert event := (NameSet.mem_insert _ _ _).mpr (.inl rfl)
  have listed : Handles strict path false d { d with
      events := d.events.insert event
      handlers := d.handlers.insert call.handler } :=
    .listed d _ _ fun _ mem => (NameSet.mem_insert _ _ _).mpr (.inr mem)
  dsimp only
  split
  · refine gives_bind ((bind_handles _ _ (fun _ : strict => rfl) rfl).imp fun _ d' handles => ?_)
    exact gives_pure ⟨listed.trans handles, rfl, handles.grows.events event known⟩
  · exact gives_pure ⟨listed, rfl, known⟩

theorem addDirective_handles {P : Template → Prop} {registry : Registry}
    (proper : registry.Proper strict P) (name value : String) :
    Gives (addDirective registry path name value) d fun _ d' => Handles strict path false d d' := by
  unfold addDirective
  split
  · exact gives_throw
  · exact gives_pure (.refl d)
  · case h_3 directive found =>
    refine gives_bind (gives_lift fun e _ => bind_handles _ _ (fun hs => ?_) rfl)
    obtain ⟨rfl, rfl⟩ := proper.elements hs name directive found
    rfl

/-- The attributes of an element. -/
theorem attributes_handles {P : Template → Prop} {registry : Registry}
    (proper : registry.Proper strict P) :
    ∀ (attrs fixed : List (String × String)) (handlers : List Wiring) {d : Draft},
      (∀ w ∈ handlers, w.event ∈ d.events) →
      Gives (attributes registry path attrs fixed handlers) d fun result d' =>
        Handles strict path false d d' ∧
          ∀ w ∈ result.2, w.event ∈ d'.events
  | [], fixed, handlers, d, heard => gives_pure ⟨.refl d, heard⟩
  | (name, value) :: rest, fixed, handlers, d, heard => by
    -- The rest is analysed in a draft that has grown.
    have further {d₁ : Draft} (handles : Handles strict path false d d₁)
        (fixed : List (String × String)) {handlers : List Wiring}
        (heard : ∀ w ∈ handlers, w.event ∈ d₁.events) :
        Gives (attributes registry path rest fixed handlers) d₁ fun result d' =>
          Handles strict path false d d' ∧
            ∀ w ∈ result.2, w.event ∈ d'.events :=
      (attributes_handles proper rest fixed handlers heard).imp fun _ _ h =>
        ⟨handles.trans h.1, h.2⟩
    have grown {d₁ : Draft} (handles : Handles strict path false d d₁) :
        ∀ w ∈ handlers, w.event ∈ d₁.events :=
      fun w mem => handles.grows.events _ (heard w mem)
    unfold attributes
    split
    · refine gives_bind ((addDirective_handles proper _ _).imp fun _ d₁ handles => ?_)
      exact further handles fixed (grown handles)
    · split
      · refine gives_bind ((addEvent_handles strict _ _).imp ?_)
        rintro wiring d₁ ⟨handles, named, known⟩
        dsimp only
        split
        · exact gives_bind gives_throw
        · refine further handles fixed fun w mem => ?_
          rcases List.mem_append.mp mem with mem | mem
          · exact grown handles w mem
          · rw [List.mem_singleton.mp mem, named]
            exact known
      · refine gives_bind (gives_lift fun content _ => ?_)
        split
        · exact further (.refl d) _ heard
        · refine gives_bind ((bind_handles _ _ ?_ ?_).imp fun _ d₁ handles =>
            further handles fixed (grown handles))
          · intro _
            split <;> rfl
          · split <;> rfl

end Analysis
end LiveTemplate
