import LiveTemplate.Proofs.Drafts

/-!
# LiveTemplate.Proofs.Compiling

What compiling guarantees. The plan follows the markup with blank text left out, and every binding
writes to the part of the plan that stands for its node.

  * `Markup.kept?`           where the node at a position of the markup is built
  * `Template.Traced`        the bindings of a template, by the positions of their nodes
  * `Template.Compiled`      the templates that compiling makes, with all that is mounted in them
  * `Template.Compiled.each` every one of them is tidy and traced
-/

namespace LiveTemplate

/-! ## Positions in markup -/

namespace Markup

def children : Markup → List Markup
  | .element _ _ children => children
  | _ => []

/-- Blank text is not built. -/
def isBlank : Markup → Bool
  | .text content => Text.isBlankText content
  | _ => false

/-- The position at which the node at a position of the markup is built, where blank text does not
count. -/
def kept? : Markup → List Nat → Option (List Nat)
  | _, [] => some []
  | m, i :: r =>
    m.children[i]?.bind fun kid =>
      if kid.isBlank then none
      else (kid.kept? r).map ((m.children.take i).countP (fun before => !before.isBlank) :: ·)

/-- The child at index `i` that is not blank is built at index `j`. -/
structure Kid (kids : List Markup) (i j : Nat) (kid : Markup) : Prop where
  found : kids[i]? = some kid
  solid : kid.isBlank = false
  before : (kids.take i).countP (fun before => !before.isBlank) = j

theorem kept?_cons {m : Markup} {i : Nat} {r q : List Nat} :
    m.kept? (i :: r) = some q ↔
      ∃ j kid p, Kid m.children i j kid ∧ kid.kept? r = some p ∧ q = j :: p := by
  rw [kept?]
  constructor
  · intro h
    obtain ⟨kid, found, h⟩ := Option.bind_eq_some_iff.mp h
    split at h
    · cases h
    · case isFalse solid =>
      obtain ⟨p, kept, rfl⟩ := Option.map_eq_some_iff.mp h
      exact ⟨_, kid, p, ⟨found, Bool.eq_false_iff.mpr solid, rfl⟩, kept, rfl⟩
  · rintro ⟨j, kid, p, ⟨found, solid, rfl⟩, kept, rfl⟩
    simp [found, solid, kept]

theorem Kid.head {kid : Markup} (rest : List Markup) (solid : kid.isBlank = false) :
    Kid (kid :: rest) 0 0 kid := ⟨rfl, solid, rfl⟩

theorem Kid.after_blank {first kid : Markup} {rest : List Markup} {i j : Nat}
    (h : Kid rest i j kid) (blank : first.isBlank = true) : Kid (first :: rest) (i + 1) j kid :=
  ⟨h.found, h.solid, by rw [List.take_succ_cons, List.countP_cons_of_neg (by simp [blank]), h.before]⟩

theorem Kid.after {first kid : Markup} {rest : List Markup} {i j : Nat}
    (h : Kid rest i j kid) (solid : first.isBlank = false) :
    Kid (first :: rest) (i + 1) (j + 1) kid :=
  ⟨h.found, h.solid, by rw [List.take_succ_cons, List.countP_cons_of_pos (by simp [solid]), h.before]⟩

/-- No element has more children than positions can tell apart. -/
inductive Narrow : Markup → Prop
  | element {tag : String} {attributes : List (String × String)} {children : List Markup}
      (few : children.length ≤ 2 ^ 32) (each : ∀ kid ∈ children, Narrow kid) :
      Narrow (.element tag attributes children)
  | text (content : String) : Narrow (.text content)
  | comment (content : String) : Narrow (.comment content)

theorem Narrow.children {m : Markup} (h : m.Narrow) :
    m.children.length ≤ 2 ^ 32 ∧ ∀ kid ∈ m.children, kid.Narrow := by
  cases h with
  | element few each => exact ⟨few, each⟩
  | text content => exact ⟨Nat.zero_le _, fun _ mem => (List.not_mem_nil mem).elim⟩
  | comment content => exact ⟨Nat.zero_le _, fun _ mem => (List.not_mem_nil mem).elim⟩

end Markup

/-- The path that leads on from the node at `path`. -/
def Path.below (path : Path) (r : List Nat) : Path := ⟨path.indexes ++ r.map Nat.toUInt32⟩

@[simp] theorem Path.below_nil (path : Path) : path.below [] = path := by
  simp [Path.below]

@[simp] theorem Path.child_below (path : Path) (i : Nat) (r : List Nat) :
    (path.child i).below r = path.below (i :: r) := by
  simp [Path.below, Path.child]

theorem Path.positions_below_cons {i : Nat} (small : i < 2 ^ 32) (r : List Nat) :
    (Path.root.below (i :: r)).indexes.map UInt32.toNat =
      i :: (Path.root.below r).indexes.map UInt32.toNat := by
  have head : (Nat.toUInt32 i).toNat = i := UInt32.toNat_ofNat_of_lt' small
  change (Nat.toUInt32 i).toNat :: (Path.root.below r).indexes.map UInt32.toNat = _
  rw [head]

/-- In narrow markup a path gives the position back. -/
theorem Markup.Narrow.position {m : Markup} (narrow : m.Narrow) {r q : List Nat}
    (kept : m.kept? r = some q) : (Path.root.below r).indexes.map UInt32.toNat = r := by
  induction r generalizing m q with
  | nil => rfl
  | cons i r ih =>
    obtain ⟨j, kid, p, at', below, rfl⟩ := Markup.kept?_cons.mp kept
    obtain ⟨few, each⟩ := narrow.children
    obtain ⟨lt, _⟩ := List.getElem?_eq_some_iff.mp at'.found
    have tail := ih (each kid (List.mem_of_getElem? at'.found)) below
    rw [Path.positions_below_cons (by omega), tail]

/-! ## Plans and bindings by position -/

/-- Whether the node of a part can be written by an action. -/
def Plan.Takes : Plan → Action → Prop
  | .element _ _ _ _ _, action => action.onText = false
  | .text _ _, action => action.onText = true
  | .comment _, _ => False
  | .placeholder _, _ => False

/-- The numbered parts stand for nodes with these paths. -/
def Plan.Marked (m : Markup) (path : Path) (anchors : List Path) (plan : Plan) : Prop :=
  ∀ q p slot, plan.at? q = some p → p.anchor? = some slot →
    ∃ r, m.kept? r = some q ∧ anchors[slot]? = some (path.below r)

/-- All handlers are for known events. -/
def Plan.Hears (events : NameSet) (plan : Plan) : Prop :=
  ∀ q p, plan.at? q = some p → ∀ w ∈ p.wirings, w.event ∈ events

/-- The binding writes to the part that stands for its node. -/
def Binding.Placed (m : Markup) (path : Path) (plan : Plan) (b : Binding) : Prop :=
  ∃ r q p, m.kept? r = some q ∧ plan.at? q = some p ∧ b.path = path.below r ∧
    p.Takes b.action ∧ p.anchor? = b.target.slot?

/-- The template says where the nodes of the markup are built and written to. -/
structure Template.Traced (m : Markup) (t : Template) : Prop where
  marked : t.plan.Marked m .root t.anchors
  bound : ∀ b ∈ t.bindings, b.Placed m .root t.plan

/-- What compiling guarantees of a template: it is tidy, and it follows its markup. -/
structure Template.Fine (strict narrow : Prop) (t : Template) : Prop where
  tidy : t.Tidy strict
  traced : ∃ m : Markup, (narrow → m.Narrow) ∧ t.Traced m

theorem Plan.Marked.grow {m : Markup} {path : Path} {anchors more : List Path} {plan : Plan}
    (h : plan.Marked m path anchors) (grows : anchors <+: more) : plan.Marked m path more := by
  intro q p slot found anchor
  obtain ⟨r, kept, numbered⟩ := h q p slot found anchor
  exact ⟨r, kept, getElem?_of_prefix grows numbered⟩

/-- In narrow markup every node has a number of its own. -/
theorem Template.Traced.numbered {m : Markup} {t : Template} (traced : t.Traced m)
    (narrow : m.Narrow) {slot : Nat} {q q' : List Nat} (h : (slot, q) ∈ t.plan.marks)
    (h' : (slot, q') ∈ t.plan.marks) : q = q' := by
  obtain ⟨p, found, anchor⟩ := Plan.mem_marks.mp h
  obtain ⟨p', found', anchor'⟩ := Plan.mem_marks.mp h'
  obtain ⟨r, kept, here⟩ := traced.marked q p slot found anchor
  obtain ⟨r', kept', here'⟩ := traced.marked q' p' slot found' anchor'
  have same : Path.root.below r = Path.root.below r' := Option.some.inj (here.symm.trans here')
  have positions : r = r' := by
    rw [← narrow.position kept, ← narrow.position kept', same]
  rw [positions, kept'] at kept
  exact (Option.some.inj kept).symm

/-! ## The walk -/

theorem Extension.allEach_append {P : Template → Prop} : ∀ {es fs : List Extension},
    Extension.AllEach P es → Extension.AllEach P fs → Extension.AllEach P (es ++ fs)
  | [], fs, _, h => h
  | ⟨path, name, subtree⟩ :: es, fs, h, h' => by
    rw [Extension.AllEach] at h
    rw [List.cons_append, Extension.AllEach]
    exact ⟨h.1, Extension.allEach_append h.2 h'⟩

namespace Analysis

open Draft

/-- The extension points of a plan, the last one in front, after those that the draft has. -/
def Continues (holes : List (Nat × List Nat)) (d d' : Draft) : Prop :=
  holes.map Prod.fst ++ (List.range d.extensions.length).reverse =
    (List.range d'.extensions.length).reverse

/-- A draft to go on from. -/
structure Ready (strict narrow : Prop) (d : Draft) : Prop where
  tidy : d.Tidy strict
  each : Extension.AllEach (Template.Fine strict narrow) d.extensions

/-- What the analysis of a node that is built leads to. -/
structure Drawn (strict narrow : Prop) (m : Markup) (path : Path) (d d' : Draft) (plan : Plan) :
    Prop where
  ready : Ready strict narrow d'
  grows : d.Grows d'
  marked : plan.Marked m path d'.anchors
  bound : ∀ b ∈ d'.bindings, b ∈ d.bindings ∨ b.Placed m path plan
  hears : plan.Hears d'.events
  holes : Continues plan.holes d d'
  root : path = .root → plan.hole? = none ∧ plan.anchor? = none

/-- What the analysis of the children of a node leads to. -/
structure DrawnAll (strict narrow : Prop) (kids : List Markup) (path : Path) (index : Nat)
    (d d' : Draft) (plans : List Plan) : Prop where
  ready : Ready strict narrow d'
  grows : d.Grows d'
  drawn : ∀ (j : Nat) (plan : Plan), plans[j]? = some plan → ∃ i kid, Markup.Kid kids i j kid ∧
    plan.Marked kid (path.child (index + i)) d'.anchors ∧ plan.Hears d'.events
  bound : ∀ b ∈ d'.bindings, b ∈ d.bindings ∨ ∃ (i j : Nat) (kid : Markup) (plan : Plan),
    Markup.Kid kids i j kid ∧ plans[j]? = some plan ∧ b.Placed kid (path.child (index + i)) plan
  holes : Continues (Plan.collectKids Plan.hole? plans) d d'

/-- Nothing is built for blank text. -/
def Outcome (strict narrow : Prop) (m : Markup) (path : Path) (d d' : Draft) :
    Option Plan → Prop
  | none => m.isBlank = true ∧ d' = d
  | some plan => m.isBlank = false ∧ Drawn strict narrow m path d d' plan

variable {strict narrow : Prop} {path : Path} {d d₁ d₂ : Draft} {index : Nat}

theorem DrawnAll.nil (ready : Ready strict narrow d) :
    DrawnAll strict narrow [] path index d d [] :=
  ⟨ready, .refl d, fun _ _ found => (List.not_mem_nil (List.mem_of_getElem? found)).elim,
    fun _ mem => .inl mem, rfl⟩

/-- A blank child is left out. -/
theorem DrawnAll.cons_blank {kid : Markup} {rest : List Markup} {plans : List Plan}
    (blank : kid.isBlank = true)
    (others : DrawnAll strict narrow rest path (index + 1) d d₁ plans) :
    DrawnAll strict narrow (kid :: rest) path index d d₁ plans := by
  refine ⟨others.ready, others.grows, fun j plan found => ?_, fun b mem => ?_, others.holes⟩
  · obtain ⟨i, kid', at', drawn⟩ := others.drawn j plan found
    rw [Nat.add_right_comm, Nat.add_assoc] at drawn
    exact ⟨i + 1, kid', at'.after_blank blank, drawn⟩
  · rcases others.bound b mem with old | ⟨i, j, kid', plan, at', found, placed⟩
    · exact .inl old
    · rw [Nat.add_right_comm, Nat.add_assoc] at placed
      exact .inr ⟨i + 1, j, kid', plan, at'.after_blank blank, found, placed⟩

theorem DrawnAll.cons {kid : Markup} {rest : List Markup} {plan : Plan} {plans : List Plan}
    (solid : kid.isBlank = false) (first : Drawn strict narrow kid (path.child index) d d₁ plan)
    (others : DrawnAll strict narrow rest path (index + 1) d₁ d₂ plans) :
    DrawnAll strict narrow (kid :: rest) path index d d₂ (plan :: plans) := by
  refine ⟨others.ready, first.grows.trans others.grows, fun j part found => ?_, fun b mem => ?_, ?_⟩
  · cases j with
    | zero =>
      cases found
      exact ⟨0, kid, .head rest solid, first.marked.grow others.grows.anchors,
        fun q p at' w mem => others.grows.events _ (first.hears q p at' w mem)⟩
    | succ j =>
      obtain ⟨i, kid', at', drawn⟩ := others.drawn j part found
      rw [Nat.add_right_comm, Nat.add_assoc] at drawn
      exact ⟨i + 1, kid', at'.after solid, drawn⟩
  · rcases others.bound b mem with mem | ⟨i, j, kid', part, at', found, placed⟩
    · rcases first.bound b mem with old | placed
      · exact .inl old
      · exact .inr ⟨0, 0, kid, plan, .head rest solid, rfl, placed⟩
    · rw [Nat.add_right_comm, Nat.add_assoc] at placed
      exact .inr ⟨i + 1, j + 1, kid', part, at'.after solid, found, placed⟩
  · have here := first.holes
    have there := others.holes
    unfold Continues at here there ⊢
    rw [Plan.collectKids, List.map_append, List.map_map, List.map_map, List.append_assoc,
      ← there, ← here]
    rfl

/-- An element, once its attributes and its children are analysed. -/
theorem Drawn.element {tag : String} {attrs fixed : List (String × String)} {kids : List Markup}
    {handlers : List Wiring} {plans : List Plan} (tidy : d₁.Tidy strict)
    (handles : Handles strict path false d d₁) (heard : ∀ w ∈ handlers, w.event ∈ d₁.events)
    (children : DrawnAll strict narrow kids path 0 d₁ d₂ plans) :
    Drawn strict narrow (.element tag attrs kids) path d d₂
      (.element tag fixed handlers plans (d₁.anchors.findIdx? (· = path))) := by
  refine ⟨children.ready, handles.grows.trans children.grows, ?_, ?_, ?_, ?_, ?_⟩
  · intro q p slot found anchor
    cases q with
    | nil =>
      cases found
      refine ⟨[], rfl, getElem?_of_prefix children.grows.anchors ?_⟩
      rw [slot_of_findIdx? anchor, Path.below_nil]
    | cons j q =>
      rw [Plan.at?_cons] at found
      obtain ⟨plan, here, found⟩ := Option.bind_eq_some_iff.mp found
      obtain ⟨i, kid, at', marked, _⟩ := children.drawn j plan here
      obtain ⟨r, kept, numbered⟩ := marked q p slot found anchor
      refine ⟨i :: r, Markup.kept?_cons.mpr ⟨j, kid, q, at', kept, rfl⟩, ?_⟩
      rw [numbered, Path.child_below, Nat.zero_add]
  · intro b mem
    rcases children.bound b mem with mem | ⟨i, j, kid, plan, at', here, r, q, p, kept, found, same, takes⟩
    · rcases handles.bound b mem with old | ⟨here, onElement⟩
      · exact .inl old
      · refine .inr ⟨[], [], _, rfl, Plan.at?_nil _, by rw [here, Path.below_nil], onElement, ?_⟩
        rw [← findIdx?_of_reach tidy (tidy.reach b mem), here]
        rfl
    · refine .inr ⟨i :: r, j :: q, p, Markup.kept?_cons.mpr ⟨j, kid, q, at', kept, rfl⟩, ?_, ?_, takes⟩
      · rw [Plan.at?_cons]
        exact Option.bind_eq_some_iff.mpr ⟨plan, here, found⟩
      · rw [same, Path.child_below, Nat.zero_add]
  · intro q p found w mem
    cases q with
    | nil =>
      cases found
      exact children.grows.events _ (heard w mem)
    | cons j q =>
      rw [Plan.at?_cons] at found
      obtain ⟨plan, here, found⟩ := Option.bind_eq_some_iff.mp found
      obtain ⟨_, _, _, _, hears⟩ := children.drawn j plan here
      exact hears q p found w mem
  · have holes := children.holes
    unfold Continues at holes ⊢
    rw [handles.extensions] at holes
    exact holes
  · rintro rfl
    refine ⟨rfl, List.findIdx?_eq_none_iff.mpr fun q mem => decide_eq_false ?_⟩
    rintro rfl
    exact tidy.rootless mem

/-- A part without children, where nothing or only text was bound. -/
theorem Drawn.leaf {m : Markup} {plan : Plan} (ready : Ready strict narrow d)
    (handles : Handles strict path true d d₁) (leaf : plan.kids = []) (silent : plan.wirings = [])
    (solid : plan.hole? = none)
    (numbered : plan.anchor? = none ∧ d₁ = d ∨
      (∃ content anchor, plan = .text content anchor) ∧
        plan.anchor? = d₁.anchors.findIdx? (· = path)) :
    Drawn strict narrow m path d d₁ plan := by
  have tidy := handles.tidy ready.tidy
  have only {q : List Nat} {p : Plan} (found : plan.at? q = some p) : q = [] ∧ p = plan := by
    cases q with
    | nil => rw [Plan.at?_nil] at found; cases found; exact ⟨rfl, rfl⟩
    | cons j q => rw [Plan.at?_cons, leaf] at found; cases found
  refine ⟨⟨tidy, handles.extensions ▸ ready.each⟩, handles.grows, ?_, ?_, ?_, ?_, ?_⟩
  · intro q p slot found anchor
    obtain ⟨rfl, rfl⟩ := only found
    rcases numbered with ⟨none, _⟩ | ⟨_, here⟩
    · rw [anchor] at none
      cases none
    · exact ⟨[], rfl, by rw [slot_of_findIdx? (here.symm.trans anchor), Path.below_nil]⟩
  · intro b mem
    rcases numbered with ⟨_, rfl⟩ | ⟨⟨content, anchor, rfl⟩, here⟩
    · exact .inl mem
    · rcases handles.bound b mem with old | ⟨at', onText⟩
      · exact .inl old
      · refine .inr ⟨[], [], _, rfl, Plan.at?_nil _, by rw [at', Path.below_nil], onText, ?_⟩
        rw [here, ← findIdx?_of_reach tidy (tidy.reach b mem), at']
  · intro q p found w mem
    obtain ⟨rfl, rfl⟩ := only found
    rw [silent] at mem
    cases mem
  · have none : plan.holes = [] := List.eq_nil_iff_forall_not_mem.mpr fun ⟨index, q⟩ mem => by
      obtain ⟨p, found, hole⟩ := Plan.mem_collect.mp mem
      obtain ⟨rfl, rfl⟩ := only found
      rw [solid] at hole
      cases hole
    unfold Continues
    rw [none, handles.extensions]
    rfl
  · rintro rfl
    refine ⟨solid, ?_⟩
    rcases numbered with ⟨none, _⟩ | ⟨_, here⟩
    · exact none
    · rw [here]
      refine List.findIdx?_eq_none_iff.mpr fun q mem => decide_eq_false ?_
      rintro rfl
      exact tidy.rootless mem

theorem text_drawn (content : String) (ready : Ready strict narrow d) :
    Gives (text path content) d fun plan? d' =>
      Outcome strict narrow (.text content) path d d' plan? := by
  unfold text
  split
  · case isTrue blank => exact gives_pure ⟨blank, rfl⟩
  · case isFalse solid =>
    have solid : Markup.isBlank (.text content) = false := Bool.eq_false_iff.mpr solid
    refine gives_bind (gives_lift fun parsed _ => ?_)
    split
    · exact gives_pure ⟨solid, .leaf ready (.refl d) rfl rfl rfl (.inl ⟨rfl, rfl⟩)⟩
    · refine gives_bind ((bind_handles _ _ (fun _ : strict => rfl) rfl).imp fun _ d₁ handles => ?_)
      refine gives_bind (anchorSlot?_gives (gives_pure ⟨solid, ?_⟩))
      exact .leaf ready handles rfl rfl rfl (.inr ⟨⟨_, _, rfl⟩, rfl⟩)

variable {P : Template → Prop} {registry : Registry}

theorem plainElement_drawn (proper : registry.Proper strict P) (tag : String)
    (attrs : List (String × String)) {kids : List Markup} {children : Analysis (List Plan)}
    (ready : Ready strict narrow d)
    (below : ∀ {d₁}, Ready strict narrow d₁ →
      Gives children d₁ fun plans d₂ => DrawnAll strict narrow kids path 0 d₁ d₂ plans) :
    Gives (plainElement registry tag attrs children path) d fun plan d' =>
      ∀ attrs', Drawn strict narrow (.element tag attrs' kids) path d d' plan := by
  unfold plainElement
  refine gives_bind ((attributes_handles proper attrs [] [] fun _ mem =>
    (List.not_mem_nil mem).elim).imp ?_)
  rintro ⟨fixed, handlers⟩ d₁ ⟨handles, heard⟩
  have ready₁ : Ready strict narrow d₁ :=
    ⟨handles.tidy ready.tidy, handles.extensions ▸ ready.each⟩
  refine gives_bind (anchorSlot?_gives (gives_bind ((below ready₁).imp fun plans d₂ drawn => ?_)))
  exact gives_pure fun attrs' => .element ready₁.tidy handles heard drawn

theorem Drawn.traced {m : Markup} {id : TemplateId} {plan : Plan}
    (drawn : Drawn strict narrow m .root { nextId := id } d plan) : (template plan d).Traced m := by
  refine ⟨drawn.marked, fun b mem => ?_⟩
  rcases drawn.bound b mem with old | placed
  · exact (List.not_mem_nil old).elim
  · exact placed

/-- The template of a node that was analysed on its own. -/
theorem Drawn.fine {m : Markup} {id : TemplateId} {plan : Plan}
    (drawn : Drawn strict narrow m .root { nextId := id } d plan) (small : narrow → m.Narrow) :
    (template plan d).Each (Template.Fine strict narrow) := by
  have tidy := drawn.ready.tidy
  have holes := drawn.holes
  unfold Continues at holes
  rw [show (List.range ({ nextId := id } : Draft).extensions.length).reverse = [] from rfl,
    List.append_nil] at holes
  exact ⟨⟨⟨tidy.builtin, tidy.reach, tidy.distinct, tidy.nodup, tidy.rootless, (drawn.root rfl).1,
    (drawn.root rfl).2, holes, drawn.hears⟩, m, small, drawn.traced⟩, drawn.ready.each⟩

/-! ## Extension points -/

/-- An extension point takes the place of an element. -/
theorem mount_drawn (m : Markup) (name : String) {subtree : Subtree}
    (ready : Ready strict narrow d) (inner : path.isRoot = false)
    (each : subtree.Each (Template.Fine strict narrow)) :
    Gives (mount path name subtree) d fun plan d' => Drawn strict narrow m path d d' plan := by
  unfold mount
  refine gives_bind (gives_get (gives_bind (gives_modify (gives_pure ?_))))
  have tidy := ready.tidy
  have only {q : List Nat} {p : Plan} {index : Nat}
      (found : (Plan.placeholder index).at? q = some p) : p = .placeholder index := by
    cases q with
    | nil => cases found; rfl
    | cons j q => cases found
  refine ⟨⟨⟨tidy.builtin, tidy.reach, tidy.distinct, tidy.nodup, tidy.rootless⟩,
    Extension.allEach_append ready.each ?_⟩, ⟨List.prefix_rfl, fun _ h => h⟩, ?_,
    fun b mem => .inl mem, ?_, ?_, ?_⟩
  · rw [Extension.AllEach]
    exact ⟨each, trivial⟩
  · intro q p slot found anchor
    rw [only found] at anchor
    cases anchor
  · intro q p found w mem
    rw [only found] at mem
    cases mem
  · unfold Continues
    dsimp only
    rw [List.length_append, List.length_singleton, List.range_succ, List.reverse_append]
    rfl
  · intro root
    rw [Path.isRoot_iff.mpr root] at inner
    cases inner

theorem component_each (proper : registry.Proper strict P) {tag : String}
    {attrs : List (String × String)} {subtree : Subtree}
    (found : component registry tag attrs = .ok subtree) :
    ∃ t, subtree = .template t ∧ t.Each P := by
  unfold component at found
  split at found
  · cases found
  · case h_2 t registered =>
    split at found
    · cases found
    · cases found
      exact ⟨t, rfl, proper.components tag t registered⟩

/-- A subtree is analysed apart from what was found so far. -/
theorem isolated_gives {analysis : Analysis Plan} {Q : Template → Prop}
    (h : ∀ id, Gives analysis { nextId := id } fun plan inner => Q (template plan inner)) :
    Gives (isolated analysis) d fun t d' => Q t ∧ ∃ id, d' = { d with nextId := id } := by
  unfold isolated
  refine gives_bind (gives_get (gives_bind (gives_lift ?_)))
  rintro ⟨plan, inner⟩ run
  exact gives_bind (gives_modify (gives_pure ⟨h _ _ _ run, _, rfl⟩))

theorem conditional_each (proper : registry.Proper strict (Template.Fine strict narrow))
    (tag : String) (attrs : List (String × String)) {kids : List Markup}
    {children : Analysis (List Plan)} (source : String)
    (below : ∀ {d₁}, Ready strict narrow d₁ →
      Gives children d₁ fun plans d₂ => DrawnAll strict narrow kids .root 0 d₁ d₂ plans)
    (small : narrow → (Markup.element tag attrs kids).Narrow) :
    Gives (conditional registry tag attrs children source) d fun subtree d' =>
      subtree.Each (Template.Fine strict narrow) ∧ ∃ id, d' = { d with nextId := id } := by
  unfold conditional
  refine gives_bind (gives_lift fun condition _ => ?_)
  split
  · refine gives_bind (gives_lift fun body found => gives_pure ?_)
    obtain ⟨t, rfl, each⟩ := component_each proper found
    exact ⟨each, d.nextId, rfl⟩
  · split
    · exact gives_throw
    · refine gives_bind ((isolated_gives fun id => ?_).imp fun t d' made => gives_pure made)
      have ready : Ready strict narrow { nextId := id } := ⟨.empty strict id, trivial⟩
      exact (plainElement_drawn proper tag attrs ready below).imp fun plan inner drawn =>
        (drawn attrs).fine small

theorem structural?_registered {attrs : List (String × String)} {name value : String}
    {directive : StructuralDirective}
    (found : structural? registry attrs = some ((name, value), directive)) :
    ∃ key, registry.directive? key = some (.structural directive) := by
  induction attrs with
  | nil => cases found
  | cons attr rest ih =>
    obtain ⟨other, content⟩ := attr
    unfold structural? at found
    split at found
    · case h_1 here =>
      cases found
      obtain ⟨key, _, here⟩ := Option.bind_eq_some_iff.mp here
      exact ⟨key, here⟩
    · exact ih found

/-- An element is left to be analysed, or an extension takes it over. -/
def Taken (strict narrow : Prop) (m : Markup) (path : Path) (d d' : Draft) : Option Plan → Prop
  | none => d' = d
  | some plan => Drawn strict narrow m path d d' plan

theorem extension?_drawn (proper : registry.Proper strict (Template.Fine strict narrow))
    (tag : String) (attrs : List (String × String)) {kids : List Markup}
    {children : Analysis (List Plan)} (ready : Ready strict narrow d)
    (below : ∀ {d₁}, Ready strict narrow d₁ →
      Gives children d₁ fun plans d₂ => DrawnAll strict narrow kids .root 0 d₁ d₂ plans)
    (small : narrow → ∀ attrs, (Markup.element tag attrs kids).Narrow) :
    Gives (extension? registry tag attrs children path) d fun plan? d' =>
      Taken strict narrow (.element tag attrs kids) path d d' plan? := by
  have mounted {name : String} {subtree : Subtree} {id : TemplateId} (inner : path.isRoot = false)
      (each : subtree.Each (Template.Fine strict narrow)) :
      Gives (mount path name subtree) { d with nextId := id } fun plan d' =>
        Gives (pure (some plan)) d' fun plan? d' =>
          Taken strict narrow (.element tag attrs kids) path d d' plan? := by
    have tidy := ready.tidy
    have ready' : Ready strict narrow { d with nextId := id } :=
      ⟨⟨tidy.builtin, tidy.reach, tidy.distinct, tidy.nodup, tidy.rootless⟩, ready.each⟩
    refine (mount_drawn (.element tag attrs kids) name ready' inner each).imp fun plan d' drawn => gives_pure ?_
    exact ⟨drawn.ready, ⟨drawn.grows.anchors, drawn.grows.events⟩, drawn.marked, drawn.bound,
      drawn.hears, drawn.holes, drawn.root⟩
  unfold extension?
  split
  · case h_1 name value directive found =>
    dsimp only
    split
    · exact gives_bind gives_throw
    · case isFalse inner =>
      have inner : path.isRoot = false := Bool.eq_false_iff.mpr inner
      cases directive with
      | template t =>
        obtain ⟨key, registered⟩ := structural?_registered found
        have each : (Subtree.template t).Each (Template.Fine strict narrow) :=
          proper.structural key t registered
        exact gives_bind (gives_pure (gives_bind (mounted inner each)))
      | conditional =>
        refine gives_bind ((conditional_each proper tag _ value below fun h => small h _).imp ?_)
        rintro subtree d₁ ⟨each, id, rfl⟩
        exact gives_bind (mounted inner each)
  · split
    · dsimp only
      split
      · exact gives_bind gives_throw
      · case isFalse inner =>
        refine gives_bind (gives_lift fun subtree found => ?_)
        obtain ⟨t, rfl, each⟩ := component_each proper found
        exact gives_bind (mounted (Bool.eq_false_iff.mpr inner) each)
    · exact gives_pure rfl

mutual

theorem node_drawn (proper : registry.Proper strict (Template.Fine strict narrow)) :
    ∀ (m : Markup) (path : Path) {d : Draft}, Ready strict narrow d → (narrow → m.Narrow) →
      Gives (node registry m path) d fun plan? d' => Outcome strict narrow m path d d' plan?
  | .comment content, path, d, ready, _ =>
    gives_pure ⟨rfl, .leaf ready (.refl d) rfl rfl rfl (.inl ⟨rfl, rfl⟩)⟩
  | .text content, path, d, ready, _ => text_drawn content ready
  | .element tag attrs children, path, d, ready, small => by
    have each (h : narrow) : ∀ kid ∈ children, kid.Narrow := (small h).children.2
    unfold node
    refine gives_bind ((extension?_drawn proper tag attrs ready
      (fun ready => nodes_drawn proper children .root 0 ready each)
      fun h attrs => .element (small h).children.1 (each h)).imp ?_)
    rintro (_ | plan) d₁ taken
    · rw [show d₁ = d from taken]
      refine gives_bind ((plainElement_drawn proper tag attrs ready
        fun ready => nodes_drawn proper children path 0 ready each).imp fun plan d₂ drawn => ?_)
      exact gives_pure ⟨rfl, drawn attrs⟩
    · exact gives_pure ⟨rfl, taken⟩

theorem nodes_drawn (proper : registry.Proper strict (Template.Fine strict narrow)) :
    ∀ (kids : List Markup) (path : Path) (index : Nat) {d : Draft}, Ready strict narrow d →
      (narrow → ∀ kid ∈ kids, kid.Narrow) →
      Gives (nodes registry kids path index) d fun plans d' =>
        DrawnAll strict narrow kids path index d d' plans
  | [], path, index, d, ready, _ => gives_pure (.nil ready)
  | kid :: rest, path, index, d, ready, small => by
    unfold nodes
    refine gives_bind ((node_drawn proper kid (path.child index) ready
      fun h => small h kid List.mem_cons_self).imp ?_)
    have others {d₁ : Draft} (ready : Ready strict narrow d₁) :=
      nodes_drawn proper rest path (index + 1) ready fun h k mem =>
        small h k (List.mem_cons_of_mem _ mem)
    rintro (_ | plan) d₁ ⟨solid, drawn⟩
    · rw [show d₁ = d from drawn]
      exact gives_bind ((others ready).imp fun plans d₂ all => gives_pure (.cons_blank solid all))
    · exact gives_bind ((others drawn.ready).imp fun plans d₂ all =>
        gives_pure (.cons solid drawn all))

end

/-- The root is built in any case, also for blank text. -/
theorem root_drawn (proper : registry.Proper strict (Template.Fine strict narrow)) {m : Markup}
    (small : narrow → m.Narrow) (id : TemplateId) :
    Gives (node registry m .root) { nextId := id } fun plan? d =>
      Drawn strict narrow m .root { nextId := id } d (plan?.getD (.text "" none)) := by
  have ready : Ready strict narrow { nextId := id } := ⟨.empty strict id, trivial⟩
  refine (node_drawn proper m .root ready small).imp ?_
  rintro (_ | plan) d ⟨_, drawn⟩
  · rw [show d = _ from drawn]
    exact .leaf ready (.refl _) rfl rfl rfl (.inl ⟨rfl, rfl⟩)
  · exact drawn

end Analysis

/-! ## Templates made by compiling -/

/-- The directives that every registry starts with, under their own names. -/
inductive Directive.BuiltIn : String → Directive → Prop
  | conditional : BuiltIn Condition.directiveName (.structural .conditional)
  | toggle : BuiltIn "show" (.onElement .toggle)

theorem Registry.standard_builtIn {name : String} {d : Directive}
    (found : Registry.standard.directive? name = some d) : Directive.BuiltIn name d := by
  have mem := Table.mem_of_mem_ofEntries (mem_of_lookup found)
  simp only [List.mem_cons, Prod.mk.injEq, List.not_mem_nil, or_false] at mem
  rcases mem with ⟨rfl, rfl⟩ | ⟨rfl, rfl⟩
  · exact .conditional
  · exact .toggle

theorem Registry.standard_proper (P : Template → Prop) : Registry.standard.Proper True P where
  elements := fun _ _ _ found => by
    cases Registry.standard_builtIn found
    exact ⟨rfl, rfl⟩
  structural := fun _ _ found => by cases Registry.standard_builtIn found
  components := fun _ _ found => by cases found

namespace Template

variable {strict narrow : Prop}

/-- A compiled template is what the walk from the root has drafted. -/
theorem compile_walk {registry : Registry} {m : Markup} {id next : TemplateId} {t : Template}
    (run : compile registry id m = .ok (t, next)) : ∃ plan? d,
      (Analysis.node registry m .root).run { nextId := id } = .ok (plan?, d) ∧
        t = Analysis.template (plan?.getD (.text "" none)) d := by
  unfold compile at run
  cases walk : (Analysis.node registry m .root).run { nextId := id } with
  | error e => rw [walk] at run; cases run
  | ok result =>
    rw [walk] at run
    cases run
    exact ⟨_, _, rfl, rfl⟩

theorem compile_fine {registry : Registry} {m : Markup} {id next : TemplateId} {t : Template}
    (proper : registry.Proper strict (Fine strict narrow)) (small : narrow → m.Narrow)
    (run : compile registry id m = .ok (t, next)) : t.Each (Fine strict narrow) ∧ t.Traced m := by
  obtain ⟨plan?, d, walk, rfl⟩ := compile_walk run
  have drawn := Analysis.root_drawn proper small id _ _ walk
  exact ⟨drawn.fine small, drawn.traced⟩

/-- The templates that are compiled from such markup, with registries that have only admitted
directives and templates of this kind. -/
inductive Compiled (admitted : String → Directive → Prop) (markup : Markup → Prop) :
    Template → Prop
  | intro {registry : Registry} {id next : TemplateId} {m : Markup} {t : Template}
      (directives : ∀ name d, registry.directive? name = some d → admitted name d)
      (structural : ∀ name t, registry.directive? name = some (.structural (.template t)) →
        Compiled admitted markup t)
      (components : ∀ tag t, registry.component? tag = some t → Compiled admitted markup t)
      (source : markup m) (run : compile registry id m = .ok (t, next)) :
      Compiled admitted markup t

theorem Compiled.each {admitted : String → Directive → Prop} {markup : Markup → Prop}
    {t : Template} (h : t.Compiled admitted markup)
    (builtin : strict → ∀ name d, admitted name (.onElement d) → name = "show" ∧ d = .toggle)
    (small : ∀ m, markup m → narrow → m.Narrow) : t.Each (Fine strict narrow) := by
  induction h with
  | intro directives _ _ source run structural components =>
    have proper : Registry.Proper strict (Fine strict narrow) _ :=
      ⟨fun hs name d found => builtin hs name d (directives name _ found), structural, components⟩
    exact (compile_fine proper (small _ source) run).1

theorem Compiled.mono {admitted : String → Directive → Prop} {markup markup' : Markup → Prop}
    {t : Template} (h : t.Compiled admitted markup) (wider : ∀ m, markup m → markup' m) :
    t.Compiled admitted markup' := by
  induction h with
  | intro directives _ _ source run structural components =>
    exact .intro directives structural components (wider _ source) run

end Template

mutual

theorem Subtree.Each.mono {P Q : Template → Prop} (weaker : ∀ t, P t → Q t) :
    ∀ {subtree : Subtree}, subtree.Each P → subtree.Each Q
  | .template t, h => by
    rw [Subtree.Each] at h ⊢
    exact Template.Each.mono weaker h
  | .conditional _ (.template t), h => by
    rw [Subtree.Each] at h ⊢
    exact Template.Each.mono weaker h
  | .conditional _ (.conditional _ _), h => by
    rw [Subtree.Each] at h
    exact h.elim

theorem Template.Each.mono {P Q : Template → Prop} (weaker : ∀ t, P t → Q t) :
    ∀ {t : Template}, t.Each P → t.Each Q
  | ⟨_, _, _, _, extensions, _, _⟩, h => by
    rw [Template.Each] at h ⊢
    exact ⟨weaker _ h.1, Extension.AllEach.mono weaker h.2⟩

theorem Extension.AllEach.mono {P Q : Template → Prop} (weaker : ∀ t, P t → Q t) :
    ∀ {extensions : List Extension}, Extension.AllEach P extensions →
      Extension.AllEach Q extensions
  | [], _ => by rw [Extension.AllEach]; trivial
  | ⟨_, _, subtree⟩ :: rest, h => by
    rw [Extension.AllEach] at h ⊢
    exact ⟨Subtree.Each.mono weaker h.1, Extension.AllEach.mono weaker h.2⟩

end

end LiveTemplate
