import LiveTemplate.Proofs.Frames
import LiveTemplate.Proofs.Plans

/-!
# LiveTemplate.Proofs.Building

What building a plan does to a document. Every position of the plan gets a new node, the nodes that
were there before stay as they are, and the anchors and extension points are noted with the nodes
of their positions. A handler that is missing stops the building and leaves the old nodes alone.

  * `Ends`             a computation ends in one of two ways
  * `Document.Grows`   old nodes are kept
  * `Plan.Laid`        each position of a plan has its node in the document
  * `build_ends`       what building gives
-/

namespace LiveTemplate

/-- A computation ends with a result or with an error, in a state of which this holds. -/
def Ends {ε σ α : Type} (m : EStateM ε σ α) (s : σ) (ok : α → σ → Prop) (failed : σ → Prop) :
    Prop :=
  match m s with
  | .ok a t => ok a t
  | .error _ t => failed t

namespace Ends

variable {ε σ α β : Type} {m : EStateM ε σ α} {s : σ} {failed : σ → Prop}

theorem bind {f : α → EStateM ε σ β} {ok : β → σ → Prop}
    (h : Ends m s (fun a t => Ends (f a) t ok failed) failed) : Ends (m >>= f) s ok failed := by
  unfold Ends at h ⊢
  change match EStateM.bind m f s with | .ok a t => ok a t | .error _ t => failed t
  unfold EStateM.bind
  cases run : m s with
  | ok a t => rw [run] at h; exact h
  | error e t => rw [run] at h; exact h

theorem imp {ok ok' : α → σ → Prop} {failed' : σ → Prop} (h : Ends m s ok failed)
    (good : ∀ a t, ok a t → ok' a t) (bad : ∀ t, failed t → failed' t) :
    Ends m s ok' failed' := by
  unfold Ends at h ⊢
  cases run : m s with
  | ok a t => rw [run] at h; exact good a t h
  | error e t => rw [run] at h; exact bad t h

theorem of_run {ok : α → σ → Prop} (good : ∀ a t, m s = .ok a t → ok a t)
    (bad : ∀ e t, m s = .error e t → failed t) : Ends m s ok failed := by
  unfold Ends
  cases run : m s with
  | ok a t => exact good a t run
  | error e t => exact bad e t run

theorem of_ok {ok : α → σ → Prop} {a : α} {t : σ} (run : m s = .ok a t) (h : ok a t) :
    Ends m s ok failed := by
  unfold Ends
  rwa [run]

theorem of_error {ok : α → σ → Prop} {e : ε} {t : σ} (run : m s = .error e t) (h : failed t) :
    Ends m s ok failed := by
  unfold Ends
  rwa [run]

theorem ok {good : α → σ → Prop} {a : α} {t : σ} (h : Ends m s good failed)
    (run : m s = .ok a t) : good a t := by
  unfold Ends at h
  rwa [run] at h

theorem error {good : α → σ → Prop} {e : ε} {t : σ} (h : Ends m s good failed)
    (run : m s = .error e t) : failed t := by
  unfold Ends at h
  rwa [run] at h

theorem get {ok : σ → σ → Prop} (h : ok s s) :
    Ends (MonadState.get : EStateM ε σ σ) s ok failed := h

/-- A loop keeps what each of its turns keeps; the invariant speaks of the turns to come. -/
theorem loop {body : α → PUnit → EStateM ε σ (ForInStep PUnit)} (inv : List α → σ → Prop)
    (turn : ∀ a rest s, inv (a :: rest) s →
      Ends (body a ⟨⟩) s (fun r t => r = .yield ⟨⟩ ∧ inv rest t) failed)
    (xs : List α) (s : σ) (start : inv xs s) :
    Ends (forIn xs PUnit.unit body) s (fun _ t => inv [] t) failed := by
  induction xs generalizing s with
  | nil => exact start
  | cons a rest ih =>
    rw [List.forIn_cons]
    refine Ends.bind ((turn a rest s start).imp ?_ fun _ h => h)
    rintro r t ⟨rfl, h⟩
    exact ih t h

end Ends

namespace Document

/-- Nodes are added; those that were there are kept, but for some. -/
structure Grows (but : NodeId → Prop) (doc doc' : Document) : Prop where
  kept : ∀ x node, ¬but x → doc.get? x = some node → doc'.get? x = some node
  sound : doc'.Sound
  hearing : doc'.hearing = doc.hearing

/-- No exceptions. -/
abbrev nowhere : NodeId → Prop := fun _ => False

theorem Grows.refl {but : NodeId → Prop} {doc : Document} (h : doc.Sound) : doc.Grows but doc :=
  ⟨fun _ _ _ found => found, h, rfl⟩

theorem Grows.trans {but : NodeId → Prop} {a b c : Document} (h : a.Grows but b)
    (k : b.Grows but c) : a.Grows but c :=
  ⟨fun x node out found => k.kept x node out (h.kept x node out found), k.sound,
    k.hearing.trans h.hearing⟩

theorem Grows.dead {but : NodeId → Prop} {a b : Document} (h : a.Grows but b) {x : NodeId}
    (out : ¬but x) (gone : b.get? x = none) : a.get? x = none := by
  by_contra live
  obtain ⟨node, found⟩ := Option.ne_none_iff_exists'.mp live
  rw [h.kept x node out found] at gone
  cases gone

/-- Exceptions that were not there before are none. -/
theorem Grows.anywhere {but : NodeId → Prop} {a b c : Document} (h : a.Grows nowhere b)
    (k : b.Grows but c) (new : ∀ x, but x → a.get? x = none) : a.Grows nowhere c := by
  refine ⟨fun x node _ found => ?_, k.sound, k.hearing.trans h.hearing⟩
  refine k.kept x node (fun out => ?_) (h.kept x node id found)
  rw [new x out] at found
  cases found

/-- There is a node that was not there. -/
def Gains (doc doc' : Document) : Prop := ∃ x, doc.get? x = none ∧ doc'.get? x ≠ none

/-- One node more. -/
structure Adds (doc doc' : Document) (id : NodeId) (node : Node) : Prop where
  fresh : doc.get? id = none
  get : ∀ x, doc'.get? x = if x = id then some node else doc.get? x
  sound : doc'.Sound
  hearing : doc'.hearing = doc.hearing

namespace Adds

variable {doc doc' : Document} {id : NodeId} {node : Node}

theorem self (h : doc.Adds doc' id node) : doc'.get? id = some node := by
  rw [h.get, if_pos rfl]

theorem ne (h : doc.Adds doc' id node) {x : NodeId} {n : Node} (hx : doc.get? x = some n) :
    x ≠ id := by
  rintro rfl
  rw [h.fresh] at hx
  cases hx

theorem grows (h : doc.Adds doc' id node) : doc.Grows nowhere doc' := by
  refine ⟨fun x n _ found => ?_, h.sound, h.hearing⟩
  rw [h.get, if_neg (h.ne found)]
  exact found

theorem gains (h : doc.Adds doc' id node) : doc.Gains doc' :=
  ⟨id, h.fresh, by rw [h.self]; exact Option.some_ne_none node⟩

/-- Only the new node came to life. -/
theorem only (h : doc.Adds doc' id node) {x : NodeId} (live : doc'.get? x ≠ none) :
    doc.get? x ≠ none ∨ x = id := by
  rw [h.get] at live
  split at live
  · exact .inr ‹_›
  · exact .inl live

/-- The new node is written to. -/
theorem write (h : doc.Adds doc' id node) {doc'' : Document} {f : Node → Node}
    (get : ∀ x, doc''.get? x = if x = id then (doc'.get? x).map f else doc'.get? x)
    (sound : doc''.Sound) (hearing : doc''.hearing = doc'.hearing) :
    doc.Adds doc'' id (f node) := by
  refine ⟨h.fresh, fun x => ?_, sound, hearing.trans h.hearing⟩
  rw [get, h.get]
  split <;> rfl

end Adds

theorem adds_insert {doc : Document} (h : doc.Sound) (content : Content)
    (names : DistinctNames content) (m : Mutation) :
    doc.Adds ((doc.insert content).2.record m) (doc.insert content).1 { content } :=
  ⟨get?_insert_fst h content, get?_insert h content, (h.insert names).record m, rfl⟩

end Document

namespace Plan

open Document

/-- The handlers of a node are those that its plan wires, each with the function that the scope
had under its name. -/
structure Wired (scope : Scope) (p : Plan) (handlers : Table Function) : Prop where
  all : ∀ w ∈ p.wirings, ∃ f, handlers.lookup w.event = some f
  only : ∀ event f, handlers.lookup event = some f →
    ∃ w ∈ p.wirings, w.event = event ∧ scope.read w.handler = .function f

/-- The nodes of the children of the part at a position. -/
def kidPlaces (p : Plan) (place : List Nat → NodeId) (q : List Nat) : List NodeId :=
  (List.range p.kids.length).map fun i => place (q ++ [i])

/-- A node as it is built. -/
structure Made (scope : Scope) (p : Plan) (children : List NodeId) (node : Node) : Prop where
  content : node.content = p.content
  children : node.children = children
  wired : p.Wired scope node.handlers
  data : node.handlerData = []

/-- Every position has a node of its own. -/
structure Laid (scope : Scope) (doc : Document) (plan : Plan) (place : List Nat → NodeId) :
    Prop where
  node : ∀ q p, plan.at? q = some p →
    ∃ node, doc.get? (place q) = some node ∧ p.Made scope (p.kidPlaces place q) node
  inj : ∀ q r p p', plan.at? q = some p → plan.at? r = some p' → place q = place r → q = r

theorem Made.reparent {scope : Scope} {p : Plan} {children : List NodeId} {node : Node}
    (h : p.Made scope children node) (parent : Option NodeId) :
    p.Made scope children { node with parent } :=
  ⟨h.content, h.children, h.wired, h.data⟩

theorem Laid.live {scope : Scope} {doc : Document} {plan : Plan} {place : List Nat → NodeId}
    (h : plan.Laid scope doc place) {q : List Nat} {p : Plan} (found : plan.at? q = some p) :
    doc.get? (place q) ≠ none := by
  obtain ⟨node, live, _⟩ := h.node q p found
  rw [live]
  exact Option.some_ne_none node

/-- Only the parents of nodes change. -/
theorem Laid.frame {scope : Scope} {doc doc' : Document} {plan : Plan} {place : List Nat → NodeId}
    (h : plan.Laid scope doc place)
    (same : ∀ q p node, plan.at? q = some p → doc.get? (place q) = some node →
      ∃ parent, doc'.get? (place q) = some { node with parent }) : plan.Laid scope doc' place := by
  refine ⟨fun q p found => ?_, h.inj⟩
  obtain ⟨node, live, made⟩ := h.node q p found
  obtain ⟨parent, live'⟩ := same q p node found live
  exact ⟨_, live', made.reparent parent⟩

end Plan

/-- A site whose document has one node more, with the same notes. -/
structure Site.Adds (site site' : Site) (id : NodeId) (node : Node) : Prop where
  document : site.document.Adds site'.document id node
  anchored : site'.anchored = site.anchored
  placeholders : site'.placeholders = site.placeholders

/-- What building a plan comes to. -/
structure Plan.Built (scope : Scope) (plan : Plan) (site site' : Site)
    (place : List Nat → NodeId) : Prop where
  grows : site.document.Grows Document.nowhere site'.document
  laid : plan.Laid scope site'.document place
  fresh : ∀ q p, plan.at? q = some p → site.document.get? (place q) = none
  only : ∀ x, site'.document.get? x ≠ none →
    site.document.get? x ≠ none ∨ ∃ q p, plan.at? q = some p ∧ x = place q
  detached : site'.document.parent? (place []) = none
  anchored : site'.anchored = plan.marks.map (fun m => (m.1, place m.2)) ++ site.anchored
  placeholders :
    site'.placeholders = plan.holes.map (fun m => (m.1, place m.2)) ++ site.placeholders

/-- What building the children of a node comes to. -/
structure Plan.BuiltKids (scope : Scope) (parent : NodeId) (top : Node) (kids : List Plan)
    (site site' : Site) (place : List Nat → NodeId) : Prop where
  grows : site.document.Grows (· = parent) site'.document
  top : site'.document.get? parent =
    some { top with
      children := top.children ++ (List.range kids.length).map fun i => place [i] }
  laid : ∀ i (k : Plan), kids[i]? = some k → k.Laid scope site'.document fun q => place (i :: q)
  apart : ∀ i j (k l : Plan) q r p p', kids[i]? = some k → kids[j]? = some l → k.at? q = some p →
    l.at? r = some p' → place (i :: q) = place (j :: r) → i = j
  fresh : ∀ i (k : Plan) q p, kids[i]? = some k → k.at? q = some p →
    site.document.get? (place (i :: q)) = none
  only : ∀ x, site'.document.get? x ≠ none → site.document.get? x ≠ none ∨
    ∃ (i : Nat) (k : Plan) (q : List Nat) (p : Plan),
      kids[i]? = some k ∧ k.at? q = some p ∧ x = place (i :: q)
  anchored : site'.anchored =
    (Plan.collectKids Plan.anchor? kids).map (fun m => (m.1, place m.2)) ++ site.anchored
  placeholders : site'.placeholders =
    (Plan.collectKids Plan.hole? kids).map (fun m => (m.1, place m.2)) ++ site.placeholders

namespace Plan

open Document

/-! ## Building one node -/

theorem attributes_ends (id : NodeId) {start site : Site} (attributes : List (String × String))
    {c : Content} (adds : start.Adds site id { content := c }) :
    Ends (forIn attributes PUnit.unit fun x _ =>
        match x with
        | (name, value) => do
          write (·.setAttribute id name value)
          pure (ForInStep.yield PUnit.unit)) site
      (fun _ site' => start.Adds site' id
        { content := attributes.foldl (fun c (name, value) => c.withAttribute name value) c })
      (fun _ => False) := by
  let final := attributes.foldl (fun c (name, value) => c.withAttribute name value) c
  let inv (rest : List (String × String)) (site' : Site) : Prop :=
    ∃ c', start.Adds site' id { content := c' } ∧
      rest.foldl (fun c (name, value) => c.withAttribute name value) c' = final
  refine (Ends.loop inv ?_ attributes site ⟨c, adds, rfl⟩).imp ?_ fun _ h => h
  · rintro ⟨name, value⟩ rest site' ⟨c', adds, same⟩
    refine ⟨rfl, c'.withAttribute name value, ⟨?_, adds.anchored, adds.placeholders⟩, same⟩
    exact adds.document.write (get?_setAttribute _ id name value)
      (adds.document.sound.setAttribute id name value) (hearing_setAttribute _ id name value)
  · rintro _ site' ⟨c', adds, same⟩
    rw [List.foldl_nil] at same
    rwa [same] at adds

theorem wire_ends (scope : Scope) (id : NodeId) {start site : Site} {c : Content}
    {table : Table Function} (w : Wiring)
    (adds : start.Adds site id { content := c, handlers := table }) :
    Ends (wire scope id w) site
      (fun _ site' => ∃ f, scope.read w.handler = .function f ∧
        start.Adds site' id { content := c, handlers := table.insert w.event f })
      (fun site' => start.document.Grows nowhere site'.document ∧
        start.document.Gains site'.document) := by
  unfold wire
  split
  · rename_i f found
    refine ⟨f, found, ⟨?_, adds.anchored, adds.placeholders⟩⟩
    exact adds.document.write (get?_setHandler _ id w.event f)
      (adds.document.sound.setHandler id w.event f) (hearing_setHandler _ id w.event f)
  · exact ⟨adds.document.grows, adds.document.gains⟩

theorem wires_ends (scope : Scope) (id : NodeId) {start site : Site} (wirings : List Wiring)
    {c : Content} (adds : start.Adds site id { content := c }) :
    Ends (forIn wirings PUnit.unit fun w _ => do
        wire scope id w
        pure (ForInStep.yield PUnit.unit)) site
      (fun _ site' => ∃ table, start.Adds site' id { content := c, handlers := table } ∧
        (∀ w ∈ wirings, ∃ f, table.lookup w.event = some f) ∧
        ∀ event f, table.lookup event = some f →
          ∃ w ∈ wirings, w.event = event ∧ scope.read w.handler = .function f)
      (fun site' => start.document.Grows nowhere site'.document ∧
        start.document.Gains site'.document) := by
  let inv (rest : List Wiring) (site' : Site) : Prop :=
    (∀ w ∈ rest, w ∈ wirings) ∧
    ∃ table, start.Adds site' id { content := c, handlers := table } ∧
      (∀ w ∈ wirings, w ∈ rest ∨ ∃ f, table.lookup w.event = some f) ∧
      ∀ event f, table.lookup event = some f →
        ∃ w ∈ wirings, w.event = event ∧ scope.read w.handler = .function f
  refine (Ends.loop inv ?_ wirings site
    ⟨fun _ h => h, [], adds, fun w hw => .inl hw, fun _ _ h => by cases h⟩).imp ?_ fun _ h => h
  · rintro w rest site' ⟨sub, table, adds, all, only⟩
    refine Ends.bind ((wire_ends scope id w adds).imp ?_ fun _ h => h)
    rintro _ site'' ⟨f, found, adds'⟩
    refine ⟨rfl, fun v hv => sub v (List.mem_cons_of_mem _ hv), _, adds', ?_, ?_⟩
    · intro v hv
      by_cases same : v.event = w.event
      · exact .inr ⟨f, by rw [same, Table.lookup_insert_self]⟩
      · rw [Table.lookup_insert_of_ne same]
        refine (all v hv).imp_left fun mem => ?_
        exact (List.mem_cons.mp mem).resolve_left fun e => same (by rw [e])
    · intro event g found'
      by_cases same : event = w.event
      · subst same
        rw [Table.lookup_insert_self] at found'
        cases found'
        exact ⟨w, sub w List.mem_cons_self, rfl, found⟩
      · rw [Table.lookup_insert_of_ne same] at found'
        exact only event g found'
  · rintro _ site' ⟨_, table, adds, all, only⟩
    exact ⟨table, adds, fun w hw => (all w hw).resolve_left List.not_mem_nil, only⟩

theorem collect_leaf {key : Plan → Option Nat} {plan : Plan} (leaf : plan.kids = []) :
    plan.collect key = (key plan).toList.map (·, []) := by
  cases plan with
  | element tag attributes handlers kids anchor =>
    cases (show kids = [] from leaf)
    exact List.append_nil _
  | _ => rfl

/-- A plan of a single node. -/
theorem built_leaf (scope : Scope) {plan : Plan} (leaf : plan.kids = [])
    (bare : plan.wirings = []) {site site' : Site} {id : NodeId}
    (adds : site.document.Adds site'.document id { content := plan.content })
    (anchored : site'.anchored = plan.anchor?.toList.map (·, id) ++ site.anchored)
    (placeholders : site'.placeholders = plan.hole?.toList.map (·, id) ++ site.placeholders) :
    plan.Built scope site site' fun _ => id := by
  have only {q : List Nat} {p : Plan} (h : plan.at? q = some p) : q = [] ∧ p = plan := by
    cases q with
    | nil => rw [at?_nil] at h; cases h; exact ⟨rfl, rfl⟩
    | cons i r => rw [at?_cons, leaf] at h; cases h
  refine ⟨adds.grows, ⟨?_, ?_⟩, fun _ _ _ => adds.fresh, fun x live => ?_, ?_, ?_, ?_⟩
  · intro q p h
    obtain ⟨rfl, rfl⟩ := only h
    refine ⟨_, adds.self, rfl, ?_, ⟨?_, ?_⟩, rfl⟩
    · rw [kidPlaces, leaf]; rfl
    · rw [bare]; exact fun _ h => (List.not_mem_nil h).elim
    · exact fun _ _ h => by cases h
  · intro q r p p' h h' _
    rw [(only h).1, (only h').1]
  · exact (adds.only live).imp_right fun same => ⟨[], plan, at?_nil plan, same⟩
  · rw [parent?, adds.self]; rfl
  · rw [anchored, marks, collect_leaf leaf, List.map_map]; rfl
  · rw [placeholders, holes, collect_leaf leaf, List.map_map]; rfl

theorem get?_appendChild {doc : Document} {parent child : NodeId} {top kid : Node}
    (hp : doc.get? parent = some top) (hc : doc.get? child = some kid)
    (detached : doc.parent? child = none) (x : NodeId) :
    (doc.appendChild parent child).get? x =
      (doc.get? x).map fun n =>
        { n with
          parent := if x = child then some parent else n.parent
          children := if x = parent then n.children ++ [child] else n.children } := by
  unfold appendChild
  rw [if_pos (by rw [contains_iff.mpr ⟨top, hp⟩, contains_iff.mpr ⟨kid, hc⟩]; rfl),
    detach_of_detached detached]
  exact get?_attach doc parent child x

/-- The positions under the children of a node, from those under the first child and those under
the others. -/
def joinPlaces (first rest : List Nat → NodeId) : List Nat → NodeId
  | 0 :: q => first q
  | (i + 1) :: q => rest (i :: q)
  | [] => first []

theorem map_joinPlaces (key : Plan → Option Nat) (first rest : List Nat → NodeId) (kid : Plan)
    (kids : List Plan) :
    (collectKids key (kid :: kids)).map (fun m => (m.1, joinPlaces first rest m.2)) =
      (collectKids key kids).map (fun m => (m.1, rest m.2)) ++
        (kid.collect key).map fun m => (m.1, first m.2) := by
  rw [collectKids, List.map_append, List.map_map, List.map_map]
  congr 1
  refine List.map_congr_left ?_
  rintro ⟨k, q⟩ mem
  obtain ⟨i, r, p, rfl, _⟩ := mem_collectKids.mp mem
  rfl

/-- The first child is built and attached, then the others are. -/
theorem BuiltKids.cons {scope : Scope} {parent : NodeId} {top : Node} {kid : Plan}
    {kids : List Plan} {site site₁ site₂ site₃ : Site} {first rest : List Nat → NodeId}
    (hp : site.document.get? parent = some top)
    (built : kid.Built scope site site₁ first)
    (attached : site₂ = { site₁ with document := site₁.document.appendChild parent (first []) })
    (others : BuiltKids scope parent { top with children := top.children ++ [first []] } kids
      site₂ site₃ rest) :
    BuiltKids scope parent top (kid :: kids) site site₃ (joinPlaces first rest) := by
  have hp₁ := built.grows.kept parent top id hp
  obtain ⟨self, live, _⟩ := built.laid.node [] kid (at?_nil kid)
  have get₂ := get?_appendChild hp₁ live built.detached
  have notes : site₂.anchored = site₁.anchored ∧ site₂.placeholders = site₁.placeholders := by
    rw [attached]; exact ⟨rfl, rfl⟩
  -- What stands outside `parent` gets a parent at most.
  have outside : ∀ x n, x ≠ parent → site₁.document.get? x = some n →
      ∃ par, site₃.document.get? x = some { n with parent := par } := by
    intro x n out found
    refine ⟨if x = first [] then some parent else n.parent, others.grows.kept x _ out ?_⟩
    rw [attached, get₂, found, Option.map_some, if_neg out]
  have grows : site.document.Grows (· = parent) site₂.document := by
    rw [attached]
    refine ⟨fun x n out found => ?_, built.grows.sound.appendChild parent (first []), ?_⟩
    · have other : x ≠ first [] := by
        rintro rfl
        rw [built.fresh [] kid (at?_nil kid)] at found
        cases found
      rw [get₂, built.grows.kept x n id found, Option.map_some, if_neg out, if_neg other]
    · rw [hearing_appendChild, built.grows.hearing]
  have apart {q : List Nat} {p : Plan} (h : kid.at? q = some p) : first q ≠ parent := by
    intro same
    have new := built.fresh q p h
    rw [same, hp] at new
    cases new
  have early {q : List Nat} {p : Plan} (h : kid.at? q = some p) :
      site₂.document.get? (first q) ≠ none := by
    obtain ⟨n, found, _⟩ := built.laid.node q p h
    rw [attached, get₂, found]
    exact Option.some_ne_none _
  refine ⟨grows.trans others.grows, ?_, ?_, ?_, ?_, fun x live => ?_, ?_, ?_⟩
  · rw [others.top, List.length_cons, List.range_succ_eq_map, List.map_cons, List.map_map,
      List.append_assoc]
    rfl
  · intro i k h
    cases i with
    | zero =>
      cases h
      refine built.laid.frame fun q p n found live => ?_
      exact outside _ n (apart found) live
    | succ i => exact others.laid i k h
  · intro i j k l q r p p' hk hl hq hr same
    match i, j with
    | 0, 0 => rfl
    | 0, j + 1 =>
      cases hk
      change first q = rest (j :: r) at same
      exact absurd (same ▸ others.fresh j l r p' hl hr) (early hq)
    | i + 1, 0 =>
      cases hl
      change rest (i :: q) = first r at same
      exact absurd (same ▸ others.fresh i k q p hk hq) (early hr)
    | i + 1, j + 1 => exact congrArg Nat.succ (others.apart i j k l q r p p' hk hl hq hr same)
  · intro i k q p hk hq
    cases i with
    | zero => cases hk; exact built.fresh q p hq
    | succ i =>
      have new := others.fresh i k q p hk hq
      have out : rest (i :: q) ≠ parent := by
        intro same
        rw [same, attached, get₂, hp₁] at new
        cases new
      exact grows.dead out new
  · rcases others.only x live with live | ⟨i, k, q, p, hk, hq, rfl⟩
    · rw [attached, get₂, ne_eq, Option.map_eq_none_iff] at live
      refine (built.only x live).imp_right ?_
      rintro ⟨q, p, found, rfl⟩
      exact ⟨0, kid, q, p, rfl, found, rfl⟩
    · exact .inr ⟨i + 1, k, q, p, hk, hq, rfl⟩
  · rw [others.anchored, notes.1, built.anchored, ← List.append_assoc]
    congr 1
    exact (map_joinPlaces anchor? first rest kid kids).symm
  · rw [others.placeholders, notes.2, built.placeholders, ← List.append_assoc]
    congr 1
    exact (map_joinPlaces hole? first rest kid kids).symm

/-- The positions in an element, from its node and the positions under its children. -/
def rootPlace (id : NodeId) (place : List Nat → NodeId) : List Nat → NodeId
  | [] => id
  | i :: q => place (i :: q)

theorem built_element {scope : Scope} {tag : String} {attributes : List (String × String)}
    {handlers : List Wiring} {kids : List Plan} {anchor : Option Nat} {site site₁ site₂ site₃ : Site}
    {id : NodeId} {table : Table Function} {place : List Nat → NodeId}
    (adds : site.Adds site₁ id
      { content := (element tag attributes handlers kids anchor).content, handlers := table })
    (wired : (element tag attributes handlers kids anchor).Wired scope table)
    (built : BuiltKids scope id
      { content := (element tag attributes handlers kids anchor).content, handlers := table } kids
      site₁ site₂ place)
    (document : site₃.document = site₂.document)
    (anchored : site₃.anchored = anchor.toList.map (·, id) ++ site₂.anchored)
    (placeholders : site₃.placeholders = site₂.placeholders) :
    (element tag attributes handlers kids anchor).Built scope site site₃ (rootPlace id place) := by
  have below {i : Nat} {q : List Nat} {p : Plan}
      (h : (element tag attributes handlers kids anchor).at? (i :: q) = some p) :
      ∃ k : Plan, kids[i]? = some k ∧ k.at? q = some p := by
    rw [at?_cons] at h
    exact Option.bind_eq_some_iff.mp h
  have notRoot {i : Nat} {q : List Nat} {k p : Plan} (hk : kids[i]? = some k)
      (hq : k.at? q = some p) : place (i :: q) ≠ id := by
    intro same
    have new := built.fresh i k q p hk hq
    rw [same, adds.document.self] at new
    cases new
  have notes (key : Plan → Option Nat) :
      (collectKids key kids).map (fun m => (m.1, rootPlace id place m.2)) =
        (collectKids key kids).map fun m => (m.1, place m.2) := by
    refine List.map_congr_left ?_
    rintro ⟨k, q⟩ mem
    obtain ⟨i, r, p, rfl, _⟩ := mem_collectKids.mp mem
    rfl
  refine ⟨?_, ⟨?_, ?_⟩, ?_, fun x live => ?_, ?_, ?_, ?_⟩
  · rw [document]
    exact adds.document.grows.anywhere built.grows fun x same => same ▸ adds.document.fresh
  · intro q p h
    rw [document]
    cases q with
    | nil =>
      rw [at?_nil] at h
      cases h
      exact ⟨_, built.top, rfl, rfl, wired, rfl⟩
    | cons i q =>
      obtain ⟨k, hk, hq⟩ := below h
      exact (built.laid i k hk).node q p hq
  · intro q r p p' hq hr same
    cases q with
    | nil =>
      cases r with
      | nil => rfl
      | cons j r =>
        obtain ⟨l, hl, hr⟩ := below hr
        exact absurd same.symm (notRoot hl hr)
    | cons i q =>
      obtain ⟨k, hk, hq⟩ := below hq
      cases r with
      | nil => exact absurd same (notRoot hk hq)
      | cons j r =>
        obtain ⟨l, hl, hr⟩ := below hr
        cases built.apart i j k l q r p p' hk hl hq hr same
        rw [hk] at hl
        cases hl
        rw [(built.laid i k hk).inj q r p p' hq hr same]
  · intro q p h
    cases q with
    | nil => exact adds.document.fresh
    | cons i q =>
      obtain ⟨k, hk, hq⟩ := below h
      exact adds.document.grows.dead (fun h => h) (built.fresh i k q p hk hq)
  · rw [document] at live
    rcases built.only x live with live | ⟨i, k, q, p, hk, hq, rfl⟩
    · exact (adds.document.only live).imp_right fun same => ⟨[], _, at?_nil _, same⟩
    · refine .inr ⟨i :: q, p, ?_, rfl⟩
      rw [at?_cons]
      exact Option.bind_eq_some_iff.mpr ⟨k, hk, hq⟩
  · rw [document]
    change site₂.document.parent? id = none
    rw [parent?, built.top]
    rfl
  · rw [anchored, built.anchored, adds.anchored, marks, collect, List.map_append, notes,
      List.map_map, List.append_assoc]
    rfl
  · rw [placeholders, built.placeholders, adds.placeholders, holes, collect, List.map_append,
      notes]
    rfl

mutual

theorem build_ends (scope : Scope) : ∀ (plan : Plan) (site : Site), site.document.Sound →
    Ends (build scope plan) site
      (fun id site' => ∃ place, place [] = id ∧ plan.Built scope site site' place)
      (fun site' => site.document.Grows nowhere site'.document ∧
        site.document.Gains site'.document)
  | .text content anchor, site, sound => by
    rw [build]
    have adds := adds_insert sound (.text content) trivial
      (.createText (site.document.insert (.text content)).1 content)
    cases anchor with
    | none => exact ⟨fun _ => _, rfl, built_leaf scope rfl rfl adds rfl rfl⟩
    | some slot => exact ⟨fun _ => _, rfl, built_leaf scope rfl rfl adds rfl rfl⟩
  | .comment content, site, sound => by
    rw [build]
    have adds := adds_insert sound (.comment content) trivial
      (.createComment (site.document.insert (.comment content)).1)
    exact ⟨fun _ => _, rfl, built_leaf scope rfl rfl adds rfl rfl⟩
  | .placeholder index, site, sound => by
    rw [build]
    have adds := adds_insert sound (.comment "") trivial
      (.createComment (site.document.insert (.comment "")).1)
    exact ⟨fun _ => _, rfl, built_leaf scope rfl rfl adds rfl rfl⟩
  | .element tag attributes handlers kids anchor, site, sound => by
    rw [build]
    have adds : site.Adds { site with document := (site.document.createElement tag).2 }
        (site.document.createElement tag).1 { content := .element tag [] [] } :=
      ⟨adds_insert sound (.element tag [] []) List.nodup_nil _, rfl, rfl⟩
    refine Ends.bind (Ends.bind ((attributes_ends _ attributes adds).imp ?_ fun _ h => h.elim))
    intro _ site₂ adds
    refine Ends.bind ((wires_ends scope _ handlers adds).imp ?_ fun _ h => h)
    rintro _ site₃ ⟨table, adds, all, only⟩
    refine Ends.bind ((buildChildren_ends scope _ kids site₃ _ adds.document.sound
      adds.document.self).imp ?_ ?_)
    · rintro _ site₄ ⟨place, built⟩
      cases anchor with
      | none => exact ⟨_, rfl, built_element adds ⟨all, only⟩ built rfl rfl rfl⟩
      | some slot => exact ⟨_, rfl, built_element adds ⟨all, only⟩ built rfl rfl rfl⟩
    · rintro site' ⟨grown, live⟩
      exact ⟨adds.document.grows.anywhere grown fun x same => same ▸ adds.document.fresh,
        _, adds.document.fresh, live⟩

theorem buildChildren_ends (scope : Scope) (parent : NodeId) : ∀ (kids : List Plan) (site : Site)
    (top : Node), site.document.Sound → site.document.get? parent = some top →
    Ends (buildChildren scope parent kids) site
      (fun _ site' => ∃ place, BuiltKids scope parent top kids site site' place)
      (fun site' => site.document.Grows (· = parent) site'.document ∧
        site'.document.get? parent ≠ none)
  | [], site, top, sound, hp => by
    rw [buildChildren]
    refine ⟨fun _ => parent, .refl sound, ?_, ?_, ?_, ?_, fun _ live => .inl live, rfl, rfl⟩
    · rw [hp]; simp
    · intro i k h; cases h
    · intro i j k l q r p p' h; cases h
    · intro i k q p h; cases h
  | kid :: kids, site, top, sound, hp => by
    rw [buildChildren]
    refine Ends.bind ((build_ends scope kid site sound).imp ?_ ?_)
    · rintro _ site₁ ⟨first, rfl, built⟩
      have hp₁ := built.grows.kept parent top id hp
      obtain ⟨self, live, _⟩ := built.laid.node [] kid (at?_nil kid)
      have get₂ := get?_appendChild hp₁ live built.detached
      have out : parent ≠ first [] := by
        intro same
        rw [same, built.fresh [] kid (at?_nil kid)] at hp
        cases hp
      have hp₂ : (site₁.document.appendChild parent (first [])).get? parent =
          some { top with children := top.children ++ [first []] } := by
        rw [get₂, hp₁, Option.map_some, if_neg out, if_pos rfl]
      refine (buildChildren_ends scope parent kids
        { site₁ with document := site₁.document.appendChild parent (first []) } _
        (built.grows.sound.appendChild parent (first [])) hp₂).imp ?_ ?_
      · rintro _ site₃ ⟨rest, others⟩
        exact ⟨_, BuiltKids.cons hp built rfl others⟩
      · rintro site' ⟨grown, live⟩
        refine ⟨⟨fun x node out' found => grown.kept x node out' ?_, grown.sound, ?_⟩, live⟩
        · have other : x ≠ first [] := by
            rintro rfl
            rw [built.fresh [] kid (at?_nil kid)] at found
            cases found
          rw [get₂, built.grows.kept x node id found, Option.map_some, if_neg out', if_neg other]
        · rw [grown.hearing, hearing_appendChild, built.grows.hearing]
    · rintro site' ⟨grown, -⟩
      refine ⟨⟨fun x node _ h => grown.kept x node id h, grown.sound, grown.hearing⟩, ?_⟩
      rw [grown.kept parent top id hp]
      exact Option.some_ne_none top

end

end Plan

/-! ## Templates -/

theorem lookup_map_snd {α β : Type} (f : α → β) (l : List (Nat × α)) (k : Nat) :
    (l.map fun m => (m.1, f m.2)).lookup k = (l.lookup k).map f := by
  induction l with
  | nil => rfl
  | cons head rest ih =>
    rw [List.map_cons, List.lookup_cons, List.lookup_cons]
    split
    · rfl
    · exact ih

namespace Template

open Document

/-- The position of the anchor with a number. -/
def slotPath? (t : Template) (slot : Nat) : Option (List Nat) := t.plan.marks.lookup slot

theorem anchorNodes_ok {root : NodeId} {anchored : List (Nat × NodeId)} {paths : List Path}
    {slot : Nat} {nodes : List NodeId} (h : anchorNodes root anchored paths slot = .ok nodes) :
    ∀ i < paths.length, ∃ id, nodes[i]? = some id ∧ anchored.lookup (slot + i) = some id := by
  induction paths generalizing slot nodes with
  | nil => exact fun i hi => absurd hi (Nat.not_lt_zero i)
  | cons path rest ih =>
    rw [anchorNodes] at h
    cases found : anchored.lookup slot with
    | none => rw [found] at h; cases h
    | some id =>
      rw [found] at h
      cases more : anchorNodes root anchored rest (slot + 1) with
      | error e => rw [more] at h; cases h
      | ok ids =>
        rw [more] at h
        cases h
        intro i hi
        cases i with
        | zero => exact ⟨id, rfl, found⟩
        | succ i =>
          obtain ⟨other, here, there⟩ := ih more i (Nat.lt_of_succ_lt_succ hi)
          exact ⟨other, here, by rw [← there]; congr 1; omega⟩

/-- The root of an instance knows the node of each anchor. -/
def Anchored (t : Template) (doc : Document) (place : List Nat → NodeId) : Prop :=
  ∃ nodes, doc.anchors? (place []) = some nodes ∧
    ∀ slot < t.anchors.length, ∃ q, t.slotPath? slot = some q ∧ nodes[slot]? = some (place q)

/-- What building the nodes of a template comes to. -/
structure Raised (scope : Scope) (t : Template) (doc : Document) (site : Site)
    (place : List Nat → NodeId) : Prop where
  keeps : doc.Retains True site.document
  laid : t.plan.Laid scope site.document place
  fresh : ∀ q p, t.plan.at? q = some p → doc.get? (place q) = none
  only : ∀ x, site.document.get? x ≠ none →
    doc.get? x ≠ none ∨ ∃ q p, t.plan.at? q = some p ∧ x = place q
  detached : site.document.parent? (place []) = none
  anchored : t.Anchored site.document place
  placeholders : site.placeholders = t.plan.holes.map fun m => (m.1, place m.2)
  heard : ∀ event ∈ t.events, event ∈ site.document.listening

theorem keeps_of_grows {doc doc' doc'' : Document} (heard : doc.Heard → doc'.Heard)
    (listening : ∀ e ∈ doc.listening, e ∈ doc'.listening)
    (get : ∀ x, doc'.get? x = doc.get? x) (h : doc'.Grows nowhere doc'') :
    doc.Retains True doc'' := by
  refine ⟨fun x node _ found => ?_, h.sound, fun hd => (heard hd).of_hearing h.hearing, ?_⟩
  · exact ⟨node, h.kept x node (fun hf => hf) ((get x).trans found), rfl, .refl True node⟩
  · intro e he
    rw [show doc''.listening = doc'.listening from congrArg Prod.snd h.hearing]
    exact listening e he

theorem get?_listen (t : Template) (doc : Document) (x : NodeId) :
    (t.listen doc).get? x = doc.get? x := by
  rw [Document.get?, t.nodes_listen doc]
  rfl

theorem retains_of_grows {t : Template} {doc doc' : Document}
    (grows : (t.listen doc).Grows nowhere doc') : doc.Retains True doc' :=
  keeps_of_grows t.heard_listen (fun e he => (t.mem_listening_listen doc e).mpr (.inr he))
    (t.get?_listen doc) grows

/-- The plan is built and the anchors are written down at its root. -/
theorem raised_of_built {scope : Scope} {t : Template} {doc : Document} {site : Site}
    {place : List Nat → NodeId} (built : t.plan.Built scope { document := t.listen doc } site place)
    {nodes : List NodeId} (found : anchorNodes (place []) site.anchored t.anchors 0 = .ok nodes) :
    t.Raised scope doc { site with document := site.document.setAnchors (place []) nodes }
      place := by
  obtain ⟨top, live, made⟩ := built.laid.node [] t.plan (Plan.at?_nil _)
  have get := get?_setAnchors site.document (place []) nodes
  have top' : (site.document.setAnchors (place []) nodes).get? (place []) =
      some { top with anchors := some nodes } := by
    rw [get, if_pos rfl, live]
    rfl
  have anchors : site.document.Grows (· = place [])
      (site.document.setAnchors (place []) nodes) := by
    refine ⟨fun x node other found => ?_, built.grows.sound.setAnchors (place []) nodes, rfl⟩
    rw [get, if_neg other]
    exact found
  have grows := built.grows.anywhere anchors
    fun x same => same ▸ built.fresh [] t.plan (Plan.at?_nil _)
  refine ⟨retains_of_grows grows, ⟨?_, built.laid.inj⟩, ?_, fun x alive => ?_, ?_,
    ⟨nodes, ?_, ?_⟩, ?_, ?_⟩
  · intro q p h
    obtain ⟨node, found', made'⟩ := built.laid.node q p h
    by_cases same : place q = place []
    · rw [same] at found' ⊢
      rw [live] at found'
      cases found'
      exact ⟨_, top', made'.content, made'.children, made'.wired, made'.data⟩
    · exact ⟨node, (get _).trans ((if_neg same).trans found'), made'⟩
  · exact fun q p h => (t.get?_listen doc _).symm.trans (built.fresh q p h)
  · have before : site.document.get? x ≠ none := by
      intro gone
      refine alive ((get x).trans ?_)
      rw [gone]
      split <;> rfl
    exact (built.only x before).imp_left fun old gone => old ((t.get?_listen doc x).trans gone)
  · have detached := built.detached
    rw [parent?, live] at detached
    change (site.document.setAnchors (place []) nodes).parent? (place []) = none
    rw [parent?, top']
    exact detached
  · change (site.document.setAnchors (place []) nodes).anchors? (place []) = some nodes
    rw [anchors?, top']
    rfl
  · intro slot hslot
    obtain ⟨id, here, there⟩ := anchorNodes_ok found slot hslot
    rw [built.anchored, List.append_nil, Nat.zero_add, lookup_map_snd] at there
    obtain ⟨q, path, rfl⟩ := Option.map_eq_some_iff.mp there
    exact ⟨q, path, here⟩
  · change site.placeholders = _
    rw [built.placeholders, List.append_nil]
  · intro e he
    change e ∈ site.document.listening
    rw [show site.document.listening = (t.listen doc).listening from
      congrArg Prod.snd built.grows.hearing]
    exact (t.mem_listening_listen doc e).mpr (.inl he)

theorem buildPlan_ends (scope : Scope) (t : Template) {doc : Document} (sound : doc.Sound) :
    Ends (t.buildPlan scope) { document := doc }
      (fun root site => ∃ place, place [] = root ∧ t.Raised scope doc site place)
      (fun site => doc.Retains True site.document ∧ doc.Gains site.document) := by
  have sound₁ : (t.listen doc).Sound := sound.of_nodes_eq (t.nodes_listen doc)
  have gains {doc' : Document} {x : NodeId} (fresh : (t.listen doc).get? x = none)
      (live : doc'.get? x ≠ none) : doc.Gains doc' :=
    ⟨x, (t.get?_listen doc x).symm.trans fresh, live⟩
  unfold buildPlan
  refine Ends.bind (Ends.bind ((t.plan.build_ends scope { document := t.listen doc } sound₁).imp
    ?_ ?_))
  case refine_2 =>
    rintro site ⟨grows, x, fresh, live⟩
    exact ⟨retains_of_grows grows, gains fresh live⟩
  rintro _ site ⟨place, rfl, built⟩
  refine Ends.bind (Ends.get ?_)
  dsimp only
  cases found : anchorNodes (place []) site.anchored t.anchors 0 with
  | error e =>
    exact ⟨retains_of_grows built.grows, gains (built.fresh [] t.plan (Plan.at?_nil _))
      (built.laid.live (Plan.at?_nil _))⟩
  | ok nodes => exact ⟨place, rfl, raised_of_built built found⟩

end Template
end LiveTemplate
