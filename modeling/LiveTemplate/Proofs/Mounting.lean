import LiveTemplate.Proofs.Reach
import LiveTemplate.Template.Instance

/-!
# LiveTemplate.Proofs.Mounting

Creating and updating live subtrees. What is created stands in a new part of the document; what is
updated stands afterwards too, also when the update stopped at an error, and the rest of the
document is kept. Nothing else comes to life, unless the update stopped while something that was
hidden was being created.

  * `Subtree.Under`           every value and condition is that of one scope
  * `Subtree.strands`         the updates that leave nodes behind
  * `Subtree.create_ends`     creating
  * `Subtree.update_refreshed` updating
-/

namespace LiveTemplate

variable {κ : Type}

mutual

/-- The values that a live subtree remembers. -/
def Mount.values : Mount → List Computed
  | .template _ snapshot children =>
    (snapshot.map fun s => s.values.map Prod.snd).getD [] ++ Mount.valuesOfAll children
  | .conditional _ (some body) => body.values
  | .conditional _ none => []

def Mount.valuesOfAll : List Mount → List Computed
  | [] => []
  | m :: ms => m.values ++ Mount.valuesOfAll ms

end

/-- The values that are remembered are known. -/
def Mount.Fits (heap : Heap) (m : Mount) : Prop := ∀ c ∈ m.values, c.Fits heap

def Mount.AllFit (heap : Heap) (ms : List Mount) : Prop := ∀ c ∈ Mount.valuesOfAll ms, c.Fits heap

/-- A condition came to this under a scope. -/
def Condition.Decides (host : Host κ) (held : κ → Heap) (scope : Scope) (condition : Condition)
    (b : Bool) : Prop :=
  ∃ s s' heap, Heap.Knows heap held scope s ∧ condition.holds host.calls scope s = .ok b s'

mutual

/-- Every value and every condition of a live subtree is that of one scope. -/
def Subtree.Under (host : Host κ) (held : κ → Heap) (scope : Scope) : Subtree → Mount → Prop
  | .template t, m => t.Under host held scope m
  | .conditional condition body, .conditional _ (some m) =>
    condition.Decides host held scope true ∧ body.Under host held scope m
  | .conditional condition _, .conditional _ none => condition.Decides host held scope false
  | .conditional _ _, .template _ _ _ => False

def Template.Under (host : Host κ) (held : κ → Heap) (scope : Scope) : Template → Mount → Prop
  | t@⟨_, _, _, _, extensions, _, _⟩, .template _ snapshot children =>
    snapshot ≠ none ∧
      (∃ values, t.Remembers snapshot values ∧ t.Computes host held scope values) ∧
      Extension.UnderAll host held scope extensions children
  | _, .conditional _ _ => False

def Extension.UnderAll (host : Host κ) (held : κ → Heap) (scope : Scope) :
    List Extension → List Mount → Prop
  | [], [] => True
  | ⟨_, _, subtree⟩ :: rest, m :: ms =>
    subtree.Under host held scope m ∧ Extension.UnderAll host held scope rest ms
  | [], _ :: _ => False
  | _ :: _, [] => False

end

mutual

/-- The update stops while something that was hidden is being created. What was made of it by then
is left behind. -/
def Subtree.strands (host : Host κ) (scope : Scope) : Subtree → Mount → Stage κ → Bool
  | .template t, m, s => t.strands host scope m s
  | .conditional condition body, .conditional _ none, s =>
    match condition.check host scope s with
    | .ok true s =>
      match body.create host scope s with
      | .ok _ _ => false
      | .error _ _ => true
    | _ => false
  | .conditional condition body, .conditional _ (some live), s =>
    match condition.check host scope s with
    | .ok true s => body.strands host scope live s
    | _ => false
  | .conditional _ _, .template _ _ _, _ => false

def Template.strands (host : Host κ) (scope : Scope) : Template → Mount → Stage κ → Bool
  | t@⟨_, _, _, _, extensions, _, _⟩, .template root snapshot children, s =>
    match t.update host scope root snapshot s with
    | .error _ _ => false
    | .ok _ s => Extension.anyStrands host scope extensions children s
  | _, .conditional _ _, _ => false

/-- The first of the extension points that stops ends the update. -/
def Extension.anyStrands (host : Host κ) (scope : Scope) :
    List Extension → List Mount → Stage κ → Bool
  | ⟨_, _, subtree⟩ :: rest, m :: ms, s =>
    match subtree.update host scope m s with
    | (⟨_, some _⟩, _) => subtree.strands host scope m s
    | (⟨_, none⟩, s) => Extension.anyStrands host scope rest ms s
  | _, _, _ => false

end

namespace Document

/-- A part changed, and some of its nodes were replaced. -/
structure Moves (strict : Prop) (part : Set NodeId) (moved : List NodeId) (f : NodeId → NodeId)
    (doc doc' : Document) : Prop where
  fixed : ∀ x, x ∉ moved → f x = x
  keeps : doc.Keeps strict part f doc'

/-- Nodes without children, each below a node that is none of them. -/
structure Vacant (doc : Document) (holes : List NodeId) : Prop where
  nodup : holes.Nodup
  leaf : ∀ h ∈ holes, ∃ node, doc.get? h = some node ∧ node.children = []
  below : ∀ h ∈ holes, ∃ p, doc.parent? h = some p ∧ p ∉ holes

/-- Changes to nodes that were made since. -/
theorem Keeps.since {strict : Prop} {part : Set NodeId} {f : NodeId → NodeId} {a b c : Document}
    (k : b.Keeps strict part f c) (h : a.Retains strict b) (sound : a.Sound)
    (fresh : ∀ x ∈ part, a.get? x = none) (fixed : ∀ x, a.get? x ≠ none → f x = x) :
    a.Retains strict c := by
  refine ⟨fun x node _ found => ?_, k.sound, fun heard => k.heard (h.heard heard),
    fun e he => k.listening e (h.listening e he)⟩
  have out : x ∉ part := by
    intro mem
    rw [fresh x mem] at found
    cases found
  obtain ⟨node', found', parent, follows⟩ := h.nodes x node (Set.notMem_empty x) found
  obtain ⟨node'', found'', parent', follows'⟩ := k.nodes x node' out found'
  refine ⟨node'', found'', parent'.trans parent, (follows.trans follows').congr fun y hy => ?_⟩
  obtain ⟨below, live, _⟩ := sound.links.pointsBack found hy
  exact fixed y (by rw [live]; exact Option.some_ne_none below)

end Document

namespace Template

open Document

/-- A part that is no root is among the children of another. -/
theorem parent_of_at {plan p : Plan} {q : List Nat} (found : plan.at? q = some p) (h : q ≠ []) :
    ∃ r i parent, q = r ++ [i] ∧ plan.at? r = some parent ∧ parent.kids[i]? = some p := by
  obtain ⟨r, i, rfl⟩ : ∃ r i, q = r ++ [i] :=
    ⟨q.dropLast, q.getLast h, (List.dropLast_append_getLast h).symm⟩
  have inner := found
  rw [Plan.at?_append] at inner
  obtain ⟨parent, top, _⟩ := Option.bind_eq_some_iff.mp inner
  exact ⟨r, i, parent, rfl, top, (Plan.at?_snoc top i).symm.trans found⟩

variable {terms : Terms} {t : Template} {doc : Document} {place : List Nat → NodeId}
  {values : List (Binding × Computed)}

/-- What is mounted at an extension point is below a node of the plan. -/
theorem Own.parent_of_hole (own : t.Own terms doc place values) (sound : doc.Sound) {index : Nat}
    {q : List Nat} (mem : (index, q) ∈ t.plan.holes) :
    ∃ x ∈ t.ground place, doc.parent? (place q) = some x := by
  have found := Plan.mem_holes.mp mem
  have inner : q ≠ [] := by
    rintro rfl
    rw [Plan.at?_nil] at found
    have solid := own.solid
    rw [Option.some.inj found] at solid
    cases solid
  obtain ⟨r, i, parent, rfl, top, kid⟩ := parent_of_at found inner
  have solid := hole?_of_kids kid
  obtain ⟨node, live, shows⟩ := own.node r parent top solid
  have listed : place (r ++ [i]) ∈ node.children := by
    rw [shows.children]
    exact List.mem_map.mpr ⟨i, List.mem_range.mpr (List.getElem?_eq_some_iff.mp kid).1, rfl⟩
  obtain ⟨below, here, back⟩ := sound.links.pointsBack live listed
  exact ⟨place r, ⟨r, parent, top, solid, rfl⟩, by rw [parent?, here]; exact back⟩

/-- The nodes of the extension points, in their order. -/
def holePlaces (t : Template) (place : List Nat → NodeId) : List NodeId :=
  t.plan.holes.reverse.map fun m => place m.2

theorem Tidy.nodup_holes (tidy : t.Tidy terms.builtin) : (t.plan.holes.map Prod.fst).Nodup := by
  rw [tidy.holes]
  exact List.nodup_reverse.mpr List.nodup_range

/-- Extension points are numbered in the order in which they are built. -/
theorem Tidy.hole_index (tidy : t.Tidy terms.builtin) {i : Nat} {m : Nat × List Nat}
    (found : t.plan.holes.reverse[i]? = some m) : m.1 = i := by
  have keys : t.plan.holes.reverse.map Prod.fst = List.range t.extensions.length := by
    rw [List.map_reverse, tidy.holes, List.reverse_reverse]
  have key : (t.plan.holes.reverse.map Prod.fst)[i]? = some m.1 := by
    rw [List.getElem?_map, found]
    rfl
  rw [keys] at key
  obtain ⟨_, same⟩ := List.getElem?_eq_some_iff.mp key
  rw [← same, List.getElem_range]

theorem Tidy.filled (tidy : t.Tidy terms.builtin) (place : List Nat → NodeId) :
    t.Filled place (t.holePlaces place) := by
  intro index q mem
  obtain ⟨j, found⟩ := List.mem_iff_getElem?.mp (List.mem_reverse.mpr mem)
  obtain rfl := tidy.hole_index found
  rw [holePlaces, List.getElem?_map, found]
  rfl

theorem Filled.comp {mounted : List NodeId} (h : t.Filled place mounted) (f : NodeId → NodeId) :
    t.Filled (f ∘ place) (mounted.map f) := by
  intro index q mem
  rw [List.getElem?_map, h index q mem]
  rfl

theorem length_holePlaces (tidy : t.Tidy terms.builtin) (place : List Nat → NodeId) :
    (t.holePlaces place).length = t.extensions.length := by
  have keys := congrArg List.length tidy.holes
  simpa [holePlaces] using keys

theorem mem_holePlaces {x : NodeId} :
    x ∈ t.holePlaces place ↔ ∃ index q, (index, q) ∈ t.plan.holes ∧ x = place q := by
  simp only [holePlaces, List.mem_map, List.mem_reverse, Prod.exists, eq_comm]

/-- A place that is none of the extension points is one of the plan's own nodes. -/
theorem solid_of_not_hole {q : List Nat} {p : Plan} (found : t.plan.at? q = some p)
    (out : place q ∉ t.holePlaces place) : p.hole? = none := by
  cases hole : p.hole? with
  | none => rfl
  | some index =>
    exact (out (mem_holePlaces.mpr ⟨index, q, Plan.mem_collect.mpr ⟨p, found, hole⟩, rfl⟩)).elim

namespace Raised

variable {scope : Scope} {site : Site}

/-- Before the first pass the nodes of an instance show no values. -/
theorem own (h : t.Raised scope doc site place) (tidy : t.Tidy terms.builtin) :
    t.Own terms site.document place [] := by
  refine ⟨tidy.solid, fun q p part _ => ?_, fun q r p p' hq hr _ _ => h.laid.inj q r p p' hq hr,
    h.anchored, h.heard⟩
  obtain ⟨node, found, made⟩ := h.laid.node q p part
  refine ⟨node, found, fun _ _ => made.content, fun _ => by rw [made.content], made.children,
    ⟨scope, made.wired⟩, fun _ => ⟨?_, ?_⟩⟩
  · exact fun p mem => (List.not_mem_nil mem).elim
  · intro event _
    rw [made.data]
    rfl

/-- The extension points are apart from the other nodes of the plan. -/
theorem not_hole (h : t.Raised scope doc site place) {x : NodeId} (mem : x ∈ t.ground place) :
    x ∉ t.holePlaces place := by
  intro hole
  obtain ⟨q, p, part, solid, rfl⟩ := mem
  obtain ⟨index, r, spot, same⟩ := mem_holePlaces.mp hole
  have part' := Plan.mem_holes.mp spot
  rw [h.laid.inj q r p _ part part' same, part'] at part
  rw [← Option.some.inj part] at solid
  cases solid

theorem vacant (h : t.Raised scope doc site place) (tidy : t.Tidy terms.builtin) :
    site.document.Vacant (t.holePlaces place) := by
  have own := h.own tidy
  refine ⟨?_, fun x mem => ?_, fun x mem => ?_⟩
  · refine List.Nodup.map_on ?_ (List.nodup_reverse.mpr (List.Nodup.of_map _ tidy.nodup_holes))
    rintro ⟨i, q⟩ hq ⟨j, r⟩ hr same
    have found := Plan.mem_holes.mp (List.mem_reverse.mp hq)
    have found' := Plan.mem_holes.mp (List.mem_reverse.mp hr)
    obtain rfl := h.laid.inj q r _ _ found found' same
    rw [found] at found'
    cases found'
    rfl
  · obtain ⟨index, q, spot, rfl⟩ := mem_holePlaces.mp mem
    obtain ⟨node, live, made⟩ := h.laid.node q _ (Plan.mem_holes.mp spot)
    exact ⟨node, live, made.children⟩
  · obtain ⟨index, q, spot, rfl⟩ := mem_holePlaces.mp mem
    obtain ⟨x, ground, parent⟩ := own.parent_of_hole h.keeps.sound spot
    exact ⟨x, parent, h.not_hole ground⟩

/-- The placeholders are found by the numbers of their extension points. -/
theorem lookup (h : t.Raised scope doc site place) (tidy : t.Tidy terms.builtin) {i : Nat}
    {x : NodeId} (found : (t.holePlaces place)[i]? = some x) : site.placeholders.lookup i = some x := by
  rw [holePlaces, List.getElem?_map] at found
  obtain ⟨⟨index, q⟩, here, rfl⟩ := Option.map_eq_some_iff.mp found
  obtain rfl := tidy.hole_index here
  rw [h.placeholders]
  refine lookup_of_nodup ?_ (List.mem_map_of_mem (List.mem_reverse.mp (List.mem_of_getElem? here)))
  rw [List.map_map]
  exact tidy.nodup_holes

end Raised
end Template

/-! ## Creating -/

section

open Document

/-- What creating a subtree comes to. -/
structure Subtree.Created (terms : Terms) (host : Host κ) (held : κ → Heap) (scope : Scope)
    (heap : Heap) (s : Stage κ) (subtree : Subtree) (m : Mount) (s' : Stage κ)
    (part : Set NodeId) : Prop where
  stands : subtree.Stands terms s'.document m part
  fresh : ∀ x ∈ part, s.document.get? x = none
  only : s.document.Exchanges ∅ part s'.document
  retains : s.document.Retains terms.builtin s'.document
  detached : s'.document.parent? m.node = none
  grown : heap.Grown terms held s' fun more => m.Fits more
  under : terms.coherent → subtree.Under host held scope m

/-- What creating subtrees in the place of some nodes comes to. -/
structure Extension.AllCreated (terms : Terms) (host : Host κ) (held : κ → Heap) (scope : Scope)
    (heap : Heap) (s : Stage κ) (holes : List NodeId) (extensions : List Extension)
    (ms : List Mount) (s' : Stage κ) (rest : Set NodeId) (f : NodeId → NodeId) : Prop where
  stands : Extension.StandAll terms s'.document extensions ms rest
  within : ∀ x ∈ rest, x ∈ holes ∨ s.document.get? x = none
  only : s.document.Exchanges (fun x => x ∈ holes) rest s'.document
  moves : s.document.Moves terms.builtin (fun x => x ∈ holes) holes f s'.document
  nodes : ms.map Mount.node = holes.map f
  grown : heap.Grown terms held s' fun more => Mount.AllFit more ms
  under : terms.coherent → Extension.UnderAll host held scope extensions ms

variable {terms : Terms} {host : Host κ} {held : κ → Heap} {scope : Scope} {heap : Heap}
  {s s₁ : Stage κ}

namespace Subtree.Created

variable {subtree : Subtree} {m : Mount} {part : Set NodeId}

/-- What was created takes the place of a part of the document. -/
theorem swapFor (created : subtree.Created terms host held scope heap s m s₁ part)
    {other : Set NodeId} {old p : NodeId} (region : s.document.Region other) (mem : old ∈ other)
    (below : ∀ x ∈ other, s.document.Below old x) (hp : s.document.parent? old = some p)
    (out : p ∉ other) :
    s.document.Keeps terms.builtin other (relabel old m.node) (swapNodes old m.node s₁.document) ∧
      subtree.Stands terms (swapNodes old m.node s₁.document) m part ∧
      s.document.Exchanges other part (swapNodes old m.node s₁.document) := by
  have apart : Disjoint part other := by
    refine Set.disjoint_left.mpr fun x mem mem' => ?_
    obtain ⟨node, live, _⟩ := region x mem'
    rw [created.fresh x mem] at live
    cases live
  have same := created.retains.agrees region (Set.disjoint_empty other) fun _ _ => rfl
  have region₁ := same.region region
  obtain ⟨node, live, _⟩ := region old mem
  have hp₁ := (created.retains.parent (Set.notMem_empty old) live).trans hp
  have top := created.stands.node_mem
  obtain ⟨node', live', _⟩ := created.stands.region m.node top
  have new := Set.disjoint_left.mp apart top
  refine ⟨Keeps.swap created.retains (created.fresh _ top) mem hp₁ out region₁ live' new
    created.detached, created.stands.agrees ?_, ?_⟩
  · exact agrees_swapNodes terms.builtin created.retains.sound mem hp₁ out region₁ live' new
      created.detached created.stands.region apart
  · have freed := exchanges_swapNodes created.retains.sound mem hp₁ out region₁
      (fun x inside => same.below region mem (below x inside)) live' new created.detached
    simpa using created.only.union freed

theorem swapIn (created : subtree.Created terms host held scope heap s m s₁ part)
    {h : NodeId} {hs : List NodeId} (vacant : s.document.Vacant (h :: hs)) :
    s.document.Keeps terms.builtin {h} (relabel h m.node) (swapNodes h m.node s₁.document) ∧
      subtree.Stands terms (swapNodes h m.node s₁.document) m part ∧
      s.document.Exchanges {h} part (swapNodes h m.node s₁.document) ∧
      (swapNodes h m.node s₁.document).Vacant hs := by
  obtain ⟨fresh, nodup⟩ := List.nodup_cons.mp vacant.nodup
  obtain ⟨p, hp, out⟩ := vacant.below h List.mem_cons_self
  have region : s.document.Region {h} := by
    rintro x rfl
    obtain ⟨node, live, leaf⟩ := vacant.leaf x List.mem_cons_self
    refine ⟨node, live, fun c hc => ?_⟩
    rw [leaf] at hc
    cases hc
  have below : ∀ x ∈ ({h} : Set NodeId), s.document.Below h x := by
    rintro x rfl
    exact .refl
  obtain ⟨keeps, stands, only⟩ := created.swapFor region (Set.mem_singleton h) below hp
    fun same => out (same ▸ List.mem_cons_self)
  have other {x : NodeId} (mem : x ∈ hs) : x ∉ ({h} : Set NodeId) := by
    rintro rfl
    exact fresh mem
  refine ⟨keeps, stands, only, nodup, fun x mem => ?_, fun x mem => ?_⟩
  · obtain ⟨node, live, leaf⟩ := vacant.leaf x (List.mem_cons_of_mem _ mem)
    obtain ⟨node', live', _, follows⟩ := keeps.nodes x node (other mem) live
    exact ⟨node', live', by rw [follows.children, leaf]; rfl⟩
  · obtain ⟨node, live, _⟩ := vacant.leaf x (List.mem_cons_of_mem _ mem)
    obtain ⟨p', hp', out'⟩ := vacant.below x (List.mem_cons_of_mem _ mem)
    exact ⟨p', (keeps.parent (other mem) live).trans hp',
      fun mem => out' (List.mem_cons_of_mem _ mem)⟩

end Subtree.Created

/-- One node is replaced, then others are. -/
theorem Document.Moves.cons {h new : NodeId} {hs : List NodeId} {f : NodeId → NodeId}
    {a b c : Document} (keeps : a.Keeps terms.builtin {h} (relabel h new) b)
    (moves : b.Moves terms.builtin (fun x => x ∈ hs) hs f c) :
    a.Moves terms.builtin (fun x => x ∈ h :: hs) (h :: hs) (f ∘ relabel h new) c := by
  refine ⟨fun x out => ?_, (keeps.mono ?_).trans (moves.keeps.mono ?_)⟩
  · obtain ⟨other, out⟩ := List.ne_and_not_mem_of_not_mem_cons out
    rw [Function.comp_apply, relabel_of_ne other]
    exact moves.fixed x out
  · rintro x rfl
    exact List.mem_cons_self
  · exact fun x mem => List.mem_cons_of_mem _ mem

theorem Extension.AllCreated.cons {path : Path} {name : String} {subtree : Subtree} {m : Mount}
    {part : Set NodeId} (created : subtree.Created terms host held scope heap s m s₁ part)
    {h : NodeId} {hs : List NodeId} (vacant : s.document.Vacant (h :: hs)) {more : Heap}
    (larger : more.Extends heap) (fits : terms.coherent → m.Fits more) {extensions : List Extension}
    {ms : List Mount} {s' : Stage κ} {rest : Set NodeId} {f : NodeId → NodeId}
    (others : Extension.AllCreated terms host held scope more
      (s₁.edit (swapNodes h m.node)) hs extensions ms s' rest f) :
    Extension.AllCreated terms host held scope heap s (h :: hs) (⟨path, name, subtree⟩ :: extensions)
      (m :: ms) s' (part ∪ rest) (f ∘ relabel h m.node) := by
  obtain ⟨keeps, stands, only, _⟩ := created.swapIn vacant
  have old {x : NodeId} (mem : x ∈ part) : x ∉ h :: hs := by
    intro hole
    obtain ⟨node, live, _⟩ := vacant.leaf x hole
    rw [created.fresh x mem] at live
    cases live
  have fixed {x : NodeId} (mem : x ∈ part) : f x = x :=
    others.moves.fixed x fun hole => old mem (List.mem_cons_of_mem _ hole)
  refine ⟨?_, ?_, (only.union others.only).mono ?_ subset_rfl, .cons keeps others.moves, ?_, ?_, ?_⟩
  · rw [Extension.StandAll]
    refine ⟨part, rest, rfl, Set.disjoint_left.mpr fun x mem mem' => ?_, ?_, others.stands⟩
    · rcases others.within x mem' with hole | gone
      · exact old mem (List.mem_cons_of_mem _ hole)
      · obtain ⟨node, live, _⟩ := stands.region x mem
        exact absurd (gone.symm.trans live) (Option.some_ne_none node).symm
    · refine stands.agrees (others.moves.keeps.agrees stands.region ?_ fun x => fixed)
      exact Set.disjoint_left.mpr fun x mem hole => old mem (List.mem_cons_of_mem _ hole)
  · rintro x (mem | mem)
    · exact .inr (created.fresh x mem)
    · rcases others.within x mem with hole | gone
      · exact .inl (List.mem_cons_of_mem _ hole)
      · refine (keeps.dead gone).imp_left ?_
        rintro rfl
        exact List.mem_cons_self
  · exact fun x mem => List.mem_cons.mp mem
  · rw [List.map_cons, List.map_cons, Function.comp_apply, relabel_self,
      fixed created.stands.node_mem, others.nodes]
    congr 1
    refine List.map_congr_left fun x mem => ?_
    rw [Function.comp_apply, relabel_of_ne]
    rintro rfl
    exact (List.nodup_cons.mp vacant.nodup).1 mem
  · obtain ⟨most, grown, known⟩ := others.grown
    refine ⟨most, larger.trans grown, fun hc => ⟨(known hc).1, fun c mem => ?_⟩⟩
    rcases List.mem_append.mp mem with mem | mem
    · exact (fits hc c mem).mono grown
    · exact (known hc).2 c mem
  · intro hc
    rw [Extension.UnderAll]
    exact ⟨created.under hc, others.under hc⟩

/-! ## Updating -/

/-- What updating a subtree comes to. -/
structure Subtree.Refreshed (terms : Terms) (host : Host κ) (held : κ → Heap) (scope : Scope)
    (heap : Heap) (s : Stage κ) (subtree : Subtree) (m : Mount) (part : Set NodeId)
    (updated : Updated Mount) (s' : Stage κ) (part' : Set NodeId) : Prop where
  stands : subtree.Stands terms s'.document updated.live part'
  within : ∀ x ∈ part', x ∈ part ∨ s.document.get? x = none
  keeps : s.document.Keeps terms.builtin part (relabel m.node updated.live.node) s'.document
  clean : updated.error = none → s.document.Exchanges part part' s'.document
  stopped : updated.error ≠ none → (s.document.Exchanges part part' s'.document ↔
    subtree.strands host scope m s = false)
  grown : updated.error = none → heap.Grown terms held s' fun more => updated.live.Fits more
  under : updated.error = none → terms.coherent → subtree.Under host held scope updated.live

/-- What updating the extension points of an instance comes to. -/
structure Extension.AllRefreshed (terms : Terms) (host : Host κ) (held : κ → Heap) (scope : Scope)
    (heap : Heap) (s : Stage κ) (extensions : List Extension) (ms : List Mount) (part : Set NodeId)
    (updated : Updated (List Mount)) (s' : Stage κ) (part' : Set NodeId) (f : NodeId → NodeId) :
    Prop where
  stands : Extension.StandAll terms s'.document extensions updated.live part'
  within : ∀ x ∈ part', x ∈ part ∨ s.document.get? x = none
  moves : s.document.Moves terms.builtin part (ms.map Mount.node) f s'.document
  clean : updated.error = none → s.document.Exchanges part part' s'.document
  stopped : updated.error ≠ none → (s.document.Exchanges part part' s'.document ↔
    Extension.anyStrands host scope extensions ms s = false)
  nodes : updated.live.map Mount.node = (ms.map Mount.node).map f
  grown : updated.error = none → heap.Grown terms held s' fun more => Mount.AllFit more updated.live
  under : updated.error = none → terms.coherent →
    Extension.UnderAll host held scope extensions updated.live

namespace Subtree.Refreshed

variable {subtree : Subtree} {m : Mount} {here here' there : Set NodeId} {updated : Updated Mount}

/-- Nodes of others are neither written to nor taken. -/
theorem apart (first : subtree.Refreshed terms host held scope heap s m here updated s₁ here')
    (disjoint : Disjoint here there) (region : s.document.Region there) :
    Disjoint here' there := by
  refine Set.disjoint_left.mpr fun x mem mem' => ?_
  rcases first.within x mem with mem | gone
  · exact Set.disjoint_left.mp disjoint mem mem'
  · obtain ⟨node, live, _⟩ := region x mem'
    rw [gone] at live
    cases live

theorem agrees (first : subtree.Refreshed terms host held scope heap s m here updated s₁ here')
    (stands : subtree.Stands terms s.document m here) (disjoint : Disjoint here there)
    (region : s.document.Region there) : s.document.Agrees terms.builtin there s₁.document := by
  refine first.keeps.agrees region disjoint.symm fun x mem => relabel_of_ne ?_
  rintro rfl
  exact Set.disjoint_left.mp disjoint stands.node_mem mem

/-- What is mounted beside it is below the same nodes as before. -/
theorem attached (first : subtree.Refreshed terms host held scope heap s m here updated s₁ here')
    (disjoint : Disjoint here there) {extensions : List Extension} {ms : List Mount}
    (mounted : Extension.StandAll terms s.document extensions ms there)
    (before : ∀ x ∈ ms.map Mount.node, ∃ p, s.document.parent? x = some p ∧ p ∉ here ∪ there) :
    ∀ x ∈ ms.map Mount.node, ∃ p, s₁.document.parent? x = some p ∧ p ∉ there := by
  intro x mem
  obtain ⟨p, parent, out⟩ := before x mem
  obtain ⟨node, live, _⟩ := mounted.region x (mounted.node_mem mem)
  have other : x ∉ here := fun mem' => Set.disjoint_left.mp disjoint mem' (mounted.node_mem mem)
  exact ⟨p, (first.keeps.parent other live).trans parent, fun mem => out (.inr mem)⟩

end Subtree.Refreshed

namespace Extension.AllRefreshed

variable {path : Path} {name : String} {subtree : Subtree} {m m' : Mount}
  {here here' there there' : Set NodeId} {extensions : List Extension} {ms : List Mount}

theorem cons (stands : subtree.Stands terms s.document m here)
    (mounted : Extension.StandAll terms s.document extensions ms there)
    (disjoint : Disjoint here there) (run : subtree.update host scope m s = (⟨m', none⟩, s₁))
    (first : subtree.Refreshed terms host held scope heap s m here ⟨m', none⟩ s₁ here')
    {more : Heap} (larger : more.Extends heap) (fits : terms.coherent → m'.Fits more)
    {updated : Updated (List Mount)} {s' : Stage κ} {f : NodeId → NodeId}
    (others : Extension.AllRefreshed terms host held scope more s₁ extensions ms there updated s'
      there' f) :
    Extension.AllRefreshed terms host held scope heap s (⟨path, name, subtree⟩ :: extensions)
      (m :: ms) (here ∪ there) ⟨m' :: updated.live, updated.error⟩ s' (here' ∪ there')
      (f ∘ relabel m.node m'.node) := by
  have apart := first.apart disjoint mounted.region
  have fixed {x : NodeId} (mem : x ∈ here') : f x = x :=
    others.moves.fixed x fun mem' => Set.disjoint_left.mp apart mem (mounted.node_mem mem')
  have same {x : NodeId} (mem : x ∈ ms.map Mount.node) : relabel m.node m'.node x = x := by
    refine relabel_of_ne ?_
    rintro rfl
    exact Set.disjoint_left.mp disjoint stands.node_mem (mounted.node_mem mem)
  have live : ∀ x ∈ here', s₁.document.get? x ≠ none := by
    intro x mem
    obtain ⟨node, found, _⟩ := first.stands.region x mem
    rw [found]
    exact Option.some_ne_none node
  refine ⟨?_, ?_, ⟨fun x out => ?_, ?_⟩, fun ok => (first.clean rfl).union (others.clean ok),
    fun bad => ?_, ?_, fun ok => ?_, fun ok hc => ?_⟩
  · rw [Extension.StandAll]
    refine ⟨here', there', rfl, Set.disjoint_left.mpr fun x mem mem' => ?_, ?_, others.stands⟩
    · rcases others.within x mem' with mem' | gone
      · exact Set.disjoint_left.mp apart mem mem'
      · obtain ⟨node, live, _⟩ := first.stands.region x mem
        rw [gone] at live
        cases live
    · exact first.stands.agrees (others.moves.keeps.agrees first.stands.region apart fun x => fixed)
  · rintro x (mem | mem)
    · exact (first.within x mem).imp_left .inl
    · rcases others.within x mem with mem | gone
      · exact .inl (.inr mem)
      · exact (first.keeps.dead gone).imp_left .inl
  · obtain ⟨other, out⟩ := List.ne_and_not_mem_of_not_mem_cons out
    rw [Function.comp_apply, relabel_of_ne other]
    exact others.moves.fixed x out
  · exact (first.keeps.mono Set.subset_union_left).trans
      (others.moves.keeps.mono Set.subset_union_right)
  · rw [Extension.anyStrands, run]
    exact ((first.clean rfl).union_iff first.keeps live apart).trans (others.stopped bad)
  · rw [List.map_cons, List.map_cons, List.map_cons, Function.comp_apply, relabel_self,
      fixed first.stands.node_mem, others.nodes]
    congr 1
    refine List.map_congr_left fun x mem => ?_
    rw [Function.comp_apply, same mem]
  · obtain ⟨most, grown, known⟩ := others.grown ok
    refine ⟨most, larger.trans grown, fun hc => ⟨(known hc).1, fun c mem => ?_⟩⟩
    rcases List.mem_append.mp mem with mem | mem
    · exact (fits hc c mem).mono grown
    · exact (known hc).2 c mem
  · rw [Extension.UnderAll]
    exact ⟨first.under rfl hc, others.under ok hc⟩

/-- An update that stops at an error leaves the extension points to come as they are. -/
theorem stop (stands : subtree.Stands terms s.document m here)
    (mounted : Extension.StandAll terms s.document extensions ms there)
    (disjoint : Disjoint here there) {e : EvalError}
    (run : subtree.update host scope m s = (⟨m', some e⟩, s₁))
    (first : subtree.Refreshed terms host held scope heap s m here ⟨m', some e⟩ s₁ here') :
    Extension.AllRefreshed terms host held scope heap s (⟨path, name, subtree⟩ :: extensions)
      (m :: ms) (here ∪ there) ⟨m' :: ms, some e⟩ s₁ (here' ∪ there)
      (relabel m.node m'.node) := by
  have apart := first.apart disjoint mounted.region
  refine ⟨?_, ?_, ⟨fun x out => ?_, first.keeps.mono Set.subset_union_left⟩, nofun, fun _ => ?_, ?_,
    nofun, nofun⟩
  · rw [Extension.StandAll]
    exact ⟨here', there, rfl, apart, first.stands,
      mounted.agrees (first.agrees stands disjoint mounted.region)⟩
  · rintro x (mem | mem)
    · exact (first.within x mem).imp_left .inl
    · exact .inl (.inr mem)
  · exact relabel_of_ne (List.ne_and_not_mem_of_not_mem_cons out).1
  · rw [Extension.anyStrands, run]
    exact (Exchanges.union_right_iff mounted.region disjoint).trans (first.stopped nofun)
  · rw [List.map_cons, List.map_cons, List.map_cons, relabel_self, map_relabel_of_not_mem]
    intro mem
    exact Set.disjoint_left.mp disjoint stands.node_mem (mounted.node_mem mem)

end Extension.AllRefreshed

/-! ## Instances -/

namespace Template

variable {t : Template} {doc doc' : Document} {place : List Nat → NodeId}
  {values : List (Binding × Computed)} {mounted : List NodeId}

namespace Rooted

variable {root : NodeId} {snapshot : Option Snapshot} {rest rest' : Set NodeId}
  {f : NodeId → NodeId}

/-- What is mounted in an instance is below nodes of its plan. -/
theorem attached (rooted : t.Rooted terms doc root snapshot mounted rest place values)
    (tidy : t.Tidy terms.builtin) (sound : doc.Sound) (length : mounted.length = t.extensions.length)
    {x : NodeId} (mem : x ∈ mounted) : ∃ p ∈ t.ground place, doc.parent? x = some p := by
  obtain ⟨index, q, spot, rfl⟩ := tidy.hole_of_mounted rooted.filled length mem
  exact rooted.own.parent_of_hole sound spot

theorem attached_outside (rooted : t.Rooted terms doc root snapshot mounted rest place values)
    (tidy : t.Tidy terms.builtin) (sound : doc.Sound)
    (length : mounted.length = t.extensions.length) :
    ∀ x ∈ mounted, ∃ p, doc.parent? x = some p ∧ p ∉ rest := by
  intro x mem
  obtain ⟨p, ground, parent⟩ := rooted.attached tidy sound length mem
  exact ⟨p, parent, Set.disjoint_left.mp rooted.apart ground⟩

/-- A pass leaves what is mounted in the instance as it is, and where it is. -/
theorem mounted_after_pass {s₁ : Stage κ} {children : List Mount} {next : Snapshot}
    (rooted : t.Rooted terms s.document root snapshot (children.map Mount.node) rest place values)
    (loose : ¬terms.coherent) (behaves : host.Behaves terms held) (tidy : t.Tidy terms.builtin)
    (sound : s.document.Sound)
    (mounted : Extension.StandAll terms s.document t.extensions children rest)
    (wrote : t.update host scope root snapshot s = .ok next s₁) :
    s₁.document.Sound ∧ s.document.Agrees terms.builtin rest s₁.document ∧
      ∀ x ∈ children.map Mount.node, ∃ p, s₁.document.parent? x = some p ∧ p ∉ rest := by
  have pass := rooted.own.update_ends behaves tidy rooted.remembers sound fun coherent =>
    ⟨Heap.knows_nothing loose held scope s coherent, absurd coherent loose⟩
  rw [rooted.root] at pass
  obtain ⟨news, own, remembers, _, spares, _⟩ := pass.ok wrote
  have rooted₁ : t.Rooted terms s₁.document root (some next) (children.map Mount.node) rest place
      news := ⟨rooted.root, own, remembers, rooted.filled, rooted.apart⟩
  have length : (children.map Mount.node).length = t.extensions.length := by
    rw [List.length_map, mounted.length_eq]
  exact ⟨spares.sound, spares.agrees mounted.region rooted.apart.symm fun _ _ => rfl,
    rooted₁.attached_outside tidy spares.sound length⟩

theorem fixed (rooted : t.Rooted terms doc root snapshot mounted rest place values)
    (moves : doc.Moves terms.builtin rest mounted f doc') (inside : ∀ x ∈ mounted, x ∈ rest) :
    ∀ x ∈ t.ground place, f x = x := fun x mem =>
  moves.fixed x fun mem' => Set.disjoint_left.mp rooted.apart mem (inside x mem')

/-- Other nodes are mounted in an instance. -/
theorem move (rooted : t.Rooted terms doc root snapshot mounted rest place values)
    (moves : doc.Moves terms.builtin rest mounted f doc') (inside : ∀ x ∈ mounted, x ∈ rest)
    (within : ∀ x ∈ rest', x ∈ rest ∨ doc.get? x = none) :
    t.Rooted terms doc' root snapshot (mounted.map f) rest' (f ∘ place) values := by
  have fixed := rooted.fixed moves inside
  have top : place [] ∈ t.ground place := ⟨[], _, Plan.at?_nil _, rooted.own.solid, rfl⟩
  refine ⟨(fixed _ top).trans rooted.root, ?_, rooted.remembers, rooted.filled.comp f, ?_⟩
  · refine rooted.own.follow (fun x node mem found => ?_) fixed moves.keeps.listening
    obtain ⟨node', found', _, follows⟩ :=
      moves.keeps.nodes x node (Set.disjoint_left.mp rooted.apart mem) found
    exact ⟨node', found', follows⟩
  · rw [ground_comp fixed]
    refine Set.disjoint_left.mpr fun x mem mem' => ?_
    rcases within x mem' with mem' | gone
    · exact Set.disjoint_left.mp rooted.apart mem mem'
    · obtain ⟨q, p, part, solid, rfl⟩ := mem
      obtain ⟨node, live, _⟩ := rooted.own.node q p part solid
      rw [gone] at live
      cases live

end Rooted
end Template

/-! ## What each function promises -/

/-- Creating a subtree gives a new part of the document, or an error and no change of the old
nodes. An instance that cannot be created leaves nodes behind. -/
def Subtree.Creates (terms : Terms) (host : Host κ) (held : κ → Heap) (scope : Scope)
    (subtree : Subtree) : Prop :=
  ∀ s heap, s.document.Sound → (terms.coherent → Heap.Knows heap held scope s) →
    Ends (subtree.create host scope) s
      (fun m s' => ∃ part, subtree.Created terms host held scope heap s m s' part)
      (fun s' => s.document.Retains terms.builtin s'.document ∧
        ∀ t, subtree = .template t → s.document.Gains s'.document)

/-- Updating a live subtree that is below another node. -/
def Subtree.Updates (terms : Terms) (host : Host κ) (held : κ → Heap) (scope : Scope)
    (subtree : Subtree) : Prop :=
  ∀ m part s heap, s.document.Sound →
    (terms.coherent → Heap.Knows heap held scope s ∧ m.Fits heap) →
    subtree.Stands terms s.document m part →
    (∃ p, s.document.parent? m.node = some p ∧ p ∉ part) →
    ∃ part', subtree.Refreshed terms host held scope heap s m part
      (subtree.update host scope m s).1 (subtree.update host scope m s).2 part'

/-- Updating an instance, which keeps its root. -/
def Template.Updates (terms : Terms) (host : Host κ) (held : κ → Heap) (scope : Scope)
    (t : Template) : Prop :=
  ∀ m part s heap, s.document.Sound →
    (terms.coherent → Heap.Knows heap held scope s ∧ m.Fits heap) →
    t.Stands terms s.document m part →
    (t.updateMount host scope m s).1.live.node = m.node ∧
    (t.updateMount host scope m s).2.document.parent? m.node = s.document.parent? m.node ∧
    ∃ part', (Subtree.template t).Refreshed terms host held scope heap s m part
      (t.updateMount host scope m s).1 (t.updateMount host scope m s).2 part'

/-- Mounting extension points in the place of some nodes. -/
def Extension.CreatesAll (terms : Terms) (host : Host κ) (held : κ → Heap) (scope : Scope)
    (extensions : List Extension) : Prop :=
  ∀ placeholders index holes s heap, s.document.Sound →
    (terms.coherent → Heap.Knows heap held scope s) →
    s.document.Vacant holes → holes.length = extensions.length →
    (∀ i h, holes[i]? = some h → placeholders.lookup (index + i) = some h) →
    Ends (Extension.createAll host scope placeholders index extensions) s
      (fun ms s' => ∃ rest f, Extension.AllCreated terms host held scope heap s holes extensions ms
        s' rest f)
      (fun s' => ∃ f, s.document.Moves terms.builtin (fun x => x ∈ holes) holes f s'.document)

def Extension.UpdatesAll (terms : Terms) (host : Host κ) (held : κ → Heap) (scope : Scope)
    (extensions : List Extension) : Prop :=
  ∀ ms part s heap, s.document.Sound →
    (terms.coherent → Heap.Knows heap held scope s ∧ Mount.AllFit heap ms) →
    Extension.StandAll terms s.document extensions ms part →
    (∀ x ∈ ms.map Mount.node, ∃ p, s.document.parent? x = some p ∧ p ∉ part) →
    ∃ part' f, Extension.AllRefreshed terms host held scope heap s extensions ms part
      (Extension.updateAll host scope extensions ms s).1
      (Extension.updateAll host scope extensions ms s).2 part' f

theorem Ends.modifyGet {ε σ α : Type} {f : σ → α × σ} {s : σ} {ok : α → σ → Prop}
    {failed : σ → Prop} (h : ok (f s).1 (f s).2) :
    Ends (MonadStateOf.modifyGet f : EStateM ε σ α) s ok failed := h

theorem Construction.onStage_ends {α : Type} {construction : Construction α} {s : Stage κ}
    {ok : α → Site → Prop} {failed : Site → Prop}
    (h : Ends construction { document := s.document } ok failed) :
    Ends construction.onStage s
      (fun r s' => ok r.1 r.2 ∧ s' = { s with document := r.2.document })
      (fun s' => ∃ site, failed site ∧ s' = { s with document := site.document }) := by
  unfold Ends at h ⊢
  unfold Construction.onStage
  cases run : construction { document := s.document } with
  | ok a site => rw [run] at h; exact ⟨h, rfl⟩
  | error e site => rw [run] at h; exact ⟨site, h, rfl⟩

theorem Condition.holds_of_check {condition : Condition} {b : Bool} {s s' : Stage κ}
    (run : condition.check host scope s = .ok b s') :
    condition.holds host.calls scope s = .ok b s' := by
  unfold Condition.check at run
  split at run
  · rename_i holds
    cases run
    exact holds
  · cases run

theorem Condition.check_ends (behaves : host.Behaves terms held) (condition : Condition)
    (knows : terms.coherent → heap.Knows held scope s) :
    Ends (condition.check host scope) s
      (fun b s' => s'.document = s.document ∧
        (terms.coherent → condition.Decides host held scope b) ∧
        ∃ more : Heap, more.Extends heap ∧ (terms.coherent → more.Knows held scope s'))
      (fun s' => s'.document = s.document) := by
  have leaves := condition.check_leaves behaves.quiet scope s
  refine Ends.of_run (fun b s' run => ?_) fun e s' run => by rw [run] at leaves; exact leaves
  rw [run] at leaves
  have holds := Condition.holds_of_check run
  refine ⟨leaves, fun hc => ⟨s, s', heap, knows hc, holds⟩, ?_⟩
  by_cases hc : terms.coherent
  · obtain ⟨more, larger, covers⟩ :=
      (behaves.consistent hc).holds (knows hc).covers (knows hc).fits holds
    exact ⟨more, larger, fun _ => (knows hc).grow larger covers⟩
  · exact ⟨heap, .refl heap, fun hc' => absurd hc' hc⟩

/-! ## Extension points -/

theorem Extension.createsAll_nil : Extension.CreatesAll terms host held scope [] := by
  intro placeholders index holes s heap sound knows vacant length look
  obtain rfl := List.length_eq_zero_iff.mp length
  rw [Extension.createAll]
  refine ⟨∅, id, ?_, ?_, ?_, ⟨fun _ _ => rfl, .refl sound⟩, rfl, ?_, ?_⟩
  · rw [Extension.StandAll]
  · exact fun x mem => (Set.notMem_empty x mem).elim
  · exact fun x live => .inr ⟨List.not_mem_nil, live⟩
  · exact ⟨heap, .refl heap, fun hc => ⟨(knows hc).covers, fun c mem => (List.not_mem_nil mem).elim⟩⟩
  · intro _
    rw [Extension.UnderAll]
    trivial

theorem Extension.createAll_cons (path : Path) (name : String) (subtree : Subtree)
    (extensions : List Extension) (placeholders : List (Nat × NodeId)) (index : Nat) :
    Extension.createAll host scope placeholders index (⟨path, name, subtree⟩ :: extensions) = (do
      let m ← subtree.create host scope
      modify ((placeholders.lookup index).elim id fun placeholder =>
        (·.edit (swapNodes placeholder m.node)))
      let ms ← Extension.createAll host scope placeholders (index + 1) extensions
      return m :: ms) := by
  rw [Extension.createAll]
  refine bind_congr fun m => ?_
  cases placeholders.lookup index <;> rfl

theorem Extension.createsAll_cons {path : Path} {name : String} {subtree : Subtree}
    {extensions : List Extension} (creates : subtree.Creates terms host held scope)
    (rest : Extension.CreatesAll terms host held scope extensions) :
    Extension.CreatesAll terms host held scope (⟨path, name, subtree⟩ :: extensions) := by
  intro placeholders index holes s heap sound knows vacant length look
  obtain ⟨h, hs, rfl⟩ := List.exists_cons_of_length_eq_add_one length
  rw [Extension.createAll]
  refine Ends.bind ((creates s heap sound knows).imp ?_ ?_)
  · rintro m s₁ ⟨part, created⟩
    have found : placeholders.lookup index = some h := look 0 h rfl
    obtain ⟨keeps, _, _, vacant'⟩ := created.swapIn vacant
    obtain ⟨more, larger, known⟩ := created.grown
    have knows' : terms.coherent → more.Knows held scope (s₁.edit (swapNodes h m.node)) := fun hc =>
      (knows hc).grow larger ⟨(known hc).1.sound, (known hc).1.held⟩
    rw [found]
    refine Ends.bind (Ends.modifyGet ?_)
    refine Ends.bind ((rest placeholders (index + 1) hs _ more keeps.sound knows' vacant'
      (Nat.succ.inj length) fun i x hx => ?_).imp ?_ ?_)
    · rw [Nat.add_right_comm]
      exact look (i + 1) x hx
    · rintro ms s₃ ⟨there, f, others⟩
      exact ⟨_, _, .cons created vacant larger (fun hc => (known hc).2) others⟩
    · rintro s₃ ⟨f, moves⟩
      exact ⟨_, .cons keeps moves⟩
  · rintro s₁ ⟨retains, -⟩
    exact ⟨id, fun _ _ => rfl, retains.mono (Set.empty_subset _)⟩

theorem Extension.updateAll_nil (ms : List Mount) (s : Stage κ) :
    Extension.updateAll host scope [] ms s = (⟨ms, none⟩, s) := by
  rw [Extension.updateAll]
  intros
  contradiction

theorem Extension.updatesAll_nil : Extension.UpdatesAll terms host held scope [] := by
  intro ms part s heap sound known mounted attached
  cases mounted.eq_nil
  rw [Extension.updateAll_nil]
  refine ⟨part, id, mounted, fun x mem => .inl mem, ⟨fun _ _ => rfl, .refl sound⟩,
    fun _ => .refl part _, fun bad => absurd rfl bad, rfl, ?_, ?_⟩
  · exact fun _ => ⟨heap, .refl heap, fun hc => ⟨(known hc).1.covers, (known hc).2⟩⟩
  · intro _ _
    rw [Extension.UnderAll]
    trivial

theorem Extension.updatesAll_cons {path : Path} {name : String} {subtree : Subtree}
    {extensions : List Extension} (updates : subtree.Updates terms host held scope)
    (rest : Extension.UpdatesAll terms host held scope extensions) :
    Extension.UpdatesAll terms host held scope (⟨path, name, subtree⟩ :: extensions) := by
  intro ms part s heap sound known mounted attached
  obtain ⟨m, ms, here, there, rfl, rfl, disjoint, stands, mounted⟩ := mounted.exists_cons
  have attached' : ∀ x ∈ ms.map Mount.node, ∃ p, s.document.parent? x = some p ∧ p ∉ here ∪ there :=
    fun x mem => attached x (List.mem_cons_of_mem _ mem)
  obtain ⟨p, parent, out⟩ := attached m.node List.mem_cons_self
  obtain ⟨here', first⟩ := updates m here s heap sound
    (fun hc => ⟨(known hc).1, fun c mem => (known hc).2 c (List.mem_append_left _ mem)⟩) stands
    ⟨p, parent, fun mem => out (.inl mem)⟩
  rw [Extension.updateAll]
  rcases run : subtree.update host scope m s with ⟨⟨m', error⟩, s₁⟩
  rw [run] at first
  cases error with
  | some e => exact ⟨_, _, .stop stands mounted disjoint run first⟩
  | none =>
    obtain ⟨more, larger, known'⟩ := first.grown rfl
    have agrees := first.agrees stands disjoint mounted.region
    obtain ⟨there', f, others⟩ := rest ms there s₁ more first.keeps.sound
      (fun hc => ⟨(known hc).1.grow larger (known' hc).1, fun c mem =>
        ((known hc).2 c (List.mem_append_right _ mem)).mono larger⟩) (mounted.agrees agrees)
      (first.attached disjoint mounted attached')
    exact ⟨_, _, .cons stands mounted disjoint run first larger (fun hc => (known' hc).2) others⟩

/-! ## One instance -/

namespace Template

variable {t : Template}

theorem updateMount_template (t : Template) (root : NodeId) (snapshot : Option Snapshot)
    (children : List Mount) (s : Stage κ) :
    t.updateMount host scope (.template root snapshot children) s =
      match t.update host scope root snapshot s with
      | .error e s => (⟨.template root snapshot children, some e⟩, s)
      | .ok next s =>
        let (updated, s) := Extension.updateAll host scope t.extensions children s
        (⟨.template root (some next) updated.live, updated.error⟩, s) := by
  obtain ⟨id, plan, bindings, anchors, extensions, events, handlers⟩ := t
  exact updateMount.eq_1 ..

theorem strands_template (t : Template) (root : NodeId) (snapshot : Option Snapshot)
    (children : List Mount) (s : Stage κ) :
    (Subtree.template t).strands host scope (.template root snapshot children) s =
      match t.update host scope root snapshot s with
      | .error _ _ => false
      | .ok _ s => Extension.anyStrands host scope t.extensions children s := by
  obtain ⟨id, plan, bindings, anchors, extensions, events, handlers⟩ := t
  rw [Subtree.strands, Template.strands]

theorem under_template {m : Mount} : (Subtree.template t).Under host held scope m ↔
    ∃ root snapshot children, m = .template root snapshot children ∧ snapshot ≠ none ∧
      (∃ values, t.Remembers snapshot values ∧ t.Computes host held scope values) ∧
      Extension.UnderAll host held scope t.extensions children := by
  obtain ⟨id, plan, bindings, anchors, extensions, events, handlers⟩ := t
  rw [Subtree.Under]
  cases m with
  | conditional node body =>
    rw [Template.Under]
    refine ⟨False.elim, ?_⟩
    rintro ⟨_, _, _, same, _⟩
    cases same
  | template root snapshot children =>
    rw [Template.Under]
    constructor
    · exact fun h => ⟨root, snapshot, children, rfl, h⟩
    · rintro ⟨_, _, _, same, h⟩
      cases same
      exact h

theorem Remembers.fits {snapshot : Option Snapshot} {values : List (Binding × Computed)}
    (remembers : t.Remembers snapshot values) {root : NodeId} {children : List Mount} {heap : Heap} :
    (Mount.template root snapshot children).Fits heap ↔
      (∀ p ∈ values, p.2.Fits heap) ∧ Mount.AllFit heap children := by
  unfold Mount.Fits Mount.AllFit
  rw [Mount.values]
  cases remembers with
  | nothing => simp
  | pass values applied bound =>
    simp only [snapshotOf, Option.map_some, Option.getD_some, List.map_map, List.forall_mem_append,
      List.forall_mem_map]
    rfl

/-- The nodes of others are kept while an instance is updated. -/
theorem Rooted.spares {doc doc₁ doc' : Document} {root : NodeId} {snapshot : Option Snapshot}
    {mounted : List NodeId} {rest : Set NodeId} {place : List Nat → NodeId}
    {values : List (Binding × Computed)} {f : NodeId → NodeId}
    (rooted : t.Rooted terms doc root snapshot mounted rest place values) (tidy : t.Tidy terms.builtin)
    (sound : doc.Sound) (length : mounted.length = t.extensions.length)
    (spares : doc.Spares terms.builtin (t.ground place) doc₁)
    (moves : doc₁.Moves terms.builtin rest mounted f doc') :
    doc.Spares terms.builtin (t.ground place ∪ rest) doc' := by
  have keeps := (spares.mono Set.subset_union_left).trans (moves.keeps.mono Set.subset_union_right)
  refine keeps.congr fun x node out found c hc => moves.fixed c fun mem => ?_
  -- The parent of what is mounted is a node of the plan.
  obtain ⟨p, ground, parent⟩ := rooted.attached tidy sound length mem
  obtain ⟨below, live, back⟩ := sound.links.pointsBack found hc
  rw [parent?, live, Option.bind_some, back] at parent
  exact out (.inl (Option.some.inj parent ▸ ground))

theorem updates (behaves : host.Behaves terms held) (tidy : t.Tidy terms.builtin)
    (rest : Extension.UpdatesAll terms host held scope t.extensions) :
    t.Updates terms host held scope := by
  intro m part s heap sound known stands
  obtain ⟨root, snapshot, children, place, values, rest', rfl, rooted, rfl, mounted⟩ :=
    Template.stands_iff.mp stands
  have fits := fun hc => rooted.remembers.fits.mp (known hc).2
  have pass := rooted.own.update_ends behaves tidy rooted.remembers sound
    fun hc => ⟨(known hc).1, (fits hc).1⟩
  rw [rooted.root] at pass
  rw [updateMount_template]
  have length : (children.map Mount.node).length = t.extensions.length := by
    rw [List.length_map, mounted.length_eq]
  cases run : t.update host scope root snapshot s with
  | error e s₁ =>
    have same := pass.error run
    refine ⟨rfl, by rw [same], t.ground place ∪ rest', ?_, fun x mem => .inl mem, ?_, nofun,
      fun _ => ?_, nofun, nofun⟩
    · rw [Subtree.Stands, same]
      exact stands
    · rw [relabel_eq_id, same]
      exact .refl sound
    · rw [strands_template, run, same]
      exact iff_of_true (.refl _ _) rfl
  | ok next s₁ =>
    obtain ⟨news, own, remembers, computes, spares, parents, dead, more, larger, known'⟩ :=
      pass.ok run
    have rooted₁ : t.Rooted terms s₁.document root (some next) (children.map Mount.node) rest'
        place news := ⟨rooted.root, own, remembers, rooted.filled, rooted.apart⟩
    have mounted₁ := mounted.agrees
      (spares.agrees mounted.region rooted.apart.symm fun _ _ => rfl)
    obtain ⟨rest'', f, refreshed⟩ := rest children rest' s₁ more spares.sound
      (fun hc => ⟨(known hc).1.grow larger (known' hc).1, fun c mem =>
        ((fits hc).2 c mem).mono larger⟩) mounted₁
      (rooted₁.attached_outside tidy spares.sound length)
    have inside : ∀ x ∈ children.map Mount.node, x ∈ rest' := fun x => mounted₁.node_mem
    have wrote := Exchanges.of_dead dead (t.ground place)
    refine ⟨rfl, ?_, t.ground place ∪ rest'', ?_, ?_, ?_, fun ok => wrote.union (refreshed.clean ok),
      fun bad => ?_, fun ok => ?_, fun ok hc => ?_⟩
    · obtain ⟨node, live, _⟩ := own.node [] _ (Plan.at?_nil _) own.solid
      rw [rooted.root] at live
      have out : root ∉ rest' := fun mem => Set.disjoint_left.mp rooted.apart
        ⟨[], _, Plan.at?_nil _, own.solid, rooted.root.symm⟩ mem
      exact (refreshed.moves.keeps.parent out live).trans (parents root)
    · rw [Subtree.Stands]
      refine Template.stands_iff.mpr ⟨root, some next, _, f ∘ place, news, rest'', rfl, ?_, ?_,
        refreshed.stands⟩
      · rw [refreshed.nodes]
        exact rooted₁.move refreshed.moves inside refreshed.within
      · rw [ground_comp (rooted₁.fixed refreshed.moves inside)]
    · rintro x (mem | mem)
      · exact .inl (.inl mem)
      · rcases refreshed.within x mem with mem | gone
        · exact .inl (.inr mem)
        · exact (spares.dead gone).imp_left .inl
    · change s.document.Keeps terms.builtin _ (relabel root root) _
      rw [relabel_eq_id]
      exact rooted.spares tidy sound length spares refreshed.moves
    · rw [strands_template, run]
      refine (wrote.union_iff spares ?_ rooted.apart).trans (refreshed.stopped bad)
      rintro _ ⟨q, p, found, solid, rfl⟩
      obtain ⟨node, live, _⟩ := own.node q p found solid
      rw [live]
      exact Option.some_ne_none node
    · obtain ⟨most, grown, known''⟩ := refreshed.grown ok
      refine ⟨most, larger.trans grown, fun hc => ⟨(known'' hc).1,
        remembers.fits.mpr ⟨fun p hp => ?_, (known'' hc).2⟩⟩⟩
      exact ((known' hc).2 p hp).mono grown
    · exact under_template.mpr ⟨root, some next, _, rfl, Option.some_ne_none next,
        ⟨news, remembers, computes hc⟩, refreshed.under ok hc⟩

/-- The nodes of a new instance, with what is mounted in them, before the first pass. -/
structure Built (terms : Terms) (held : κ → Heap) (heap : Heap) (s : Stage κ) (t : Template)
    (root : NodeId) (children : List Mount) (s' : Stage κ) (part : Set NodeId) : Prop where
  stands : t.Stands terms s'.document (.template root none children) part
  fresh : ∀ x ∈ part, s.document.get? x = none
  only : s.document.Exchanges ∅ part s'.document
  retains : s.document.Retains terms.builtin s'.document
  detached : s'.document.parent? root = none
  grown : heap.Grown terms held s' fun more => (Mount.template root none children).Fits more

theorem create_ends (tidy : t.Tidy terms.builtin)
    (all : Extension.CreatesAll terms host held scope t.extensions) (sound : s.document.Sound)
    (knows : terms.coherent → heap.Knows held scope s) :
    Ends (t.create host scope) s
      (fun r s' => ∃ part, t.Built terms held heap s r.1 r.2 s' part)
      (fun s' => s.document.Retains terms.builtin s'.document ∧ s.document.Gains s'.document) := by
  unfold create
  refine Ends.bind ((Construction.onStage_ends (buildPlan_ends scope t sound)).imp ?_ ?_)
  · rintro ⟨root, site⟩ s₁ ⟨⟨place, rfl, raised⟩, rfl⟩
    have retains₁ := raised.keeps.loosen terms.builtin
    have knows₁ : terms.coherent → heap.Knows held scope { s with document := site.document } :=
      fun hc => (knows hc).grow (.refl heap) ⟨(knows hc).covers.sound, (knows hc).covers.held⟩
    have fresh : ∀ x ∈ t.holePlaces place, s.document.get? x = none := by
      intro x mem
      obtain ⟨index, q, spot, rfl⟩ := mem_holePlaces.mp mem
      exact raised.fresh q _ (Plan.mem_holes.mp spot)
    have since {f : NodeId → NodeId} {doc' : Document}
        (moves : site.document.Moves terms.builtin (fun x => x ∈ t.holePlaces place)
          (t.holePlaces place) f doc') : s.document.Retains terms.builtin doc' := by
      refine moves.keeps.since retains₁ sound fresh fun x live => moves.fixed x fun mem => ?_
      exact live (fresh x mem)
    obtain ⟨top, found, _⟩ := raised.laid.node [] _ (Plan.at?_nil _)
    have out := raised.not_hole ⟨[], _, Plan.at?_nil _, tidy.solid, rfl⟩
    refine Ends.bind ((all site.placeholders 0 (t.holePlaces place) _ heap retains₁.sound knows₁
      (raised.vacant tidy) (length_holePlaces tidy place) fun i h hi => ?_).imp ?_ ?_)
    · rw [Nat.zero_add]
      exact raised.lookup tidy hi
    · rintro children s₂ ⟨rest, f, created⟩
      have rooted₁ : t.Rooted terms site.document (place []) none (t.holePlaces place)
          (fun x => x ∈ t.holePlaces place) place [] :=
        ⟨rfl, raised.own tidy, .nothing, tidy.filled place,
          Set.disjoint_left.mpr fun x mem => raised.not_hole mem⟩
      have rooted₂ := rooted₁.move created.moves (fun x mem => mem) created.within
      rw [← created.nodes] at rooted₂
      refine ⟨t.ground place ∪ rest, ?_, ?_, fun x live => ?_, since created.moves, ?_, ?_⟩
      · refine Template.stands_iff.mpr ⟨_, none, children, f ∘ place, [], rest, rfl, rooted₂, ?_,
          created.stands⟩
        rw [ground_comp (rooted₁.fixed created.moves fun x mem => mem)]
      · rintro x (⟨q, p, part, _, rfl⟩ | mem)
        · exact raised.fresh q p part
        · rcases created.within x mem with hole | gone
          · exact fresh x hole
          · exact (retains₁.dead gone).resolve_left (Set.notMem_empty x)
      · rcases created.only x live with mem | ⟨out, live⟩
        · exact .inl (.inr mem)
        · rcases raised.only x live with before | ⟨q, p, found, rfl⟩
          · exact .inr ⟨Set.notMem_empty x, before⟩
          · exact .inl (.inl ⟨q, p, found, solid_of_not_hole found out, rfl⟩)
      · exact (created.moves.keeps.parent out found).trans raised.detached
      · obtain ⟨more, larger, known⟩ := created.grown
        exact ⟨more, larger, fun hc => ⟨(known hc).1, rooted₂.remembers.fits.mpr
          ⟨fun p mem => (List.not_mem_nil mem).elim, (known hc).2⟩⟩⟩
    · rintro s₂ ⟨f, moves⟩
      exact ⟨since moves, place [], raised.fresh [] _ (Plan.at?_nil _), moves.keeps.live out found⟩
  · rintro s₁ ⟨site, ⟨retains, gains⟩, rfl⟩
    exact ⟨retains.loosen terms.builtin, gains⟩

/-- Making an instance ends with an update, the first one. -/
theorem createMount_eq (t : Template) :
    t.createMount host scope = (do
      let (root, children) ← t.create host scope
      fun s =>
        match t.updateMount host scope (.template root none children) s with
        | (⟨live, none⟩, s) => .ok live s
        | (⟨_, some e⟩, s) => .error e s) := by
  obtain ⟨id, plan, bindings, anchors, extensions, events, handlers⟩ := t
  rw [createMount, create, bind_assoc]
  refine bind_congr fun ⟨root, site⟩ => ?_
  rw [bind_assoc]
  refine bind_congr fun children => ?_
  rw [pure_bind]
  refine funext fun s => ?_
  dsimp only
  rw [updateMount_template]
  cases run : update host ⟨id, plan, bindings, anchors, extensions, events, handlers⟩ scope root
      none s with
  | error e s₁ => exact bind_of_error run
  | ok next s₁ =>
    rw [bind_of_ok run]
    have all : (modifyGet (Extension.updateAll host scope extensions children) :
        Eval (Stage κ) _) s₁ = .ok (Extension.updateAll host scope extensions children s₁).1
          (Extension.updateAll host scope extensions children s₁).2 := rfl
    rw [bind_of_ok all]
    cases failed : (Extension.updateAll host scope extensions children s₁).1.error <;>
      simp only [failed] <;> rfl

theorem creates (tidy : t.Tidy terms.builtin)
    (all : Extension.CreatesAll terms host held scope t.extensions)
    (updates : t.Updates terms host held scope) :
    (Subtree.template t).Creates terms host held scope := by
  intro s heap sound knows
  rw [Subtree.create, createMount_eq]
  refine Ends.bind ((create_ends tidy all sound knows).imp ?_ fun _ h => ⟨h.1, fun _ _ => h.2⟩)
  rintro ⟨root, children⟩ s₁ ⟨part, built⟩
  obtain ⟨more, larger, known⟩ := built.grown
  obtain ⟨node, parent, part', refreshed⟩ := updates _ _ s₁ more built.retains.sound
    (fun hc => ⟨(knows hc).grow larger (known hc).1, (known hc).2⟩) built.stands
  have retains := refreshed.keeps.since built.retains sound built.fresh fun x _ => by
    rw [node, relabel_eq_id]
    rfl
  rcases run : t.updateMount host scope (.template root none children) s₁ with
    ⟨⟨live, error⟩, s₂⟩
  rw [run] at node parent refreshed retains
  cases error with
  | some e =>
    refine Ends.of_error (by dsimp only; rw [run]) ⟨retains, fun _ _ => ⟨root, ?_, ?_⟩⟩
    · exact built.fresh root built.stands.node_mem
    · obtain ⟨top, found, _⟩ := refreshed.stands.region _ refreshed.stands.node_mem
      rw [show live.node = root from node] at found
      rw [found]
      exact Option.some_ne_none top
  | none =>
    refine Ends.of_ok (by dsimp only; rw [run]) ⟨part', refreshed.stands, fun x mem => ?_,
      fun x live => ?_, retains, ?_, ?_, refreshed.under rfl⟩
    · rcases refreshed.within x mem with mem | gone
      · exact built.fresh x mem
      · exact (built.retains.dead gone).resolve_left (Set.notMem_empty x)
    · rcases refreshed.clean rfl x live with mem | ⟨out, before⟩
      · exact .inl mem
      · exact (built.only x before).imp_left fun mem => (out mem).elim
    · rw [show live.node = root from node]
      exact parent.trans built.detached
    · obtain ⟨most, grown, known'⟩ := refreshed.grown rfl
      exact ⟨most, larger.trans grown, known'⟩

end Template
/-! ## Conditions -/

namespace Subtree

variable {condition : Condition} {body : Subtree} {more : Heap}

/-- The comment that stands where nothing is shown. -/
theorem hidden_created (sound : s.document.Sound)
    (covers : terms.coherent → heap.Covers held s)
    (decides : terms.coherent → condition.Decides host held scope false) :
    (Subtree.conditional condition body).Created terms host held scope heap s
      (.conditional (makeHidden s).1 none) (makeHidden s).2 {(makeHidden s).1} := by
  have adds : s.document.Adds (makeHidden s).2.document (makeHidden s).1
      { content := .comment "v-if" } :=
    adds_insert sound (.comment "v-if") trivial _
  refine ⟨?_, ?_, fun x live => ?_, ?_, ?_, ⟨heap, .refl heap, fun hc =>
    ⟨⟨(covers hc).sound, (covers hc).held⟩, ?_⟩⟩, fun hc => ?_⟩
  · rw [Subtree.Stands]
    exact ⟨rfl, _, adds.self, fun _ => rfl, rfl, rfl, rfl⟩
  · rintro x rfl
    exact adds.fresh
  · exact (adds.only live).symm.imp_right fun before => ⟨Set.notMem_empty x, before⟩
  · exact (Template.keeps_of_grows (fun h => h) (fun _ h => h) (fun _ => rfl)
      adds.grows).loosen terms.builtin
  · change (makeHidden s).2.document.parent? (makeHidden s).1 = none
    rw [parent?, adds.self]
    rfl
  · intro c mem
    rw [Mount.values] at mem
    cases mem
  · rw [Subtree.Under]
    exact decides hc

/-- A stage with the same document serves as well. -/
theorem Created.of_document {subtree : Subtree} {m : Mount} {s' : Stage κ} {part : Set NodeId}
    (created : subtree.Created terms host held scope more s₁ m s' part)
    (same : s₁.document = s.document) (larger : more.Extends heap) :
    subtree.Created terms host held scope heap s m s' part := by
  obtain ⟨most, grown, known⟩ := created.grown
  exact ⟨created.stands, same ▸ created.fresh, same ▸ created.only, same ▸ created.retains,
    created.detached, ⟨most, larger.trans grown, known⟩, created.under⟩

/-- What a condition shows. -/
theorem Created.shown {m : Mount} {part : Set NodeId}
    (created : body.Created terms host held scope heap s m s₁ part)
    (decides : terms.coherent → condition.Decides host held scope true) :
    (Subtree.conditional condition body).Created terms host held scope heap s
      (.conditional m.node (some m)) s₁ part := by
  refine ⟨?_, created.fresh, created.only, created.retains, created.detached, ?_, fun hc => ?_⟩
  · rw [Subtree.Stands]
    exact ⟨rfl, created.stands⟩
  · obtain ⟨most, grown, known⟩ := created.grown
    refine ⟨most, grown, fun hc => ⟨(known hc).1, fun c mem => (known hc).2 c ?_⟩⟩
    rwa [Mount.values] at mem
  · rw [Subtree.Under]
    exact ⟨decides hc, created.under hc⟩

theorem conditional_creates (behaves : host.Behaves terms held)
    (creates : body.Creates terms host held scope) :
    (Subtree.conditional condition body).Creates terms host held scope := by
  intro s heap sound knows
  rw [Subtree.create]
  refine Ends.bind ((condition.check_ends behaves knows).imp ?_ fun s₁ same => ?_)
  · rintro b s₁ ⟨same, decides, more, larger, knows₁⟩
    have sound₁ : s₁.document.Sound := same ▸ sound
    cases b with
    | true =>
      refine Ends.bind ((creates s₁ more sound₁ knows₁).imp ?_ ?_)
      · rintro m s₂ ⟨part, created⟩
        exact ⟨part, (created.of_document same larger).shown decides⟩
      · rintro s₂ ⟨retains, -⟩
        rw [same] at retains
        exact ⟨retains, nofun⟩
    | false =>
      refine Ends.bind (Ends.modifyGet ⟨{(makeHidden s₁).1}, ?_⟩)
      exact (hidden_created sound₁ (fun hc => (knows₁ hc).covers) decides).of_document same larger
  · rw [same]
    exact ⟨.refl sound, nofun⟩

/-- What was created is shown in the place of what stood there. -/
theorem Created.refreshed {subtree : Subtree} {m m' : Mount} {part part' : Set NodeId}
    (created : subtree.Created terms host held scope heap s m' s₁ part') {p : NodeId}
    (proper : subtree.Each (Template.Tidy terms.builtin))
    (stands : subtree.Stands terms s.document m part)
    (hp : s.document.parent? m.node = some p) (out : p ∉ part) :
    subtree.Refreshed terms host held scope heap s m part ⟨m', none⟩
      (s₁.edit (swapNodes m.node m'.node)) part' := by
  obtain ⟨keeps, stands', only⟩ :=
    created.swapFor stands.region stands.node_mem (stands.below proper) hp out
  refine ⟨stands', fun x mem => .inr (created.fresh x mem), keeps, fun _ => only,
    fun bad => absurd rfl bad, fun _ => ?_, fun _ => created.under⟩
  obtain ⟨most, grown, known⟩ := created.grown
  exact ⟨most, grown, fun hc => ⟨⟨(known hc).1.sound, (known hc).1.held⟩, (known hc).2⟩⟩

theorem Refreshed.unchanged {subtree : Subtree} {m : Mount} {part : Set NodeId}
    (stands : subtree.Stands terms s.document m part)
    (retains : s.document.Retains terms.builtin s₁.document) {error : Option EvalError}
    (clean : error = none → s.document.Exchanges part part s₁.document)
    (stopped : error ≠ none → (s.document.Exchanges part part s₁.document ↔
      subtree.strands host scope m s = false))
    (grown : error = none → heap.Grown terms held s₁ fun more => m.Fits more)
    (under : error = none → terms.coherent → subtree.Under host held scope m) :
    subtree.Refreshed terms host held scope heap s m part ⟨m, error⟩ s₁ part := by
  refine ⟨stands.agrees ?_, fun x mem => .inl mem, ?_, clean, stopped, grown, under⟩
  · exact retains.agrees stands.region (Set.disjoint_empty part) fun _ _ => rfl
  · rw [relabel_eq_id]
    exact retains.mono (Set.empty_subset part)

/-- What is shown is updated. -/
theorem Refreshed.shown {live : Mount} {part part' : Set NodeId} {updated : Updated Mount}
    {s₂ : Stage κ}
    (refreshed : body.Refreshed terms host held scope more s₁ live part updated s₂ part')
    (kept : updated.live.node = live.node) (same : s₁.document = s.document)
    (larger : more.Extends heap) (run : condition.check host scope s = .ok true s₁)
    (decides : terms.coherent → condition.Decides host held scope true) :
    (Subtree.conditional condition body).Refreshed terms host held scope heap s
      (.conditional live.node (some live)) part
      ⟨.conditional live.node (some updated.live), updated.error⟩ s₂ part' := by
  refine ⟨?_, ?_, ?_, fun ok => same ▸ refreshed.clean ok, fun bad => ?_, fun ok => ?_,
    fun ok hc => ?_⟩
  · rw [Subtree.Stands]
    exact ⟨kept.symm, refreshed.stands⟩
  · rw [← same]
    exact refreshed.within
  · have keeps := refreshed.keeps
    rw [kept, same] at keeps
    exact keeps
  · rw [Subtree.strands, run, ← same]
    exact refreshed.stopped bad
  · obtain ⟨most, grown, known⟩ := refreshed.grown ok
    refine ⟨most, larger.trans grown, fun hc => ⟨(known hc).1, fun c mem => (known hc).2 c ?_⟩⟩
    rwa [Mount.values] at mem
  · rw [Subtree.Under]
    exact ⟨decides hc, refreshed.under ok hc⟩

theorem conditional_updates (behaves : host.Behaves terms held) {t : Template}
    (proper : t.Each (Template.Tidy terms.builtin))
    (creates : (Subtree.template t).Creates terms host held scope)
    (updates : t.Updates terms host held scope) :
    (Subtree.conditional condition (.template t)).Updates terms host held scope := by
  intro m part s heap sound known stands attached
  obtain ⟨p, hp, out⟩ := attached
  have proper' : (Subtree.conditional condition (.template t)).Each
      (Template.Tidy terms.builtin) := by
    rwa [Subtree.Each]
  have check := condition.check_ends behaves fun hc => (known hc).1
  obtain ⟨node, mounted, rfl⟩ := stands.exists_eq
  unfold Subtree.update
  cases run : condition.check host scope s with
  | error e s₁ =>
    have same := check.error run
    refine ⟨part, .unchanged stands (same.symm ▸ .refl sound) nofun (fun _ => ?_) nofun nofun⟩
    refine iff_of_true (same ▸ .refl part _) ?_
    cases mounted <;> rw [Subtree.strands, run]
  | ok b s₁ =>
    obtain ⟨same, decides, more, larger, knows₁⟩ := check.ok run
    have sound₁ : s₁.document.Sound := same ▸ sound
    cases b with
    | false =>
      have hidden := (hidden_created sound₁ (fun hc => (knows₁ hc).covers) decides :
        (Subtree.conditional condition (.template t)).Created terms host held scope _ _ _ _ _)
      cases mounted with
      | some live => exact ⟨_, (hidden.of_document same larger).refreshed proper' stands hp out⟩
      | none =>
        refine ⟨part, .unchanged stands (same.symm ▸ .refl sound) (fun _ => same ▸ .refl part _)
          (fun bad => absurd rfl bad) (fun _ => ⟨more, larger, fun hc =>
          ⟨(knows₁ hc).covers, ?_⟩⟩) fun _ hc => ?_⟩
        · exact fun c mem => ((known hc).2 c mem).mono larger
        · rw [Subtree.Under]
          exact decides hc
    | true =>
      cases mounted with
      | none =>
        have built := creates s₁ more sound₁ knows₁
        dsimp only
        cases made : (Subtree.template t).create host scope s₁ with
        | error e s₂ =>
          obtain ⟨retains, gains⟩ := built.error made
          rw [same] at retains gains
          refine ⟨part, .unchanged stands retains nofun (fun _ => ?_) nofun nofun⟩
          refine iff_of_false ((gains t rfl).not_exchanges stands.region) ?_
          rw [Subtree.strands, run]
          simp [made]
        | ok live s₂ =>
          obtain ⟨part', created⟩ := built.ok made
          exact ⟨part', ((created.of_document same larger).shown decides).refreshed proper' stands
            hp out⟩
      | some live =>
        rw [Subtree.Stands] at stands
        obtain ⟨rfl, stands⟩ := stands
        rw [Subtree.Stands, ← same] at stands
        obtain ⟨kept, _, part', refreshed⟩ := updates live part s₁ more sound₁
          (fun hc => ⟨knows₁ hc, fun c mem =>
            ((known hc).2 c (by rwa [Mount.values])).mono larger⟩) stands
        refine ⟨part', ?_⟩
        dsimp only
        rw [Subtree.update]
        exact refreshed.shown kept same larger run decides

end Subtree

mutual

/-- Proper subtrees are created and updated as promised. -/
theorem Subtree.promises (behaves : host.Behaves terms held) : ∀ {subtree : Subtree},
    subtree.Each (Template.Tidy terms.builtin) →
      subtree.Creates terms host held scope ∧ subtree.Updates terms host held scope
  | .template t, proper => by
    rw [Subtree.Each] at proper
    obtain ⟨creates, updates⟩ := Template.promises behaves proper
    refine ⟨creates, fun m part s heap sound known stands _ => ?_⟩
    rw [Subtree.Stands] at stands
    rw [Subtree.update]
    exact (updates m part s heap sound known stands).2.2
  | .conditional condition (.template t), proper => by
    rw [Subtree.Each] at proper
    obtain ⟨creates, updates⟩ := Template.promises behaves proper
    exact ⟨Subtree.conditional_creates behaves creates,
      Subtree.conditional_updates behaves proper creates updates⟩
  | .conditional _ (.conditional _ _), proper => by
    rw [Subtree.Each] at proper
    exact proper.elim

theorem Template.promises (behaves : host.Behaves terms held) : ∀ {t : Template},
    t.Each (Template.Tidy terms.builtin) →
      (Subtree.template t).Creates terms host held scope ∧ t.Updates terms host held scope
  | ⟨id, plan, bindings, anchors, extensions, events, handlers⟩, proper => by
    rw [Template.Each] at proper
    obtain ⟨creates, updates⟩ := Extension.promises behaves proper.2
    have own := Template.updates behaves proper.1 updates
    exact ⟨Template.creates proper.1 creates own, own⟩

theorem Extension.promises (behaves : host.Behaves terms held) : ∀ {extensions : List Extension},
    Extension.AllEach (Template.Tidy terms.builtin) extensions →
      Extension.CreatesAll terms host held scope extensions ∧
        Extension.UpdatesAll terms host held scope extensions
  | [], _ => ⟨Extension.createsAll_nil, Extension.updatesAll_nil⟩
  | ⟨path, name, subtree⟩ :: rest, proper => by
    rw [Extension.AllEach] at proper
    obtain ⟨creates, updates⟩ := Subtree.promises behaves proper.1
    obtain ⟨creates', updates'⟩ := Extension.promises behaves proper.2
    exact ⟨Extension.createsAll_cons creates creates', Extension.updatesAll_cons updates updates'⟩

end

end
end LiveTemplate
