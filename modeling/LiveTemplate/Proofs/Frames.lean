import LiveTemplate.Proofs.Listeners
import LiveTemplate.Template.Mount

/-!
# LiveTemplate.Proofs.Frames

What stays as it was while a part of the document changes. Nodes outside the part keep everything
but the ids of children that were replaced; the ids are mapped by a relabelling.

  * `Node.Follows`      one node before and after
  * `Document.Keeps`    all nodes outside a part
  * `swapNodes_keeps`   swapping a subtree for a new one
-/

namespace LiveTemplate

/-- The same node later on, its children relabelled. Where host directives are in play, what
nodes hold may have changed, and nothing is said about it. -/
structure Node.Follows (strict : Prop) (relabel : NodeId → NodeId) (node node' : Node) : Prop where
  content : strict → node'.content = node.content
  children : node'.children = node.children.map relabel
  handlers : node'.handlers = node.handlers
  data : node'.handlerData = node.handlerData
  anchors : node'.anchors = node.anchors

theorem Node.Follows.trans {strict : Prop} {f g : NodeId → NodeId} {a b c : Node}
    (h : a.Follows strict f b) (k : b.Follows strict g c) : a.Follows strict (g ∘ f) c where
  content := fun hs => (k.content hs).trans (h.content hs)
  children := by rw [k.children, h.children, List.map_map]
  handlers := k.handlers.trans h.handlers
  data := k.data.trans h.data
  anchors := k.anchors.trans h.anchors

/-- A relabelling counts only on the children that there are. -/
theorem Node.Follows.congr {strict : Prop} {f g : NodeId → NodeId} {a b : Node}
    (h : a.Follows strict f b) (same : ∀ x ∈ a.children, f x = g x) : a.Follows strict g b :=
  ⟨h.content, by rw [h.children]; exact List.map_congr_left same, h.handlers, h.data, h.anchors⟩

theorem Node.Follows.refl (strict : Prop) (a : Node) : a.Follows strict id a :=
  ⟨fun _ => rfl, (List.map_id _).symm, rfl, rfl, rfl⟩

namespace Document

/-- Nodes outside a part are kept, up to the ids of children that were replaced. -/
structure Keeps (strict : Prop) (part : Set NodeId) (relabel : NodeId → NodeId)
    (doc doc' : Document) : Prop where
  nodes : ∀ x node, x ∉ part → doc.get? x = some node →
    ∃ node', doc'.get? x = some node' ∧ node'.parent = node.parent ∧
      node.Follows strict relabel node'
  sound : doc'.Sound
  heard : doc.Heard → doc'.Heard
  listening : ∀ event ∈ doc.listening, event ∈ doc'.listening

/-- No child was replaced. -/
abbrev Spares (strict : Prop) (part : Set NodeId) (doc doc' : Document) : Prop :=
  doc.Keeps strict part id doc'

/-- All nodes are kept. -/
abbrev Retains (strict : Prop) (doc doc' : Document) : Prop := doc.Spares strict ∅ doc'

namespace Keeps

variable {strict : Prop} {part part' : Set NodeId} {f g : NodeId → NodeId} {a b c : Document}

theorem refl (sound : a.Sound) : a.Keeps strict part id a :=
  ⟨fun _ node _ found => ⟨node, found, rfl, .refl strict node⟩, sound, id, fun _ h => h⟩

theorem trans (h : a.Keeps strict part f b) (k : b.Keeps strict part g c) :
    a.Keeps strict part (g ∘ f) c := by
  refine ⟨fun x node out found => ?_, k.sound, fun h' => k.heard (h.heard h'),
    fun e he => k.listening e (h.listening e he)⟩
  obtain ⟨node', found', parent, follows⟩ := h.nodes x node out found
  obtain ⟨node'', found'', parent', follows'⟩ := k.nodes x node' out found'
  exact ⟨node'', found'', parent'.trans parent, follows.trans follows'⟩

theorem mono (h : a.Keeps strict part f b) (sub : part ⊆ part') : a.Keeps strict part' f b :=
  ⟨fun x node out found => h.nodes x node (fun mem => out (sub mem)) found, h.sound, h.heard,
    h.listening⟩

theorem congr (h : a.Keeps strict part f b)
    (same : ∀ x node, x ∉ part → a.get? x = some node → ∀ c ∈ node.children, f c = g c) :
    a.Keeps strict part g b := by
  refine ⟨fun x node out found => ?_, h.sound, h.heard, h.listening⟩
  obtain ⟨node', found', parent, follows⟩ := h.nodes x node out found
  exact ⟨node', found', parent, follows.congr (same x node out found)⟩

theorem loosen (h : a.Keeps True part f b) (strict : Prop) : a.Keeps strict part f b := by
  refine ⟨fun x node out found => ?_, h.sound, h.heard, h.listening⟩
  obtain ⟨node', found', parent, follows⟩ := h.nodes x node out found
  exact ⟨node', found', parent, fun _ => follows.content trivial, follows.children,
    follows.handlers, follows.data, follows.anchors⟩

theorem live (h : a.Keeps strict part f b) {x : NodeId} {node : Node} (out : x ∉ part)
    (found : a.get? x = some node) : b.get? x ≠ none := by
  obtain ⟨node', found', _⟩ := h.nodes x node out found
  rw [found']
  exact Option.some_ne_none node'

/-- What is dead afterwards was in the part, or dead before. -/
theorem dead (h : a.Keeps strict part f b) {x : NodeId} (gone : b.get? x = none) :
    x ∈ part ∨ a.get? x = none := by
  by_cases mem : x ∈ part
  · exact .inl mem
  · right
    by_contra live
    obtain ⟨node, found⟩ := Option.ne_none_iff_exists'.mp live
    exact h.live mem found gone

theorem parent (h : a.Keeps strict part f b) {x : NodeId} {node : Node} (out : x ∉ part)
    (found : a.get? x = some node) : b.parent? x = a.parent? x := by
  obtain ⟨node', found', same, _⟩ := h.nodes x node out found
  rw [parent?, parent?, found, found']
  exact same

end Keeps

/-- Puts `new` in the place of `old`. -/
def relabel (old new x : NodeId) : NodeId := if x = old then new else x

@[simp] theorem relabel_self (old new : NodeId) : relabel old new old = new := if_pos rfl

theorem relabel_of_ne {old new x : NodeId} (h : x ≠ old) : relabel old new x = x := if_neg h

theorem relabel_eq_id (x : NodeId) : relabel x x = id := by
  funext y
  unfold relabel
  split
  · rename_i same; exact same.symm
  · rfl

theorem map_relabel_of_not_mem {old new : NodeId} {ids : List NodeId} (h : old ∉ ids) :
    ids.map (relabel old new) = ids := by
  refine (List.map_congr_left fun x hx => ?_).trans (List.map_id ids)
  exact relabel_of_ne fun same => h (same ▸ hx)

theorem replaceFirst_eq_map {old new : NodeId} {ids : List NodeId} (distinct : ids.Nodup) :
    replaceFirst old new ids = ids.map (relabel old new) := by
  induction ids with
  | nil => rfl
  | cons id rest ih =>
    obtain ⟨fresh, distinct⟩ := List.nodup_cons.mp distinct
    rw [replaceFirst, List.map_cons]
    split
    · rename_i same
      subst same
      rw [relabel_self, map_relabel_of_not_mem fresh]
    · rename_i other
      rw [relabel_of_ne other, ih distinct]

theorem get?_release_of_detached {doc : Document} {id : NodeId} {node : Node}
    (live : doc.get? id = some node) (detached : doc.parent? id = none) (x : NodeId) :
    (doc.release id).2.get? x = (freeAll doc.nodes 0 [id]).2.get? x := by
  unfold release
  rw [if_pos (contains_iff.mpr ⟨node, live⟩), detach_of_detached detached]
  rfl

/-- Live nodes, with everything below them. -/
def Region (doc : Document) (part : Set NodeId) : Prop :=
  ∀ x ∈ part, ∃ node, doc.get? x = some node ∧ ∀ c ∈ node.children, c ∈ part

theorem Region.union {doc : Document} {a b : Set NodeId} (ha : doc.Region a) (hb : doc.Region b) :
    doc.Region (a ∪ b) := by
  rintro x (mem | mem)
  · obtain ⟨node, found, inside⟩ := ha x mem
    exact ⟨node, found, fun c hc => .inl (inside c hc)⟩
  · obtain ⟨node, found, inside⟩ := hb x mem
    exact ⟨node, found, fun c hc => .inr (inside c hc)⟩

theorem Region.closed {doc : Document} {part : Set NodeId} (h : doc.Region part) {x c : NodeId}
    {node : Node} (mem : x ∈ part) (found : doc.get? x = some node) (hc : c ∈ node.children) :
    c ∈ part := by
  obtain ⟨n, found', inside⟩ := h x mem
  rw [found] at found'
  cases found'
  exact inside c hc

/-- A subtree that is swapped for a detached node is cut off and then freed. -/
theorem get?_swapNodes_eq {doc : Document} {part : Set NodeId} {old new p : NodeId} {node : Node}
    (mem : old ∈ part) (hp : doc.parent? old = some p) (out : p ∉ part)
    (hn : doc.get? new = some node) (apart : new ∉ part) (detached : doc.parent? new = none)
    (x : NodeId) :
    (swapNodes old new doc).get? x =
      (freeAll (doc.supplant p old new).nodes 0 [old]).2.get? x := by
  have hne : old ≠ new := fun same => apart (same ▸ mem)
  obtain ⟨self, hself, -⟩ := parent?_eq_some.mp hp
  have replaced : doc.replaceNode old new =
      (doc.supplant p old new).record (.replaceNode old new) := by
    unfold replaceNode
    rw [if_neg (by simp [hne, contains_iff.mpr ⟨node, hn⟩]), hp, detach_of_detached detached]
    rfl
  have self₁ : (doc.supplant p old new).get? old = some { self with parent := none } := by
    have other : old ≠ p := fun same => out (same ▸ mem)
    rw [get?_supplant doc hne, hself, Option.map_some, if_neg hne, if_pos rfl, if_neg other]
  have detached₁ : (doc.supplant p old new).parent? old = none := by
    rw [parent?, self₁]
    rfl
  unfold swapNodes
  rw [replaced]
  have live : ((doc.supplant p old new).record (.replaceNode old new)).get? old = some _ := self₁
  exact get?_release_of_detached live detached₁ x

/-- Swapping a subtree for a detached node, seen from the nodes outside the subtree. -/
theorem get?_swapNodes {doc : Document} (sound : doc.Sound) {part : Set NodeId}
    {old new p : NodeId} {node : Node} (mem : old ∈ part) (hp : doc.parent? old = some p)
    (out : p ∉ part) (region : doc.Region part) (hn : doc.get? new = some node)
    (apart : new ∉ part) (detached : doc.parent? new = none)
    {x : NodeId} (hx : x ∉ part) :
    (swapNodes old new doc).get? x =
      (doc.get? x).map fun n =>
        { n with
          parent := if x = new then some p else n.parent
          children := n.children.map (relabel old new) } := by
  have hne : old ≠ new := fun same => apart (same ▸ mem)
  have hox : x ≠ old := fun same => hx (same ▸ mem)
  obtain ⟨self, hself, hselfp⟩ := parent?_eq_some.mp hp
  rw [get?_swapNodes_eq mem hp out hn apart detached,
    get?_freeAll_of_closed (· ∈ part) (by simpa using mem) ?_ hx]
  · change (doc.supplant p old new).get? x = _
    rw [get?_supplant doc hne]
    cases found : doc.get? x with
    | none => rfl
    | some n =>
      rw [Option.map_some, Option.map_some, if_neg hox]
      congr 2
      by_cases hxp : x = p
      · rw [if_pos hxp, replaceFirst_eq_map (sound.links.nodup_children found)]
      · rw [if_neg hxp, map_relabel_of_not_mem]
        -- Only the parent of `old` lists it.
        intro listed
        obtain ⟨below, hb, hback⟩ := sound.links.pointsBack found listed
        rw [hself] at hb
        cases hb
        rw [hselfp] at hback
        exact hxp (Option.some.inj hback).symm
  · intro y n hy found c hc
    change (doc.supplant p old new).get? y = some n at found
    rw [get?_supplant doc hne] at found
    obtain ⟨m, hm, rfl⟩ := Option.map_eq_some_iff.mp found
    have other : y ≠ p := fun same => out (same ▸ hy)
    rw [if_neg other] at hc
    exact region.closed hy hm hc

theorem sound_swapNodes {doc : Document} (h : doc.Sound) (old new : NodeId) :
    (swapNodes old new doc).Sound := (h.replaceNode old new).release old

theorem hearing_swapNodes (doc : Document) (old new : NodeId) :
    (swapNodes old new doc).hearing = doc.hearing :=
  (hearing_release _ old).trans (hearing_replaceNode doc old new)

/-- A subtree is swapped for one that was made since. -/
theorem Keeps.swap {strict : Prop} {part : Set NodeId} {a b : Document} {old new p : NodeId}
    {node : Node} (h : a.Retains strict b) (fresh : a.get? new = none) (mem : old ∈ part)
    (hp : b.parent? old = some p) (out : p ∉ part) (region : b.Region part)
    (hn : b.get? new = some node) (apart : new ∉ part) (detached : b.parent? new = none) :
    a.Keeps strict part (relabel old new) (swapNodes old new b) := by
  have same := hearing_swapNodes b old new
  refine ⟨?_, sound_swapNodes h.sound old new, fun heard => (h.heard heard).of_hearing same, ?_⟩
  · intro x n hx found
    obtain ⟨n', found', parent, follows⟩ := h.nodes x n (Set.notMem_empty x) found
    have other : x ≠ new := by
      rintro rfl
      rw [fresh] at found
      cases found
    have get := get?_swapNodes h.sound mem hp out region hn apart detached hx
    rw [found', Option.map_some, if_neg other] at get
    refine ⟨_, get, parent, follows.content, ?_, follows.handlers, follows.data, follows.anchors⟩
    change n'.children.map (relabel old new) = n.children.map (relabel old new)
    rw [follows.children, List.map_id]
  · intro event mem'
    rw [show (swapNodes old new b).listening = b.listening from congrArg Prod.snd same]
    exact h.listening event mem'

/-- The nodes of a region are the same later on, up to their parents. -/
structure Agrees (strict : Prop) (region : Set NodeId) (doc doc' : Document) : Prop where
  nodes : ∀ x node, x ∈ region → doc.get? x = some node →
    ∃ node', doc'.get? x = some node' ∧ node.Follows strict id node'
  listening : ∀ event ∈ doc.listening, event ∈ doc'.listening

theorem Agrees.mono {strict : Prop} {region region' : Set NodeId} {a b : Document}
    (h : a.Agrees strict region b) (sub : region' ⊆ region) : a.Agrees strict region' b :=
  ⟨fun x node mem => h.nodes x node (sub mem), h.listening⟩

theorem Agrees.region {strict : Prop} {part : Set NodeId} {a b : Document}
    (h : a.Agrees strict part b) (region : a.Region part) : b.Region part := by
  intro x mem
  obtain ⟨node, found, inside⟩ := region x mem
  obtain ⟨node', found', follows⟩ := h.nodes x node mem found
  refine ⟨node', found', fun c hc => inside c ?_⟩
  rwa [follows.children, List.map_id] at hc

/-- A region outside the part that changed. -/
theorem Keeps.agrees {strict : Prop} {part other : Set NodeId} {f : NodeId → NodeId}
    {a b : Document} (h : a.Keeps strict part f b) (region : a.Region other)
    (apart : Disjoint other part) (fixed : ∀ x ∈ other, f x = x) : a.Agrees strict other b := by
  refine ⟨fun x node mem found => ?_, h.listening⟩
  obtain ⟨node', found', _, follows⟩ :=
    h.nodes x node (Set.disjoint_left.mp apart mem) found
  exact ⟨node', found', follows.congr fun c hc => fixed c (region.closed mem found hc)⟩

/-- A region outside the subtree that is swapped away. -/
theorem agrees_swapNodes (strict : Prop) {part other : Set NodeId} {doc : Document}
    {old new p : NodeId} {node : Node} (sound : doc.Sound) (mem : old ∈ part)
    (hp : doc.parent? old = some p) (out : p ∉ part) (region : doc.Region part)
    (hn : doc.get? new = some node) (fresh : new ∉ part) (detached : doc.parent? new = none)
    (region' : doc.Region other) (apart : Disjoint other part) :
    doc.Agrees strict other (swapNodes old new doc) := by
  refine ⟨fun x n hx found => ?_, fun e he => ?_⟩
  · have get := get?_swapNodes sound mem hp out region hn fresh detached
      (Set.disjoint_left.mp apart hx)
    rw [found, Option.map_some] at get
    refine ⟨_, get, fun _ => rfl, ?_, rfl, rfl, rfl⟩
    refine (map_relabel_of_not_mem fun hc => ?_).trans (List.map_id _).symm
    exact Set.disjoint_left.mp apart (region'.closed hx found hc) mem
  · rw [show (swapNodes old new doc).listening = doc.listening from
      congrArg Prod.snd (hearing_swapNodes doc old new)]
    exact he

end Document
end LiveTemplate
