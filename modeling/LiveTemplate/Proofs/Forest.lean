import LiveTemplate.Document.Markup
import LiveTemplate.Proofs.Operations
import Mathlib.Data.List.Chain
import Mathlib.Logic.Relation

/-!
# LiveTemplate.Proofs.Forest

Documents without cycles. Two operations can close a cycle, and nothing in them looks out for it:
appending a node below itself, and replacing a node by one of those above it. As long as neither
is done, every document is a forest and the walks through it end by themselves.

  * `Forest`              no node is above itself
  * `Operation.loops`     the calls that close a cycle
  * `Forest.perform_iff`  one operation on a forest
  * `Forest.walksEnd`     in a forest no walk comes to its bound
-/

namespace LiveTemplate
namespace Document

variable {doc doc' : Document}

/-- `p` is the parent of `x`. -/
def Parent (doc : Document) (x p : NodeId) : Prop := doc.parent? x = some p

/-- No node is above itself. -/
def Forest (doc : Document) : Prop := ∀ x, ¬Relation.TransGen doc.Parent x x

theorem Sound.live_of_parent (sound : doc.Sound) {x p : NodeId} (h : doc.Parent x p) :
    ∃ node, doc.get? p = some node := by
  obtain ⟨node, found, up⟩ := parent?_eq_some.1 h
  obtain ⟨above, there, _⟩ := sound.links.listed found up
  exact ⟨above, there⟩

theorem Sound.parent_of_child (sound : doc.Sound) {x c : NodeId} (h : c ∈ doc.children x) :
    doc.Parent c x := by
  unfold children at h
  cases found : doc.get? x with
  | none => simp [found] at h
  | some node =>
    obtain ⟨below, there, up⟩ := sound.links.pointsBack found (by simpa [found] using h)
    exact parent?_eq_some.2 ⟨below, there, up⟩

/-! ## Walks upwards -/

theorem isChain_climb (doc : Document) (n : Nat) (start : Option NodeId) :
    (doc.climb n start).IsChain doc.Parent := by
  fun_induction climb doc n start with
  | case1 => exact .nil
  | case2 => exact .nil
  | case3 n x ih =>
    cases n with
    | zero => exact .singleton x
    | succ n =>
      cases up : doc.parent? x with
      | none => simp [climb]
      | some p =>
        rw [up] at ih
        exact .cons_cons up ih

theorem mem_climb {n : Nat} {x a : NodeId} (h : a ∈ doc.climb n (doc.parent? x)) :
    Relation.TransGen doc.Parent x a := by
  induction n generalizing x with
  | zero => cases h
  | succ n ih =>
    cases up : doc.parent? x with
    | none => simp [up, climb] at h
    | some p =>
      rw [up, climb, List.mem_cons] at h
      rcases h with rfl | h
      · exact .single up
      · exact .head up (ih h)

theorem Sound.live_of_above (sound : doc.Sound) {x a : NodeId}
    (h : Relation.TransGen doc.Parent x a) : ∃ node, doc.get? a = some node := by
  cases h with
  | single up => exact sound.live_of_parent up
  | tail _ up => exact sound.live_of_parent up

/-- A walk that is over before its bound stays as it is with a larger one. -/
theorem climb_add {n : Nat} {start : Option NodeId} (short : (doc.climb n start).length < n)
    (k : Nat) : doc.climb (n + k) start = doc.climb n start := by
  induction n generalizing start with
  | zero => simp [climb] at short
  | succ n ih =>
    rw [Nat.succ_add]
    cases start with
    | none => rfl
    | some x =>
      rw [climb, List.length_cons, Nat.add_lt_add_iff_right] at short
      rw [climb, climb, ih short]

namespace Forest

theorem nodup_climb (forest : doc.Forest) (n : Nat) (start : Option NodeId) :
    (doc.climb n start).Nodup := by
  have above : (doc.climb n start).Pairwise (Relation.TransGen doc.Parent) :=
    ((doc.isChain_climb n start).imp fun _ _ => Relation.TransGen.single).pairwise
  refine above.imp ?_
  rintro x _ h rfl
  exact forest x h

/-- The nodes on a way up are live and different, so there are no more of them than slots. -/
theorem length_climb (forest : doc.Forest) (sound : doc.Sound) (n : Nat) {x : NodeId} {node : Node}
    (live : doc.get? x = some node) : (doc.climb n (some x)).length ≤ doc.nodes.slots.size := by
  refine Slots.length_le_size (forest.nodup_climb n (some x)) ?_
  intro y mem
  cases n with
  | zero => cases mem
  | succ n =>
    rw [climb, List.mem_cons] at mem
    rcases mem with rfl | mem
    · exact ⟨node, live⟩
    · exact sound.live_of_above (mem_climb mem)

theorem climb_eq (forest : doc.Forest) (sound : doc.Sound) {n : Nat} (enough : doc.walkBound ≤ n)
    (start : Option NodeId) : doc.climb n start = doc.climb doc.walkBound start := by
  obtain ⟨k, rfl⟩ := Nat.exists_eq_add_of_le enough
  cases start with
  | none => rw [walkBound, Nat.succ_add]; rfl
  | some x =>
    cases live : doc.get? x with
    | some node =>
      exact climb_add (Nat.lt_succ_of_le (forest.length_climb sound _ live)) k
    | none =>
      have top : doc.parent? x = none := by simp [parent?, live]
      rw [walkBound, Nat.succ_add, climb, climb, top]
      have stop (m : Nat) : doc.climb m none = [] := by cases m <;> rfl
      rw [stop, stop]

theorem ancestors_eq (forest : doc.Forest) (sound : doc.Sound) {x p : NodeId}
    (up : doc.Parent x p) : doc.ancestors x = p :: doc.ancestors p := by
  have once := forest.climb_eq sound (Nat.le_succ doc.walkBound) (some p)
  rw [climb] at once
  rw [ancestors, show doc.parent? x = some p from up]
  exact once.symm

theorem length_ancestors (forest : doc.Forest) (sound : doc.Sound) {x : NodeId} {node : Node}
    (live : doc.get? x = some node) : (doc.ancestors x).length < doc.nodes.slots.size := by
  have bound := forest.length_climb sound (doc.walkBound + 1) live
  rwa [climb, List.length_cons] at bound

theorem mem_ancestors (forest : doc.Forest) (sound : doc.Sound) {x a : NodeId} :
    a ∈ doc.ancestors x ↔ Relation.TransGen doc.Parent x a := by
  refine ⟨mem_climb, fun h => ?_⟩
  induction h using Relation.TransGen.head_induction_on with
  | single up => simp [forest.ancestors_eq sound up]
  | head up _ ih => exact forest.ancestors_eq sound up ▸ List.mem_cons_of_mem _ ih

/-! ## Walks downwards -/

/-- A walk that goes from a node to its children. Along it the number of nodes above grows, and
that number stays below the number of slots. -/
theorem walk_eq {α : Type} (forest : doc.Forest) (sound : doc.Sound) {walk : Nat → NodeId → α}
    (step : ∀ n m x, (∀ c ∈ doc.children x, walk n c = walk m c) →
      walk (n + 1) x = walk (m + 1) x)
    {n : Nat} (enough : doc.walkBound ≤ n) (x : NodeId) : walk n x = walk doc.walkBound x := by
  have live {p c : NodeId} (h : c ∈ doc.children p) : ∃ node, doc.get? c = some node := by
    obtain ⟨node, found, _⟩ := parent?_eq_some.1 (sound.parent_of_child h)
    exact ⟨node, found⟩
  have inner : ∀ (n m : Nat) (x : NodeId), (∃ node, doc.get? x = some node) →
      doc.nodes.slots.size ≤ n + (doc.ancestors x).length →
      doc.nodes.slots.size ≤ m + (doc.ancestors x).length → walk n x = walk m x := by
    intro n
    induction n with
    | zero =>
      rintro m x ⟨node, found⟩ hn hm
      have := forest.length_ancestors sound found
      omega
    | succ n ih =>
      rintro m x ⟨node, found⟩ hn hm
      have := forest.length_ancestors sound found
      obtain _ | m := m
      · omega
      · refine step n m x fun c mem => ih m c (live mem) ?_ ?_ <;>
          rw [forest.ancestors_eq sound (sound.parent_of_child mem), List.length_cons] <;> omega
  obtain _ | n := n
  · simp [walkBound] at enough
  · rw [walkBound] at enough ⊢
    exact step n doc.nodes.slots.size x fun c mem =>
      inner n doc.nodes.slots.size c (live mem) (by omega) (by omega)

theorem collectText_eq (forest : doc.Forest) (sound : doc.Sound) {n : Nat}
    (enough : doc.walkBound ≤ n) (x : NodeId) :
    doc.collectText n x = doc.collectText doc.walkBound x := by
  refine forest.walk_eq sound ?_ enough x
  intro n m x same
  cases found : doc.get? x with
  | none => simp only [collectText, found]
  | some node =>
    obtain ⟨content, parent, below, handlers, data, anchors⟩ := node
    have kids : below.map (doc.collectText n) = below.map (doc.collectText m) :=
      List.map_congr_left fun c mem => same c (by simpa [children, found] using mem)
    cases content <;> simp only [collectText, found, kids]

theorem markupFrom_eq (forest : doc.Forest) (sound : doc.Sound) {n : Nat}
    (enough : doc.walkBound ≤ n) (x : NodeId) :
    doc.markupFrom n x = doc.markupFrom doc.walkBound x := by
  refine forest.walk_eq sound ?_ enough x
  intro n m x same
  cases found : doc.get? x with
  | none => simp only [markupFrom, found]
  | some node =>
    have kids : node.children.map (doc.markupFrom n) = node.children.map (doc.markupFrom m) :=
      List.map_congr_left fun c mem => same c (by simpa [children, found] using mem)
    simp only [markupFrom, found, kids]

end Forest

/-- The walks through a document end by themselves. No way up and no way down goes on for ever,
and no walk comes to the bound on its steps: with any larger one it gives the same. -/
structure WalksEnd (doc : Document) : Prop where
  upwards : WellFounded fun p x => doc.parent? x = some p
  downwards : WellFounded fun c x => c ∈ doc.children x
  climb : ∀ n start, doc.walkBound ≤ n → doc.climb n start = doc.climb doc.walkBound start
  collectText : ∀ n x, doc.walkBound ≤ n → doc.collectText n x = doc.collectText doc.walkBound x
  markupFrom : ∀ n x, doc.walkBound ≤ n → doc.markupFrom n x = doc.markupFrom doc.walkBound x

theorem Forest.walksEnd (forest : doc.Forest) (sound : doc.Sound) : doc.WalksEnd := by
  refine ⟨?_, ?_, fun n start h => forest.climb_eq sound h start,
    fun n x h => forest.collectText_eq sound h x, fun n x h => forest.markupFrom_eq sound h x⟩
  · refine Subrelation.wf ?_ (measure fun x => (doc.ancestors x).length).wf
    intro p x up
    change (doc.ancestors p).length < (doc.ancestors x).length
    rw [forest.ancestors_eq sound up, List.length_cons]
    exact Nat.lt_succ_self _
  · refine Subrelation.wf ?_
      (measure fun x => doc.nodes.slots.size - (doc.ancestors x).length).wf
    intro c x mem
    have up := sound.parent_of_child mem
    obtain ⟨node, found, _⟩ := parent?_eq_some.1 up
    have bound := forest.length_ancestors sound found
    change doc.nodes.slots.size - (doc.ancestors c).length <
      doc.nodes.slots.size - (doc.ancestors x).length
    rw [forest.ancestors_eq sound up, List.length_cons] at bound ⊢
    omega

/-! ## Operations -/

theorem parent?_of_write {id : NodeId} {f : Node → Node}
    (get : ∀ x, doc'.get? x = if x = id then (doc.get? x).map f else doc.get? x)
    (same : ∀ n, (f n).parent = n.parent) (x : NodeId) : doc'.parent? x = doc.parent? x := by
  unfold parent?
  rw [get]
  split
  · cases doc.get? x with
    | none => rfl
    | some node => exact same node
  · rfl

theorem parent?_insert (sound : doc.Sound) {content : Content} (x : NodeId) :
    (doc.insert content).2.parent? x = doc.parent? x := by
  unfold parent?
  rw [get?_insert sound]
  split
  · rename_i same
    rw [same, get?_insert_fst sound]
    rfl
  · rfl

theorem parent?_appendChild (doc : Document) (parent child x : NodeId) :
    (doc.appendChild parent child).parent? x =
      if x = child ∧ doc.contains parent = true ∧ doc.contains child = true then some parent
      else doc.parent? x := by
  unfold appendChild
  cases both : doc.contains parent && doc.contains child with
  | false =>
    rw [if_neg (by simp), if_neg]
    rintro ⟨-, hp, hc⟩
    simp [hp, hc] at both
  | true =>
    rw [Bool.and_eq_true] at both
    rw [if_pos rfl]
    change ((doc.detach child).attach parent child).parent? x = _
    rw [parent?, get?_attach]
    by_cases same : x = child
    · subst same
      obtain ⟨node, found⟩ := contains_iff.1 ((contains_detach doc x x).trans both.2)
      simp [found, both]
    · rw [if_neg fun h => same h.1, ← parent?_detach_of_ne same, parent?]
      cases (doc.detach child).get? x <;> simp [same]

theorem parent?_replaceNode {old new p : NodeId} (ne : old ≠ new) (live : doc.contains new = true)
    (up : doc.parent? old = some p) (x : NodeId) :
    (doc.replaceNode old new).parent? x =
      if x = new then some p else if x = old then none else doc.parent? x := by
  unfold replaceNode
  rw [if_neg (by simp [ne, live]), up]
  change ((doc.detach new).supplant p old new).parent? x = _
  rw [parent?, get?_supplant _ ne]
  by_cases same : x = new
  · subst same
    obtain ⟨node, found⟩ := contains_iff.1 ((contains_detach doc x x).trans live)
    simp [found]
  · rw [if_neg same, ← parent?_detach_of_ne same, parent?]
    cases (doc.detach new).get? x with
    | none => simp
    | some node => by_cases gone : x = old <;> simp [same, gone, ne]

theorem parent?_of_detach {id x p : NodeId} (h : (doc.detach id).parent? x = some p) :
    doc.parent? x = some p := by
  by_cases same : x = id
  · rw [same, parent?_detach] at h
    cases h
  · rwa [parent?_detach_of_ne same] at h

theorem parent?_of_release {id x p : NodeId} (h : (doc.release id).2.parent? x = some p) :
    doc.parent? x = some p := by
  unfold release at h
  split at h
  · obtain ⟨node, found, up⟩ := parent?_eq_some.1 h
    exact parent?_of_detach (parent?_eq_some.2 ⟨node, get?_of_freeAll found, up⟩)
  · exact h

namespace Operation

/-- The call makes `p` the parent of `x`. -/
def Places (doc : Document) : Operation → NodeId → NodeId → Prop
  | appendChild parent child, x, p => x = child ∧ p = parent
  | replaceNode old new, x, p => x = new ∧ doc.parent? old = some p
  | _, _, _ => False

/-- What an operation can do to parents: all of them were there before, but for the one it
places. -/
theorem parent_of_perform (sound : doc.Sound) {operation : Operation} {x p : NodeId}
    (h : (operation.perform doc).Parent x p) : doc.Parent x p ∨ operation.Places doc x p := by
  have kept {doc' : Document} (same : ∀ y, doc'.parent? y = doc.parent? y)
      (h : doc'.Parent x p) : doc.Parent x p := (same x).symm.trans h
  cases operation with
  | createElement tag => exact .inl (kept (parent?_insert sound) h)
  | createText content => exact .inl (kept (parent?_insert sound) h)
  | createComment content => exact .inl (kept (parent?_insert sound) h)
  | setAttribute id name value =>
    exact .inl (kept (parent?_of_write (get?_setAttribute doc id name value) fun _ => rfl) h)
  | removeAttribute id name =>
    exact .inl (kept (parent?_of_write (get?_removeAttribute doc id name) fun _ => rfl) h)
  | setProperty id name value =>
    exact .inl (kept (parent?_of_write (get?_setProperty doc id name value) fun _ => rfl) h)
  | setText id content =>
    exact .inl (kept (parent?_of_write (get?_setText doc id content) fun _ => rfl) h)
  | setHandler id event f =>
    exact .inl (kept (parent?_of_write (get?_setHandler doc id event f) fun _ => rfl) h)
  | setHandlerData id event args =>
    exact .inl (kept (parent?_of_write (get?_setHandlerData doc id event args) fun _ => rfl) h)
  | setAnchors root anchors =>
    exact .inl (kept (parent?_of_write (get?_setAnchors doc root anchors) fun _ => rfl) h)
  | addListener event listener => exact .inl h
  | ensureListening event =>
    refine .inl (kept (fun y => ?_) h)
    simp only [perform, Document.ensureListening]
    split <;> rfl
  | takeJournal => exact .inl h
  | removeNode id =>
    refine .inl ?_
    simp only [perform, Document.removeNode] at h
    split at h
    · exact parent?_of_detach h
    · exact h
  | release id => exact .inl (parent?_of_release h)
  | appendChild parent child =>
    have now := parent?_appendChild doc parent child x
    simp only [Parent, perform, now] at h
    split at h
    · rename_i placed
      cases h
      exact .inr ⟨placed.1, rfl⟩
    · exact .inl h
  | replaceNode old new =>
    simp only [Parent, perform] at h
    by_cases idle : old = new ∨ doc.contains new = false
    · rw [Document.replaceNode, if_pos (by simpa using idle)] at h
      exact .inl h
    · simp only [not_or, Bool.not_eq_false] at idle
      cases up : doc.parent? old with
      | none =>
        rw [Document.replaceNode, if_neg (by simp [idle]), up] at h
        exact .inl h
      | some q =>
        rw [parent?_replaceNode idle.1 idle.2 up] at h
        split at h
        · rename_i same
          cases h
          exact .inr ⟨same, up⟩
        · split at h
          · cases h
          · exact .inl h

/-- The calls that close a cycle: a node is appended to itself or to a node below it, or put in
the place of a node below it. -/
def loops (doc : Document) : Operation → Bool
  | appendChild parent child =>
    doc.contains child && (child == parent || (doc.ancestors parent).contains child)
  | replaceNode old new => (doc.ancestors old).contains new
  | _ => false

end Operation

/-- One more link, from `c` up to `p`: a way along the links now either was there before or goes
over the new one. -/
theorem above_or_over {r r' : NodeId → NodeId → Prop} {c p : NodeId}
    (link : ∀ x y, r' x y → r x y ∨ x = c ∧ y = p) {a b : NodeId}
    (h : Relation.TransGen r' a b) :
    Relation.TransGen r a b ∨ Relation.ReflTransGen r a c ∧ Relation.ReflTransGen r p b := by
  induction h with
  | single up =>
    rcases link _ _ up with up | ⟨rfl, rfl⟩
    · exact .inl (.single up)
    · exact .inr ⟨.refl, .refl⟩
  | tail _ up ih =>
    rcases link _ _ up with up | ⟨rfl, rfl⟩
    · exact ih.imp (·.tail up) fun ⟨first, last⟩ => ⟨first, last.tail up⟩
    · rcases ih with before | ⟨first, _⟩
      · exact .inr ⟨before.to_reflTransGen, .refl⟩
      · exact .inr ⟨first, .refl⟩

/-- The way up from `p` to `c` outlives a change that leaves the links of all other nodes on it
alone. -/
theorem way_kept {r r' : NodeId → NodeId → Prop} {p c : NodeId}
    (way : Relation.ReflTransGen r p c)
    (kept : ∀ x y, Relation.ReflTransGen r p x → x ≠ c → r x y → r' x y) :
    Relation.ReflTransGen r' p c := by
  induction way using Relation.ReflTransGen.head_induction_on with
  | refl => exact .refl
  | head up way ih =>
    rename_i a b
    by_cases same : a = c
    · exact same ▸ .refl
    · exact .head (kept a b .refl same up)
        (ih fun x y h ne link => kept x y (.head up h) ne link)

namespace Forest

theorem mono (forest : doc.Forest) (less : ∀ x p, doc'.Parent x p → doc.Parent x p) :
    doc'.Forest :=
  fun x cycle => forest x (Relation.TransGen.mono less x x cycle)

/-- A new link closes a cycle only if it goes to a node that is already below. -/
theorem link (forest : doc.Forest) {c p : NodeId}
    (now : ∀ x y, doc'.Parent x y → doc.Parent x y ∨ x = c ∧ y = p)
    (apart : ¬Relation.ReflTransGen doc.Parent p c) : doc'.Forest := by
  intro x cycle
  rcases above_or_over now cycle with h | ⟨up, down⟩
  · exact forest x h
  · exact apart (down.trans up)

theorem loops_append_iff (forest : doc.Forest) (sound : doc.Sound) {parent child : NodeId} :
    (Operation.appendChild parent child).loops doc = true ↔
      doc.contains child = true ∧ Relation.ReflTransGen doc.Parent parent child := by
  simp only [Operation.loops, Bool.and_eq_true, Bool.or_eq_true, beq_iff_eq,
    List.contains_iff_mem, forest.mem_ancestors sound, Relation.reflTransGen_iff_eq_or_transGen]

theorem loops_replace_iff (forest : doc.Forest) (sound : doc.Sound) {old new : NodeId} :
    (Operation.replaceNode old new).loops doc = true ↔ Relation.TransGen doc.Parent old new := by
  simp only [Operation.loops, List.contains_iff_mem, forest.mem_ancestors sound]

theorem perform (forest : doc.Forest) (sound : doc.Sound) {operation : Operation}
    (straight : operation.loops doc = false) : (operation.perform doc).Forest := by
  have now {x p : NodeId} (h : (operation.perform doc).Parent x p) :=
    Operation.parent_of_perform sound h
  cases operation with
  | appendChild parent child =>
    by_cases live : doc.contains child = true
    · refine forest.link (fun x p => now) fun below => ?_
      rw [(forest.loops_append_iff sound).2 ⟨live, below⟩] at straight
      cases straight
    · rw [Operation.perform, Document.appendChild, if_neg (by simp [live])]
      exact forest
  | replaceNode old new =>
    cases up : doc.parent? old with
    | none =>
      refine forest.mono fun x p h => (now h).resolve_right ?_
      rintro ⟨-, found⟩
      rw [up] at found
      cases found
    | some q =>
      refine forest.link (c := new) (p := q) (fun x p h => (now h).imp_right ?_) fun below => ?_
      · rintro ⟨same, found⟩
        rw [up] at found
        exact ⟨same, (Option.some.inj found).symm⟩
      · rw [(forest.loops_replace_iff sound).2 (.head' up below)] at straight
        cases straight
  | _ => exact forest.mono fun x p h => (now h).resolve_right id

theorem cycle_of_loops (forest : doc.Forest) (sound : doc.Sound) {operation : Operation}
    (loops : operation.loops doc = true) : ¬(operation.perform doc).Forest := by
  cases operation with
  | appendChild parent child =>
    obtain ⟨live, way⟩ := (forest.loops_append_iff sound).1 loops
    have there : doc.contains parent = true := by
      rcases way.cases_head with rfl | ⟨y, up, _⟩
      · exact live
      · obtain ⟨node, found, _⟩ := parent?_eq_some.1 up
        exact contains_iff.2 ⟨node, found⟩
    have now := parent?_appendChild doc parent child
    intro after
    refine after child (.head' ?_ (way_kept way fun x y _ ne up => ?_))
    · exact (now child).trans (if_pos ⟨rfl, there, live⟩)
    · exact (now x).trans ((if_neg fun h => ne h.1).trans up)
  | replaceNode old new =>
    have above := (forest.loops_replace_iff sound).1 loops
    obtain ⟨p, up, way⟩ := Relation.TransGen.head'_iff.1 above
    have ne : old ≠ new := by
      rintro rfl
      exact forest old above
    obtain ⟨node, live⟩ := sound.live_of_above above
    have now := parent?_replaceNode ne (contains_iff.2 ⟨node, live⟩) up
    intro after
    refine after new (.head' ?_ (way_kept way fun x y before ne' link => ?_))
    · exact (now new).trans (if_pos rfl)
    · -- The replaced node is not on the way: it would be above itself.
      have ne'' : x ≠ old := by
        rintro rfl
        exact forest x (.head' up before)
      exact (now x).trans ((if_neg ne').trans ((if_neg ne'').trans link))
  | _ => cases loops

/-- One operation on a forest. -/
theorem perform_iff (forest : doc.Forest) (sound : doc.Sound) (operation : Operation) :
    (operation.perform doc).Forest ↔ operation.loops doc = false := by
  refine ⟨fun after => ?_, forest.perform sound⟩
  cases loops : operation.loops doc with
  | false => rfl
  | true => exact absurd after (forest.cycle_of_loops sound loops)

end Forest

/-- No call in the sequence closes a cycle at its turn. -/
def noneLoops : Document → List Operation → Bool
  | _, [] => true
  | doc, operation :: rest => !operation.loops doc && noneLoops (operation.perform doc) rest

theorem Forest.performAll (forest : doc.Forest) (sound : doc.Sound) {operations : List Operation}
    (straight : doc.noneLoops operations = true) : (doc.performAll operations).Forest := by
  induction operations generalizing doc with
  | nil => exact forest
  | cons operation rest ih =>
    rw [noneLoops, Bool.and_eq_true, Bool.not_eq_true'] at straight
    exact ih (forest.perform sound straight.1) (sound.perform operation) straight.2

theorem forest_new (journaling : Bool) : (new journaling).Forest := by
  intro x cycle
  obtain ⟨p, up, _⟩ := Relation.TransGen.head'_iff.1 cycle
  cases journaling <;>
    simp [Parent, parent?, new, withJournal, empty, get?, Slots.get?, Slots.empty] at up

/-- After any operations on any ids none of which closes a cycle, the document is a forest, the
walks through it end by themselves, and it stays so exactly if the next operation closes no
cycle either. -/
theorem performAll_forest (journaling : Bool) (operations : List Operation)
    (straight : (new journaling).noneLoops operations = true) :
    ((new journaling).performAll operations).Forest ∧
      ((new journaling).performAll operations).WalksEnd ∧
      ∀ operation : Operation,
        (operation.perform ((new journaling).performAll operations)).Forest ↔
          operation.loops ((new journaling).performAll operations) = false := by
  have sound := (sound_new journaling).performAll operations
  have forest := (forest_new journaling).performAll (sound_new journaling) straight
  exact ⟨forest, forest.walksEnd sound, forest.perform_iff sound⟩

/-- An item is taken out of its list, and the list is then put below it. -/
theorem performAll_forest_moved :
    let operations : List Operation :=
      [.createElement "ul", .createElement "li", .createText "x", .appendChild ⟨0, 1⟩ ⟨1, 1⟩,
        .appendChild ⟨0, 1⟩ ⟨2, 1⟩, .removeNode ⟨1, 1⟩, .appendChild ⟨1, 1⟩ ⟨2, 1⟩,
        .appendChild ⟨1, 1⟩ ⟨0, 1⟩]
    (new true).noneLoops operations = true ∧ ((new true).performAll operations).Forest ∧
      (Operation.appendChild ⟨0, 1⟩ ⟨1, 1⟩).loops ((new true).performAll operations) = true := by
  intro operations
  have straight : (new true).noneLoops operations = true := by decide +kernel
  exact ⟨straight, (performAll_forest true operations straight).1, by decide +kernel⟩

/-- A node that is appended to itself is above itself, and the way up from it never ends. -/
theorem appendChild_self_cycle :
    let doc := (new false).performAll [.createElement "a", .appendChild ⟨0, 1⟩ ⟨0, 1⟩]
    ¬doc.Forest ∧ ∀ n, (doc.climb n (some ⟨0, 1⟩)).length = n := by
  intro doc
  have up : doc.parent? ⟨0, 1⟩ = some ⟨0, 1⟩ := by decide +kernel
  refine ⟨fun forest => forest _ (.single up), fun n => ?_⟩
  induction n with
  | zero => rfl
  | succ n ih => rw [climb, up, List.length_cons, ih]

end Document
end LiveTemplate
