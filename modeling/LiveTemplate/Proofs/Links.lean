import LiveTemplate.Document.Events
import LiveTemplate.Proofs.Slots

/-!
# LiveTemplate.Proofs.Links

The link invariant of a document, for every sequence of its operations and whatever ids they are
given.

* `Linked` is the invariant: parents list their children exactly once, children point back, and
  attribute names are distinct.
* Each operation is first described by what `get?` finds after it (`get?_detach`, `get?_attach`,
  `get?_supplant`, ...); the cases in which its ids coincide are settled there.
* `Freeing` is the invariant of the loop that frees a subtree: between two turns the nodes on the
  stack have lost their parents.
-/

namespace LiveTemplate
namespace Document

/-! ## What operations leave behind -/

@[simp] theorem get?_record (doc : Document) (m : Mutation) (x : NodeId) :
    (doc.record m).get? x = doc.get? x := rfl

@[simp] theorem nodes_record (doc : Document) (m : Mutation) : (doc.record m).nodes = doc.nodes :=
  rfl

theorem get?_modify (doc : Document) (id : NodeId) (f : Node → Node) (x : NodeId) :
    (doc.modify id f).get? x = if x = id then (doc.get? x).map f else doc.get? x :=
  Slots.get?_modify doc.nodes id f x

theorem contains_iff {doc : Document} {id : NodeId} :
    doc.contains id = true ↔ ∃ node, doc.get? id = some node := by
  simp [contains, Slots.contains, get?, Option.isSome_iff_exists]

theorem parent?_eq_some {doc : Document} {id p : NodeId} :
    doc.parent? id = some p ↔ ∃ node, doc.get? id = some node ∧ node.parent = some p := by
  simp [parent?, Option.bind_eq_some_iff]

theorem climb_none (doc : Document) (k : Nat) : doc.climb k none = [] := by
  cases k <;> rfl

/-- Two writes to two nodes, seen from every node at once. -/
theorem get?_modify_modify (doc : Document) (a b : NodeId) (f g : Node → Node) (x : NodeId) :
    ((doc.modify a f).modify b g).get? x =
      (doc.get? x).map fun n =>
        if x = b then g (if x = a then f n else n) else if x = a then f n else n := by
  rw [get?_modify, get?_modify]
  split <;> split <;> simp [Function.comp_def]

theorem get?_detach {doc : Document} {id p : NodeId} (h : doc.parent? id = some p) (x : NodeId) :
    (doc.detach id).get? x =
      (doc.get? x).map fun n =>
        { n with
          parent := if x = id then none else n.parent
          children := if x = p then n.children.filter (· ≠ id) else n.children } := by
  unfold detach
  rw [h]
  simp only
  rw [get?_modify_modify]
  congr 1
  funext n
  split <;> split <;> rfl

theorem detach_of_detached {doc : Document} {id : NodeId} (h : doc.parent? id = none) :
    doc.detach id = doc := by
  unfold detach
  rw [h]

/-- Makes a detached node the last child of another. -/
def attach (doc : Document) (parent child : NodeId) : Document :=
  (doc.modify child ({ · with parent := some parent })).modify parent fun node =>
    { node with children := node.children ++ [child] }

theorem get?_attach (doc : Document) (parent child x : NodeId) :
    (doc.attach parent child).get? x =
      (doc.get? x).map fun n =>
        { n with
          parent := if x = child then some parent else n.parent
          children := if x = parent then n.children ++ [child] else n.children } := by
  unfold attach
  rw [get?_modify_modify]
  congr 1
  funext n
  split <;> split <;> rfl

/-- Puts a detached node in the place of a child of `parent`. -/
def supplant (doc : Document) (parent old new : NodeId) : Document :=
  ((doc.modify parent fun node =>
      { node with children := replaceFirst old new node.children }).modify old
        ({ · with parent := none })).modify new ({ · with parent := some parent })

theorem get?_supplant (doc : Document) {old new : NodeId} (h : old ≠ new) (parent x : NodeId) :
    (doc.supplant parent old new).get? x =
      (doc.get? x).map fun n =>
        { n with
          parent := if x = new then some parent else if x = old then none else n.parent
          children := if x = parent then replaceFirst old new n.children else n.children } := by
  unfold supplant
  rw [get?_modify, get?_modify_modify]
  by_cases hn : x = new
  · subst hn
    rw [if_pos rfl]
    simp only [Option.map_map]
    congr 1
    funext n
    simp only [Function.comp_def, if_true, Ne.symm h, if_false]
    split <;> rfl
  · simp only [hn, if_false]
    congr 1
    funext n
    split <;> split <;> rfl

/-! ## The invariant -/

/-- The links of live nodes agree, and no element has an attribute twice. -/
structure Linked (doc : Document) : Prop where
  listed : ∀ {n p : NodeId} {node : Node}, doc.get? n = some node → node.parent = some p →
    ∃ above, doc.get? p = some above ∧ above.children.count n = 1
  pointsBack : ∀ {p c : NodeId} {node : Node}, doc.get? p = some node → c ∈ node.children →
    ∃ below, doc.get? c = some below ∧ below.parent = some p
  distinctNames : ∀ {n : NodeId} {node : Node} {tag : String} {attributes : List (String × String)}
    {properties : Table Value}, doc.get? n = some node →
    node.content = .element tag attributes properties → (attributes.map Prod.fst).Nodup

/-- Distinct names, as a property of one content. -/
def DistinctNames : Content → Prop
  | .element _ attributes _ => (attributes.map Prod.fst).Nodup
  | _ => True

theorem distinctNames_iff {c : Content} : DistinctNames c ↔
    ∀ {tag : String} {attributes : List (String × String)} {properties : Table Value},
      c = .element tag attributes properties → (attributes.map Prod.fst).Nodup := by
  cases c <;> simp [DistinctNames]

namespace Linked

variable {doc : Document}

theorem names (h : doc.Linked) {n : NodeId} {node : Node} (hn : doc.get? n = some node) :
    DistinctNames node.content :=
  distinctNames_iff.mpr fun e => h.distinctNames hn e

/-- A child has one parent, and stands there once. -/
theorem count_child (h : doc.Linked) {p c : NodeId} {node : Node} (hp : doc.get? p = some node)
    (hc : c ∈ node.children) : node.children.count c = 1 := by
  obtain ⟨below, hb, hpar⟩ := h.pointsBack hp hc
  obtain ⟨above, ha, hcount⟩ := h.listed hb hpar
  rw [hp] at ha
  cases ha
  exact hcount

theorem nodup_children (h : doc.Linked) {p : NodeId} {node : Node} (hp : doc.get? p = some node) :
    node.children.Nodup :=
  List.nodup_iff_count_eq_one.mpr fun _ hc => h.count_child hp hc

/-- A node without a parent is nobody's child. -/
theorem not_child_of_detached (h : doc.Linked) {p c : NodeId} {node : Node}
    (hc : doc.parent? c = none) (hp : doc.get? p = some node) : c ∉ node.children := by
  intro hm
  obtain ⟨below, hb, hpar⟩ := h.pointsBack hp hm
  rw [parent?_eq_some.mpr ⟨below, hb, hpar⟩] at hc
  cases hc

/-- A change of single nodes that leaves their links alone. -/
theorem map_nodes {doc' : Document} (h : doc.Linked) (g : NodeId → Node → Node)
    (hget : ∀ x, doc'.get? x = (doc.get? x).map (g x))
    (hpar : ∀ x n, (g x n).parent = n.parent) (hkids : ∀ x n, (g x n).children = n.children)
    (hnames : ∀ x n, doc.get? x = some n → DistinctNames (g x n).content) : doc'.Linked := by
  refine ⟨?_, ?_, ?_⟩
  · intro n p node hn hp
    rw [hget] at hn
    obtain ⟨old, ho, rfl⟩ := Option.map_eq_some_iff.mp hn
    rw [hpar] at hp
    obtain ⟨above, ha, hcount⟩ := h.listed ho hp
    exact ⟨g p above, by rw [hget, ha]; rfl, by rw [hkids]; exact hcount⟩
  · intro p c node hp hc
    rw [hget] at hp
    obtain ⟨old, ho, rfl⟩ := Option.map_eq_some_iff.mp hp
    rw [hkids] at hc
    obtain ⟨below, hb, hback⟩ := h.pointsBack ho hc
    exact ⟨g c below, by rw [hget, hb]; rfl, by rw [hpar]; exact hback⟩
  · intro n node tag attributes properties hn hcontent
    rw [hget] at hn
    obtain ⟨old, ho, rfl⟩ := Option.map_eq_some_iff.mp hn
    exact distinctNames_iff.mp (hnames n old ho) hcontent

/-- A change of links only keeps the names. -/
theorem relink {doc' : Document} (h : doc.Linked) (par : NodeId → Node → Option NodeId)
    (kids : NodeId → Node → List NodeId)
    (hget : ∀ x, doc'.get? x =
      (doc.get? x).map fun n => { n with parent := par x n, children := kids x n })
    (hlisted : ∀ n p node, doc.get? n = some node → par n node = some p →
      ∃ above, doc.get? p = some above ∧ (kids p above).count n = 1)
    (hback : ∀ p c node, doc.get? p = some node → c ∈ kids p node →
      ∃ below, doc.get? c = some below ∧ par c below = some p) : doc'.Linked := by
  refine ⟨?_, ?_, ?_⟩
  · intro n p node hn hp
    rw [hget] at hn
    obtain ⟨old, ho, rfl⟩ := Option.map_eq_some_iff.mp hn
    obtain ⟨above, ha, hcount⟩ := hlisted n p old ho hp
    exact ⟨_, by rw [hget, ha]; rfl, hcount⟩
  · intro p c node hp hc
    rw [hget] at hp
    obtain ⟨old, ho, rfl⟩ := Option.map_eq_some_iff.mp hp
    obtain ⟨below, hb, hpar⟩ := hback p c old ho hc
    exact ⟨_, by rw [hget, hb]; rfl, hpar⟩
  · intro n node tag attributes properties hn hcontent
    rw [hget] at hn
    obtain ⟨old, ho, rfl⟩ := Option.map_eq_some_iff.mp hn
    exact h.distinctNames ho hcontent

/-! ## Detaching, attaching, replacing -/

theorem detach (h : doc.Linked) (id : NodeId) : (doc.detach id).Linked := by
  cases hid : doc.parent? id with
  | none => rw [detach_of_detached hid]; exact h
  | some p =>
    obtain ⟨self, hself, hselfp⟩ := parent?_eq_some.mp hid
    refine h.relink (fun x n => if x = id then none else n.parent)
      (fun x n => if x = p then n.children.filter (· ≠ id) else n.children)
      (get?_detach hid) ?_ ?_
    · intro n q node hn hq
      by_cases same : n = id
      · rw [if_pos same] at hq; cases hq
      · rw [if_neg same] at hq
        obtain ⟨above, ha, hcount⟩ := h.listed hn hq
        refine ⟨above, ha, ?_⟩
        split
        · rw [List.count_filter (by simp [same])]; exact hcount
        · exact hcount
    · intro q c node hq hc
      -- The detached node is gone from the only list it stood in.
      have other : c ≠ id ∧ c ∈ node.children := by
        by_cases hqp : q = p
        · rw [if_pos hqp, List.mem_filter] at hc
          exact ⟨by simpa using hc.2, hc.1⟩
        · rw [if_neg hqp] at hc
          refine ⟨?_, hc⟩
          rintro rfl
          obtain ⟨below, hb, hback⟩ := h.pointsBack hq hc
          rw [hself] at hb
          cases hb
          rw [hselfp] at hback
          exact hqp (Option.some.inj hback).symm
      obtain ⟨below, hb, hback⟩ := h.pointsBack hq other.2
      exact ⟨below, hb, by rw [if_neg other.1]; exact hback⟩

theorem attach (h : doc.Linked) {parent child : NodeId} (hp : doc.contains parent = true)
    (hc : doc.contains child = true) (hd : doc.parent? child = none) :
    (doc.attach parent child).Linked := by
  obtain ⟨top, htop⟩ := contains_iff.mp hp
  obtain ⟨sub, hsub⟩ := contains_iff.mp hc
  refine h.relink (fun x n => if x = child then some parent else n.parent)
    (fun x n => if x = parent then n.children ++ [child] else n.children)
    (get?_attach doc parent child) ?_ ?_
  · intro n q node hn hq
    by_cases same : n = child
    · rw [if_pos same] at hq
      cases hq
      refine ⟨top, htop, ?_⟩
      have absent : top.children.count n = 0 :=
        List.count_eq_zero.mpr (same ▸ h.not_child_of_detached hd htop)
      rw [if_pos rfl, List.count_append, absent, same]
      simp
    · rw [if_neg same] at hq
      obtain ⟨above, ha, hcount⟩ := h.listed hn hq
      refine ⟨above, ha, ?_⟩
      split
      · rw [List.count_append, hcount, List.count_eq_zero.mpr (by simpa using same)]
      · exact hcount
  · intro q c node hq hm
    by_cases same : c = child
    · subst same
      refine ⟨sub, hsub, ?_⟩
      rw [if_pos rfl]
      by_cases hqp : q = parent
      · rw [hqp]
      · rw [if_neg hqp] at hm
        exact absurd hm (h.not_child_of_detached hd hq)
    · have hm' : c ∈ node.children := by
        split at hm
        · simpa [same] using hm
        · exact hm
      obtain ⟨below, hb, hback⟩ := h.pointsBack hq hm'
      exact ⟨below, hb, by rw [if_neg same]; exact hback⟩

end Linked

theorem mem_replaceFirst {old new x : NodeId} {ids : List NodeId} (distinct : ids.Nodup) :
    x ∈ replaceFirst old new ids ↔ (x ∈ ids ∧ x ≠ old) ∨ (x = new ∧ old ∈ ids) := by
  induction ids with
  | nil => simp [replaceFirst]
  | cons id rest ih =>
    obtain ⟨fresh, distinct⟩ := List.nodup_cons.mp distinct
    simp only [replaceFirst]
    split
    · rename_i same
      subst same
      simp only [List.mem_cons, true_or, and_true]
      constructor
      · rintro (rfl | hx)
        · exact .inr rfl
        · exact .inl ⟨.inr hx, fun e => fresh (e ▸ hx)⟩
      · rintro (⟨rfl | hx, hne⟩ | rfl)
        · exact absurd rfl hne
        · exact .inr hx
        · exact .inl rfl
    · rename_i other
      simp only [List.mem_cons, ih distinct]
      constructor
      · rintro (rfl | ⟨hx, hne⟩ | ⟨rfl, ho⟩)
        · exact .inl ⟨.inl rfl, other⟩
        · exact .inl ⟨.inr hx, hne⟩
        · exact .inr ⟨rfl, .inr ho⟩
      · rintro (⟨rfl | hx, hne⟩ | ⟨rfl, he | ho⟩)
        · exact .inl rfl
        · exact .inr (.inl ⟨hx, hne⟩)
        · exact absurd he.symm other
        · exact .inr (.inr ⟨rfl, ho⟩)

theorem nodup_replaceFirst {old new : NodeId} {ids : List NodeId} (distinct : ids.Nodup)
    (absent : new ∉ ids) : (replaceFirst old new ids).Nodup := by
  induction ids with
  | nil => exact List.nodup_nil
  | cons id rest ih =>
    obtain ⟨fresh, distinct⟩ := List.nodup_cons.mp distinct
    simp only [List.mem_cons, not_or] at absent
    simp only [replaceFirst]
    split
    · exact List.nodup_cons.mpr ⟨absent.2, distinct⟩
    · refine List.nodup_cons.mpr ⟨?_, ih distinct absent.2⟩
      rw [mem_replaceFirst distinct]
      rintro (⟨hm, -⟩ | ⟨he, -⟩)
      · exact fresh hm
      · exact absent.1 he.symm

theorem Linked.supplant {doc : Document} (h : doc.Linked) {parent old new : NodeId}
    (hne : old ≠ new) (ho : doc.parent? old = some parent) (hn : doc.contains new = true)
    (hd : doc.parent? new = none) : (doc.supplant parent old new).Linked := by
  obtain ⟨self, hself, hselfp⟩ := parent?_eq_some.mp ho
  obtain ⟨top, htop, honce⟩ := h.listed hself hselfp
  obtain ⟨sub, hsub⟩ := contains_iff.mp hn
  have hkids := h.nodup_children htop
  have hold : old ∈ top.children := List.count_pos_iff.mp (by omega)
  have hnew : new ∉ top.children := h.not_child_of_detached hd htop
  refine h.relink
    (fun x n => if x = new then some parent else if x = old then none else n.parent)
    (fun x n => if x = parent then replaceFirst old new n.children else n.children)
    (get?_supplant doc hne parent) ?_ ?_
  · intro n q node hn hq
    by_cases isNew : n = new
    · rw [if_pos isNew] at hq
      cases hq
      refine ⟨top, htop, ?_⟩
      rw [if_pos rfl, isNew]
      exact List.count_eq_one_of_mem (nodup_replaceFirst hkids hnew)
        ((mem_replaceFirst hkids).mpr (.inr ⟨rfl, hold⟩))
    · rw [if_neg isNew] at hq
      by_cases isOld : n = old
      · rw [if_pos isOld] at hq; cases hq
      · rw [if_neg isOld] at hq
        obtain ⟨above, ha, hcount⟩ := h.listed hn hq
        refine ⟨above, ha, ?_⟩
        by_cases hqp : q = parent
        · subst hqp
          rw [htop] at ha
          cases ha
          rw [if_pos rfl]
          exact List.count_eq_one_of_mem (nodup_replaceFirst hkids hnew)
            ((mem_replaceFirst hkids).mpr
              (.inl ⟨List.count_pos_iff.mp (by omega), isOld⟩))
        · rw [if_neg hqp]; exact hcount
  · intro q c node hq hm
    by_cases hqp : q = parent
    · subst hqp
      rw [htop] at hq
      cases hq
      rw [if_pos rfl, mem_replaceFirst hkids] at hm
      rcases hm with ⟨hm, hco⟩ | ⟨rfl, -⟩
      · obtain ⟨below, hb, hback⟩ := h.pointsBack htop hm
        have hcn : c ≠ new := fun e => hnew (e ▸ hm)
        exact ⟨below, hb, by rw [if_neg hcn, if_neg hco]; exact hback⟩
      · exact ⟨sub, hsub, by rw [if_pos rfl]⟩
    · rw [if_neg hqp] at hm
      obtain ⟨below, hb, hback⟩ := h.pointsBack hq hm
      have hcn : c ≠ new := fun e => h.not_child_of_detached hd hq (e ▸ hm)
      have hco : c ≠ old := by
        rintro rfl
        rw [hself] at hb
        cases hb
        rw [hselfp] at hback
        exact hqp (Option.some.inj hback).symm
      exact ⟨below, hb, by rw [if_neg hcn, if_neg hco]; exact hback⟩

/-! ## Freeing -/

/-- The links while a subtree is being freed. Nodes on the stack still name a parent, but it is
gone. -/
structure Freeing (nodes : Slots Node) (stack : List NodeId) : Prop where
  listed : ∀ {n p : NodeId} {node : Node}, nodes.get? n = some node → node.parent = some p →
    (∃ above, nodes.get? p = some above ∧ above.children.count n = 1) ∨ n ∈ stack
  pointsBack : ∀ {p c : NodeId} {node : Node}, nodes.get? p = some node → c ∈ node.children →
    ∃ below, nodes.get? c = some below ∧ below.parent = some p
  orphaned : ∀ {n p : NodeId} {node : Node}, n ∈ stack → nodes.get? n = some node →
    node.parent = some p → nodes.get? p = none

theorem Freeing.skip {nodes : Slots Node} {id : NodeId} {stack : List NodeId}
    (h : Freeing nodes (id :: stack)) (hid : nodes.get? id = none) : Freeing nodes stack := by
  refine ⟨?_, h.pointsBack, fun hm => h.orphaned (List.mem_cons_of_mem _ hm)⟩
  intro n p node hn hp
  rcases h.listed hn hp with hl | hm
  · exact .inl hl
  · rcases List.mem_cons.mp hm with rfl | hm
    · rw [hid] at hn; cases hn
    · exact .inr hm

theorem Freeing.erase {nodes : Slots Node} {id : NodeId} {self : Node} {stack : List NodeId}
    (h : Freeing nodes (id :: stack)) (hid : nodes.get? id = some self) :
    Freeing (nodes.erase id) (self.children.reverse ++ stack) := by
  have survives {x : NodeId} {node : Node} (hx : (nodes.erase id).get? x = some node) :
      x ≠ id ∧ nodes.get? x = some node := by
    rw [Slots.get?_erase] at hx
    split at hx
    · cases hx
    · rename_i other
      exact ⟨other, hx⟩
  -- No survivor has `id` among its children: the parent that `id` names is dead.
  have unlisted {p : NodeId} {node : Node} (hp : nodes.get? p = some node) :
      id ∉ node.children := by
    intro hm
    obtain ⟨below, hb, hback⟩ := h.pointsBack hp hm
    rw [h.orphaned List.mem_cons_self hb hback] at hp
    cases hp
  refine ⟨?_, ?_, ?_⟩
  · intro n p node hlive hp
    obtain ⟨hne, hn⟩ := survives hlive
    by_cases hpid : p = id
    · subst hpid
      rcases h.listed hn hp with ⟨above, ha, hcount⟩ | hm
      · rw [hid] at ha
        cases ha
        have : n ∈ self.children := List.count_pos_iff.mp (by omega)
        exact .inr (by simp [this])
      · rw [h.orphaned hm hn hp] at hid
        cases hid
    · rcases h.listed hn hp with ⟨above, ha, hcount⟩ | hm
      · exact .inl ⟨above, by rw [Slots.get?_erase, if_neg hpid]; exact ha, hcount⟩
      · refine .inr (List.mem_append_right _ ?_)
        simpa [hne] using hm
  · intro p c node hp hc
    obtain ⟨-, hp⟩ := survives hp
    obtain ⟨below, hb, hback⟩ := h.pointsBack hp hc
    have hcid : c ≠ id := fun e => unlisted hp (e ▸ hc)
    exact ⟨below, by rw [Slots.get?_erase, if_neg hcid]; exact hb, hback⟩
  · intro n p node hm hn hp
    obtain ⟨hne, hn⟩ := survives hn
    rw [Slots.get?_erase]
    split
    · rfl
    · rename_i hpid
      rcases List.mem_append.mp hm with hm | hm
      · obtain ⟨below, hb, hback⟩ := h.pointsBack hid (List.mem_reverse.mp hm)
        rw [hn] at hb
        cases hb
        rw [hp] at hback
        exact absurd (Option.some.inj hback) hpid
      · exact h.orphaned (List.mem_cons_of_mem _ hm) hn hp

theorem freeAll_freeing {nodes : Slots Node} {freed : Nat} {stack : List NodeId}
    (h : Freeing nodes stack) : Freeing (freeAll nodes freed stack).2 [] := by
  fun_induction freeAll nodes freed stack with
  | case1 => exact h
  | case2 nodes freed id stack hid ih => exact ih (h.skip hid)
  | case3 nodes freed id stack self hid ih => exact ih (h.erase hid)

theorem freeAll_sound {nodes : Slots Node} {freed : Nat} {stack : List NodeId}
    (h : nodes.Sound) : (freeAll nodes freed stack).2.Sound := by
  fun_induction freeAll nodes freed stack with
  | case1 => exact h
  | case2 nodes freed id stack hid ih => exact ih h
  | case3 nodes freed id stack self hid ih => exact ih (Slots.sound_erase h id)

/-- Freeing only removes nodes. -/
theorem get?_of_freeAll {nodes : Slots Node} {freed : Nat} {stack : List NodeId} {x : NodeId}
    {node : Node} (h : (freeAll nodes freed stack).2.get? x = some node) :
    nodes.get? x = some node := by
  fun_induction freeAll nodes freed stack with
  | case1 => exact h
  | case2 nodes freed id stack hid ih => exact ih h
  | case3 nodes freed id stack self hid ih =>
    have := ih h
    rw [Slots.get?_erase] at this
    split at this
    · cases this
    · exact this

/-- Nodes outside a set that holds the stack and all children of its members are not freed. -/
theorem get?_freeAll_of_closed {nodes : Slots Node} {freed : Nat} {stack : List NodeId}
    (S : NodeId → Prop) (hstack : ∀ x ∈ stack, S x)
    (hclosed : ∀ x node, S x → nodes.get? x = some node → ∀ c ∈ node.children, S c) {x : NodeId}
    (hx : ¬S x) : (freeAll nodes freed stack).2.get? x = nodes.get? x := by
  fun_induction freeAll nodes freed stack with
  | case1 => rfl
  | case2 nodes freed id stack hid ih =>
    exact ih (fun y hy => hstack y (List.mem_cons_of_mem _ hy)) hclosed
  | case3 nodes freed id stack self hid ih =>
    have hself : S id := hstack id List.mem_cons_self
    have hne : x ≠ id := fun e => hx (e ▸ hself)
    rw [ih ?_ ?_, Slots.get?_erase, if_neg hne]
    · intro y hy
      rcases List.mem_append.mp hy with hy | hy
      · exact hclosed id self hself hid y (List.mem_reverse.mp hy)
      · exact hstack y (List.mem_cons_of_mem _ hy)
    · intro y node hy hget
      rw [Slots.get?_erase] at hget
      split at hget
      · cases hget
      · exact hclosed y node hy hget

theorem parent?_detach (doc : Document) (id : NodeId) : (doc.detach id).parent? id = none := by
  cases h : doc.parent? id with
  | none => rw [detach_of_detached h]; exact h
  | some p =>
    unfold parent?
    rw [get?_detach h]
    cases doc.get? id <;> simp

theorem parent?_detach_of_ne {doc : Document} {id x : NodeId} (h : x ≠ id) :
    (doc.detach id).parent? x = doc.parent? x := by
  cases hid : doc.parent? id with
  | none => rw [detach_of_detached hid]
  | some p =>
    unfold parent?
    rw [get?_detach hid]
    cases doc.get? x <;> simp [h]

theorem contains_detach (doc : Document) (id x : NodeId) :
    (doc.detach id).contains x = doc.contains x := by
  cases h : doc.parent? id with
  | none => rw [detach_of_detached h]
  | some p =>
    have := get?_detach h x
    simp only [contains, Slots.contains]
    change ((doc.detach id).get? x).isSome = (doc.get? x).isSome
    rw [this]
    cases doc.get? x <;> rfl

/-- Freeing a detached node and all below it leaves the links of the rest in order. -/
theorem Linked.free {doc : Document} (h : doc.Linked) {id : NodeId} (hd : doc.parent? id = none)
    (freed : Nat) : ({ doc with nodes := (freeAll doc.nodes freed [id]).2 } : Document).Linked := by
  have start : Freeing doc.nodes [id] := by
    refine ⟨fun hn hp => .inl (h.listed hn hp), h.pointsBack, ?_⟩
    intro n p node hm hn hp
    have := List.mem_singleton.mp hm
    subst this
    rw [parent?_eq_some.mpr ⟨node, hn, hp⟩] at hd
    cases hd
  have done : Freeing (freeAll doc.nodes freed [id]).2 [] := freeAll_freeing start
  refine ⟨?_, done.pointsBack, ?_⟩
  · intro n p node hn hp
    rcases done.listed hn hp with hl | hm
    · exact hl
    · cases hm
  · intro n node tag attributes properties hn hcontent
    exact h.distinctNames (get?_of_freeAll hn) hcontent

end Document
end LiveTemplate
