import LiveTemplate.Proofs.Building
import LiveTemplate.Proofs.Passes

/-!
# LiveTemplate.Proofs.Standing

Live subtrees in a document. A part of the document belongs to each: the nodes built for the plan,
which hold what the last pass computed, and the parts of what is mounted at the extension points.

  * `Template.Tidy`   what compiling guarantees of a template
  * `Template.Own`    the nodes of the plan of an instance
  * `Subtree.Stands`  a live subtree and its part of the document
  * `Own.update_ends` one pass over the bindings
-/

namespace LiveTemplate

variable {κ : Type}

/-- What is assumed of a run. -/
structure Terms where
  /-- No directives but the built-in ones are in play. What nodes hold is told only then. -/
  builtin : Prop
  /-- A reference always leads to one list or map. The values that nodes show are told only then. -/
  coherent : Prop

/-- Everything is told. -/
abbrev Terms.full : Terms := ⟨True, True⟩

/-- A heap for the values that the host holds on to and for those of a scope. -/
structure Heap.Knows (heap : Heap) (held : κ → Heap) (scope : Scope) (s : Stage κ) : Prop where
  covers : heap.Covers held s
  fits : scope.Fits heap

/-- Where references need not lead to one list or map, nothing has to be known of them. -/
theorem Heap.knows_nothing {terms : Terms} (loose : ¬terms.coherent) (held : κ → Heap)
    (scope : Scope) (s : Stage κ) : terms.coherent → Heap.Knows (fun _ => False) held scope s :=
  fun coherent => absurd coherent loose

theorem Heap.Knows.grow {heap more : Heap} {held : κ → Heap} {scope : Scope} {s s' : Stage κ}
    (h : heap.Knows held scope s) (grown : more.Extends heap) (covers : more.Covers held s') :
    more.Knows held scope s' := ⟨covers, h.fits.mono grown⟩

/-- A heap that has grown so that something fits it. -/
def Heap.Grown (heap : Heap) (terms : Terms) (held : κ → Heap) (s : Stage κ)
    (fits : Heap → Prop) : Prop :=
  ∃ more : Heap, more.Extends heap ∧ (terms.coherent → more.Covers held s ∧ fits more)

/-- What is asked of a host. Only its directives may write to the document. -/
structure Host.Behaves (terms : Terms) (host : Host κ) (held : κ → Heap) : Prop where
  quiet : host.Quiet
  consistent : terms.coherent → host.Consistent held
  decorates : terms.builtin ∨ host.Decorates held

/-- The node at a position below another. -/
def Document.descend (doc : Document) : NodeId → List Nat → Option NodeId
  | x, [] => some x
  | x, i :: q => (doc.get? x).bind fun n => n.children[i]?.bind fun c => doc.descend c q

/-- The target is the one of the path: the root, or the number of the path among the anchors. -/
def Binding.Reaches (b : Binding) (anchors : List Path) : Prop :=
  b.target = .root ∧ b.path = .root ∨ ∃ slot, b.target = .anchor slot ∧ anchors[slot]? = some b.path

theorem Binding.Reaches.path_eq {b c : Binding} {anchors : List Path} (hb : b.Reaches anchors)
    (hc : c.Reaches anchors) (same : b.target = c.target) : b.path = c.path := by
  rcases hb with ⟨root, path⟩ | ⟨slot, target, path⟩ <;>
    rcases hc with ⟨root', path'⟩ | ⟨slot', target', path'⟩
  · rw [path, path']
  · rw [root, target'] at same
    cases same
  · rw [target, root'] at same
    cases same
  · rw [target, target'] at same
    cases same
    rw [path] at path'
    exact Option.some.inj path'

namespace Template

open Document

/-- The position of the node that is written to. -/
def targetPath? (t : Template) : Target → Option (List Nat)
  | .root => some []
  | .anchor slot => t.slotPath? slot

/-- The values for the node at a position. -/
def valuesAt (t : Template) (values : List (Binding × Computed)) (q : List Nat) :
    List (Binding × Computed) :=
  values.filter fun p => decide (t.targetPath? p.1.target = some q)

/-- What compiling guarantees of a template, apart from what is mounted in it. -/
structure Tidy (strict : Prop) (t : Template) : Prop where
  builtin : strict → ∀ b ∈ t.bindings, b.action.isBuiltin = true
  reach : ∀ b ∈ t.bindings, b.Reaches t.anchors
  distinct : (t.bindings.map Binding.anchor).Nodup
  nodup : t.anchors.Nodup
  rootless : Path.root ∉ t.anchors
  solid : t.plan.hole? = none
  bare : t.plan.anchor? = none
  holes : t.plan.holes.map Prod.fst = (List.range t.extensions.length).reverse
  wired : ∀ q p, t.plan.at? q = some p → ∀ w ∈ p.wirings, w.event ∈ t.events

theorem anchor_of_slotPath {t : Template} {slot : Nat} {q : List Nat}
    (h : t.slotPath? slot = some q) : ∃ p, t.plan.at? q = some p ∧ p.anchor? = some slot :=
  Plan.mem_marks.mp (mem_of_lookup h)

theorem hole?_of_anchor {p : Plan} {slot : Nat} (h : p.anchor? = some slot) : p.hole? = none := by
  cases p <;> first | rfl | cases h

theorem hole?_of_kids {p kid : Plan} {i : Nat} (h : p.kids[i]? = some kid) : p.hole? = none := by
  cases p <;> first | rfl | cases h

variable {terms : Terms} {t : Template}

theorem Tidy.slot_lt {strict : Prop} (tidy : t.Tidy strict) {b : Binding} (mem : b ∈ t.bindings) {slot : Nat}
    (target : b.target = .anchor slot) : slot < t.anchors.length := by
  rcases tidy.reach b mem with ⟨root, _⟩ | ⟨other, target', path⟩
  · rw [target] at root
    cases root
  · rw [target] at target'
    cases target'
    exact (List.getElem?_eq_some_iff.mp path).1

/-- The root has no number. -/
theorem Tidy.slotPath?_ne_root {strict : Prop} (tidy : t.Tidy strict) (slot : Nat) :
    t.slotPath? slot ≠ some [] := by
  intro h
  obtain ⟨p, found, anchor⟩ := anchor_of_slotPath h
  rw [Plan.at?_nil] at found
  cases found
  rw [tidy.bare] at anchor
  cases anchor

/-- Every node has at most one number. -/
theorem Tidy.target_unique (tidy : t.Tidy terms.builtin) {a b : Target} {q : List Nat}
    (ha : t.targetPath? a = some q) (hb : t.targetPath? b = some q) : a = b := by
  cases a with
  | root =>
    cases ha
    cases b with
    | root => rfl
    | anchor slot => exact (tidy.slotPath?_ne_root slot hb).elim
  | anchor slot =>
    cases b with
    | root => cases hb; exact (tidy.slotPath?_ne_root slot ha).elim
    | anchor other =>
      obtain ⟨p, found, anchor⟩ := anchor_of_slotPath ha
      obtain ⟨p', found', anchor'⟩ := anchor_of_slotPath hb
      rw [found] at found'
      cases found'
      rw [anchor] at anchor'
      cases anchor'
      rfl

/-- The values for one node go to different facets of it. -/
theorem Tidy.apart_at (tidy : t.Tidy terms.builtin) {values : List (Binding × Computed)}
    (same : values.map Prod.fst = t.bindings) (q : List Nat) : Apart (t.valuesAt values q) := by
  have distinct := tidy.distinct
  rw [← same, List.map_map, List.Nodup, List.pairwise_map] at distinct
  refine (distinct.filter _).imp_of_mem fun {a b} ha hb differ facet => differ ?_
  obtain ⟨ha, ta⟩ := List.mem_filter.mp ha
  obtain ⟨hb, tb⟩ := List.mem_filter.mp hb
  have target := tidy.target_unique (of_decide_eq_true ta) (of_decide_eq_true tb)
  have path := (tidy.reach a.1 (same ▸ List.mem_map_of_mem ha)).path_eq
    (tidy.reach b.1 (same ▸ List.mem_map_of_mem hb)) target
  change Anchor.mk a.1.path a.1.action.facet = Anchor.mk b.1.path b.1.action.facet
  rw [path, facet]

/-- A node that shows some values. -/
structure Shows (terms : Terms) (p : Plan) (children : List NodeId)
    (values : List (Binding × Computed)) (node : Node) : Prop where
  content : terms.builtin → terms.coherent → node.content = contentAfter values p.content
  kind : terms.builtin → node.content.isElement = p.content.isElement
  children : node.children = children
  wired : ∃ scope, p.Wired scope node.handlers
  data : terms.coherent → Holds values node.handlerData

/-- The nodes built for the plan of an instance, which show the values of its bindings. The places
of extension points are those of what is mounted there. -/
structure Own (terms : Terms) (t : Template) (doc : Document) (place : List Nat → NodeId)
    (values : List (Binding × Computed)) : Prop where
  solid : t.plan.hole? = none
  node : ∀ q p, t.plan.at? q = some p → p.hole? = none → ∃ node, doc.get? (place q) = some node ∧
    Shows terms p (p.kidPlaces place q) (t.valuesAt values q) node
  inj : ∀ q r p p', t.plan.at? q = some p → t.plan.at? r = some p' → p.hole? = none →
    p'.hole? = none → place q = place r → q = r
  anchored : t.Anchored doc place
  heard : ∀ event ∈ t.events, event ∈ doc.listening

/-- The nodes of the plan. -/
def ground (t : Template) (place : List Nat → NodeId) : Set NodeId :=
  fun x => ∃ q p, t.plan.at? q = some p ∧ p.hole? = none ∧ x = place q

/-- The values that a snapshot has; before the first pass there are none. -/
inductive Remembers (t : Template) : Option Snapshot → List (Binding × Computed) → Prop
  | nothing : Remembers t none []
  | pass (values : List (Binding × Computed)) (applied : Nat)
      (bound : values.map Prod.fst = t.bindings) :
      Remembers t (some (t.snapshotOf values applied)) values

namespace Own

variable {doc : Document} {place : List Nat → NodeId} {values : List (Binding × Computed)}

/-- Every binding reaches the node of its position. -/
theorem reach (own : t.Own terms doc place values) (tidy : t.Tidy terms.builtin) {b : Binding}
    (mem : b ∈ t.bindings) : ∃ q p, t.targetPath? b.target = some q ∧ t.plan.at? q = some p ∧
      p.hole? = none ∧ b.node? doc (place []) = some (place q) := by
  unfold Binding.node?
  cases target : b.target with
  | root => exact ⟨[], t.plan, rfl, Plan.at?_nil _, tidy.solid, rfl⟩
  | anchor slot =>
    obtain ⟨nodes, kept, found⟩ := own.anchored
    obtain ⟨q, path, here⟩ := found slot (tidy.slot_lt mem target)
    obtain ⟨p, part, anchor⟩ := anchor_of_slotPath path
    refine ⟨q, p, path, part, hole?_of_anchor anchor, ?_⟩
    change (doc.anchors? (place [])).bind (·[slot]?) = _
    rw [kept]
    exact here

/-- The places of the plan are found by following the children. -/
theorem descend (own : t.Own terms doc place values) {r : List Nat} {p : Plan}
    (top : t.plan.at? r = some p) {q : List Nat} {p' : Plan} (found : p.at? q = some p') :
    doc.descend (place r) q = some (place (r ++ q)) := by
  induction q generalizing r p with
  | nil => rw [List.append_nil]; rfl
  | cons i q ih =>
    rw [Plan.at?_cons] at found
    obtain ⟨kid, here, found⟩ := Option.bind_eq_some_iff.mp found
    obtain ⟨node, live, shows⟩ := own.node r p top (hole?_of_kids here)
    have child : node.children[i]? = some (place (r ++ [i])) := by
      obtain ⟨lt, _⟩ := List.getElem?_eq_some_iff.mp here
      rw [shows.children, Plan.kidPlaces, List.getElem?_map, List.getElem?_range lt]
      rfl
    have below := ih ((Plan.at?_snoc top i).trans here) found
    rw [List.append_assoc, List.singleton_append] at below
    rw [Document.descend, live, Option.bind_some, child, Option.bind_some, below]

theorem writesOn_place (own : t.Own terms doc place values) (tidy : t.Tidy terms.builtin)
    {news : List (Binding × Computed)} (bound : ∀ n ∈ news, n.1 ∈ t.bindings) {q : List Nat}
    {p : Plan} (part : t.plan.at? q = some p) (solid : p.hole? = none) :
    writesOn doc (place []) news (place q) = t.valuesAt news q := by
  refine List.filter_congr fun n mem => decide_eq_decide.mpr ?_
  obtain ⟨r, p', path, part', solid', reached⟩ := own.reach tidy (bound n mem)
  rw [reached, path]
  constructor
  · intro same
    rw [own.inj r q p' p part' part solid' solid (Option.some.inj same)]
  · intro same
    rw [Option.some.inj same]

theorem writesOn_outside (own : t.Own terms doc place values) (tidy : t.Tidy terms.builtin)
    {news : List (Binding × Computed)} (bound : ∀ n ∈ news, n.1 ∈ t.bindings) {x : NodeId}
    (out : x ∉ t.ground place) : writesOn doc (place []) news x = [] := by
  refine List.filter_eq_nil_iff.mpr fun n mem here => out ?_
  obtain ⟨q, p, _, part, solid, reached⟩ := own.reach tidy (bound n mem)
  rw [reached] at here
  exact ⟨q, p, part, solid, (Option.some.inj (of_decide_eq_true here)).symm⟩

end Own

/-- What the bindings of a template come to under a scope. -/
def Computes (host : Host κ) (held : κ → Heap) (scope : Scope) (t : Template)
    (values : List (Binding × Computed)) : Prop :=
  ∃ s s' heap, Heap.Knows heap held scope s ∧
    computeAll host (scope.narrow t.vars).read t.bindings s = .ok values s'

/-- What the values that changed make of the node at a position. -/
theorem Remembers.catchUp {previous : Option Snapshot} {olds news : List (Binding × Computed)}
    (remembers : t.Remembers previous olds) (tidy : t.Tidy terms.builtin)
    (bound : news.map Prod.fst = t.bindings) (suits : ∀ n ∈ news, n.1.action.Suits n.2)
    {heap : Heap} {next : Ref} (sound : heap.Sound next) (fo : ∀ p ∈ olds, p.2.Fits heap)
    (fn : ∀ p ∈ news, p.2.Fits heap) (q : List Nat) (c : Content) (data : Table (List Value)) :
    (terms.builtin → contentAfter (t.valuesAt (changes previous news) q)
        (contentAfter (t.valuesAt olds q) c) = contentAfter (t.valuesAt news q) c) ∧
      (Holds (t.valuesAt olds q) data →
        Holds (t.valuesAt news q) (dataAfter (t.valuesAt (changes previous news) q) data)) := by
  have apart := tidy.apart_at bound q
  have swap : t.valuesAt (changes previous news) q =
      (t.valuesAt news q).filter fun n => !n.1.isUnchanged previous n.2 := by
    unfold valuesAt changes
    rw [List.filter_filter, List.filter_filter]
    exact List.filter_congr fun n _ => Bool.and_comm _ _
  have sub : ∀ n ∈ t.valuesAt news q, n ∈ news := fun n hn => (List.mem_filter.mp hn).1
  cases remembers with
  | nothing =>
    have all : changes none news = news := List.filter_eq_self.mpr fun n _ => rfl
    rw [all]
    exact ⟨fun _ => rfl, fun h => h.first apart⟩
  | pass olds applied bound' =>
    have rel := renews applied tidy.distinct bound' bound sound fo fn
    have here : List.Forall₂
        (Renews fun n => n.1.isUnchanged (some (t.snapshotOf olds applied)) n.2)
        (t.valuesAt olds q) (t.valuesAt news q) :=
      List.rel_filter (fun {o n} renewed => by beta_reduce; rw [renewed.1]) rel
    rw [swap]
    refine ⟨fun hs => ?_, fun h => h.changes here apart⟩
    refine contentAfter_changes here (fun n hn => ?_) (fun n hn => suits n (sub n hn)) apart c
    exact tidy.builtin hs n.1 (bound ▸ List.mem_map_of_mem (sub n hn))

namespace Own

variable {doc doc' : Document} {place : List Nat → NodeId} {olds news : List (Binding × Computed)}

/-- A pass writes the new values to the nodes of the instance. -/
theorem written (own : t.Own terms doc place olds) (tidy : t.Tidy terms.builtin)
    {previous : Option Snapshot} (remembers : t.Remembers previous olds)
    (bound : news.map Prod.fst = t.bindings) (suits : ∀ n ∈ news, n.1.action.Suits n.2)
    {heap : Heap} {next : Ref} (known : terms.coherent → heap.Sound next ∧
      (∀ p ∈ olds, p.2.Fits heap) ∧ ∀ p ∈ news, p.2.Fits heap)
    (wrote : doc.Written terms.builtin (writesOn doc (place []) (changes previous news)) doc') :
    t.Own terms doc' place news := by
  have bound' : ∀ n ∈ changes previous news, n.1 ∈ t.bindings :=
    fun n hn => bound ▸ List.mem_map_of_mem (List.mem_filter.mp hn).1
  refine ⟨own.solid, fun q p part solid => ?_, own.inj, ?_, ?_⟩
  · obtain ⟨node, found, shows⟩ := own.node q p part solid
    obtain ⟨content, found', same⟩ := wrote.nodes _ node found
    have writes := own.writesOn_place tidy bound' part solid
    rw [writes] at found' same
    have catchUp := fun hc =>
      let ⟨sound, fo, fn⟩ := known hc
      remembers.catchUp tidy bound suits sound fo fn q p.content node.handlerData
    refine ⟨_, found', fun hb hc => ?_, fun hb => ?_, shows.children, shows.wired, fun hc =>
      (catchUp hc).2 (shows.data hc)⟩
    · exact (same hb).trans (by rw [shows.content hb hc, (catchUp hc).1 hb])
    · rw [same hb, isElement_contentAfter]
      exact shows.kind hb
  · obtain ⟨nodes, kept, places⟩ := own.anchored
    exact ⟨nodes, (wrote.anchors _).trans kept, places⟩
  · intro event mem
    rw [show doc'.listening = doc.listening from congrArg Prod.snd wrote.hearing]
    exact own.heard event mem

/-- A pass leaves the nodes of others alone. -/
theorem keeps_of_written (own : t.Own terms doc place olds) (tidy : t.Tidy terms.builtin)
    (sound : doc.Sound) (bound : ∀ n ∈ news, n.1 ∈ t.bindings)
    (wrote : doc.Written terms.builtin (writesOn doc (place []) news) doc') :
    doc.Spares terms.builtin (t.ground place) doc' := by
  refine ⟨fun x node out found => ?_, wrote.sound sound,
    fun heard => heard.of_hearing wrote.hearing, fun event mem => ?_⟩
  · obtain ⟨content, found', same⟩ := wrote.nodes x node found
    rw [own.writesOn_outside tidy bound out] at found' same
    exact ⟨_, found', rfl, same, (List.map_id _).symm, rfl, rfl, rfl⟩
  · rw [show doc'.listening = doc.listening from congrArg Prod.snd wrote.hearing]
    exact mem

/-- One pass. It stops at a value that cannot be computed, before it writes anything. -/
theorem update_ends {host : Host κ} {held : κ → Heap} (behaves : host.Behaves terms held)
    {s : Stage κ} {scope : Scope} {heap : Heap} (own : t.Own terms s.document place olds)
    (tidy : t.Tidy terms.builtin) {previous : Option Snapshot} (remembers : t.Remembers previous olds)
    (sound : s.document.Sound)
    (known : terms.coherent → heap.Knows held scope s ∧ ∀ p ∈ olds, p.2.Fits heap) :
    Ends (t.update host scope (place []) previous) s
      (fun snapshot s' => ∃ news, t.Own terms s'.document place news ∧
        t.Remembers (some snapshot) news ∧ (terms.coherent → t.Computes host held scope news) ∧
        s.document.Spares terms.builtin (t.ground place) s'.document ∧
        (∀ x, s'.document.parent? x = s.document.parent? x) ∧
        (∀ x, s.document.get? x = none → s'.document.get? x = none) ∧
        heap.Grown terms held s' fun more => ∀ p ∈ news, p.2.Fits more)
      (fun s' => s'.document = s.document) := by
  have own' : ¬previous.any (·.template ≠ t.id) = true := by
    cases remembers <;> simp [snapshotOf]
  unfold update
  rw [if_neg own']
  have leaves : (Host.ending
      (computeAll host (scope.narrow t.vars).read t.bindings s)).document = s.document :=
    computeAll_leaves behaves.quiet t.bindings s
  refine Ends.bind (Ends.of_run (fun news s₁ run => ?_) fun e s₁ run => ?_)
  · rw [run] at leaves
    change s₁.document = s.document at leaves
    obtain ⟨bound, suits⟩ := computeAll_values run
    obtain ⟨more, grown, known₁⟩ : heap.Grown terms held s₁ fun more => ∀ p ∈ news, p.2.Fits more := by
      by_cases hc : terms.coherent
      · have knows := (known hc).1
        obtain ⟨more, grown, covers, fits⟩ :=
          (behaves.consistent hc).computeAll knows.covers knows.fits run
        exact ⟨more, grown, fun _ => ⟨covers, fits⟩⟩
      · exact ⟨heap, .refl heap, fun hc' => absurd hc' hc⟩
    rw [← leaves] at own sound ⊢
    have bound' : ∀ n ∈ news, n.1 ∈ t.bindings := fun n hn => bound ▸ List.mem_map_of_mem hn
    obtain ⟨s₂, run₂, wrote, most, grown', covers'⟩ :=
      applyAll_written behaves.decorates (place []) previous
        (fun hs n hn => tidy.builtin hs n.1 (bound' n hn)) known₁ fun n hn =>
          let ⟨_, _, _, _, _, reached⟩ := own.reach tidy (bound' n hn)
          ⟨_, reached⟩
    refine Ends.of_ok (bind_of_ok run₂) ?_
    refine ⟨news, ?_, .pass news _ bound, fun hc => ⟨s, s₁, heap, (known hc).1, run⟩, ?_,
      wrote.parent, wrote.dead, most, grown.trans grown', fun hc =>
        ⟨covers' hc, fun p hp => ((known₁ hc).2 p hp).mono grown'⟩⟩
    · exact own.written tidy remembers bound suits (fun hc => ⟨(known₁ hc).1.sound,
        fun p hp => ((known hc).2 p hp).mono grown, (known₁ hc).2⟩) wrote
    · exact own.keeps_of_written tidy sound
        (fun n hn => bound' n (List.mem_filter.mp hn).1) wrote
  · rw [run] at leaves
    exact leaves

end Own

/-! ## Changes elsewhere -/

theorem Shows.follow {p : Plan} {children : List NodeId} {values : List (Binding × Computed)}
    {node node' : Node} {f : NodeId → NodeId} (h : Shows terms p children values node)
    (follows : node.Follows terms.builtin f node') : Shows terms p (children.map f) values node' where
  content := fun hb hc => (follows.content hb).trans (h.content hb hc)
  kind := fun hb => by rw [follows.content hb]; exact h.kind hb
  children := by rw [follows.children, h.children]
  wired := by rw [follows.handlers]; exact h.wired
  data := by rw [follows.data]; exact h.data

/-- The nodes of the plan stay, and other nodes come to stand at the extension points. -/
theorem Own.follow {doc doc' : Document} {place : List Nat → NodeId}
    {values : List (Binding × Computed)} {f : NodeId → NodeId}
    (own : t.Own terms doc place values)
    (nodes : ∀ x node, x ∈ t.ground place → doc.get? x = some node →
      ∃ node', doc'.get? x = some node' ∧ node.Follows terms.builtin f node')
    (fixed : ∀ x ∈ t.ground place, f x = x)
    (listening : ∀ event ∈ doc.listening, event ∈ doc'.listening) :
    t.Own terms doc' (f ∘ place) values := by
  have same {q : List Nat} {p : Plan} (part : t.plan.at? q = some p) (solid : p.hole? = none) :
      f (place q) = place q := fixed _ ⟨q, p, part, solid, rfl⟩
  have root := same (Plan.at?_nil _) own.solid
  refine ⟨own.solid, fun q p part solid => ?_, fun q r p p' hq hr sq sr h => ?_, ?_, fun event mem =>
    listening event (own.heard event mem)⟩
  · obtain ⟨node, found, shows⟩ := own.node q p part solid
    obtain ⟨node', found', follows⟩ := nodes _ node ⟨q, p, part, solid, rfl⟩ found
    refine ⟨node', ?_, ?_⟩
    · rw [Function.comp_apply, same part solid]
      exact found'
    · rw [show p.kidPlaces (f ∘ place) q = (p.kidPlaces place q).map f from
        (List.map_map ..).symm]
      exact shows.follow follows
  · rw [Function.comp_apply, Function.comp_apply, same hq sq, same hr sr] at h
    exact own.inj q r p p' hq hr sq sr h
  · obtain ⟨ids, kept, places⟩ := own.anchored
    refine ⟨ids, ?_, fun slot hslot => ?_⟩
    · obtain ⟨node, found, _⟩ := own.node [] t.plan (Plan.at?_nil _) own.solid
      obtain ⟨node', found', follows⟩ := nodes _ node ⟨[], _, Plan.at?_nil _, own.solid, rfl⟩ found
      rw [anchors?, found] at kept
      rw [Function.comp_apply, root, anchors?, found']
      exact follows.anchors.trans kept
    · obtain ⟨q, path, here⟩ := places slot hslot
      obtain ⟨p, part, anchor⟩ := anchor_of_slotPath path
      refine ⟨q, path, ?_⟩
      rw [Function.comp_apply, same part (hole?_of_anchor anchor)]
      exact here

theorem ground_comp {place : List Nat → NodeId} {f : NodeId → NodeId}
    (fixed : ∀ x ∈ t.ground place, f x = x) : t.ground (f ∘ place) = t.ground place := by
  ext x
  constructor
  · rintro ⟨q, p, part, solid, rfl⟩
    rw [Function.comp_apply, fixed _ ⟨q, p, part, solid, rfl⟩]
    exact ⟨q, p, part, solid, rfl⟩
  · rintro ⟨q, p, part, solid, rfl⟩
    exact ⟨q, p, part, solid, (fixed _ ⟨q, p, part, solid, rfl⟩).symm⟩

/-- The places of the extension points are those of what is mounted there. -/
def Filled (t : Template) (place : List Nat → NodeId) (mounted : List NodeId) : Prop :=
  ∀ index q, (index, q) ∈ t.plan.holes → mounted[index]? = some (place q)

/-- An instance, given the nodes of what is mounted in it and the rest of the document that belongs
to that. -/
structure Rooted (terms : Terms) (t : Template) (doc : Document) (root : NodeId)
    (snapshot : Option Snapshot) (mounted : List NodeId) (rest : Set NodeId)
    (place : List Nat → NodeId) (values : List (Binding × Computed)) : Prop where
  root : place [] = root
  own : t.Own terms doc place values
  remembers : t.Remembers snapshot values
  filled : t.Filled place mounted
  apart : Disjoint (t.ground place) rest

end Template

/-! ## Live subtrees -/

mutual

/-- A property of every template in a subtree. What a condition shows or hides is a template. -/
def Subtree.Each (P : Template → Prop) : Subtree → Prop
  | .template t => t.Each P
  | .conditional _ (.template t) => t.Each P
  | .conditional _ (.conditional _ _) => False

def Template.Each (P : Template → Prop) : Template → Prop
  | t@⟨_, _, _, _, extensions, _, _⟩ => P t ∧ Extension.AllEach P extensions

def Extension.AllEach (P : Template → Prop) : List Extension → Prop
  | [] => True
  | ⟨_, _, subtree⟩ :: rest => subtree.Each P ∧ Extension.AllEach P rest

end

theorem Template.each_iff {P : Template → Prop} {t : Template} :
    t.Each P ↔ P t ∧ Extension.AllEach P t.extensions := by
  obtain ⟨id, plan, bindings, anchors, extensions, events, handlers⟩ := t
  rw [Template.Each]

mutual

/-- A live subtree, and the part of the document that belongs to it. -/
def Subtree.Stands (terms : Terms) (doc : Document) : Subtree → Mount → Set NodeId → Prop
  | .template t, m, part => t.Stands terms doc m part
  | .conditional _ body, .conditional node (some m), part =>
    node = m.node ∧ body.Stands terms doc m part
  | .conditional _ _, .conditional node none, part =>
    part = {node} ∧ ∃ n, doc.get? node = some n ∧ (terms.builtin → n.content = .comment "v-if") ∧
      n.children = [] ∧ n.handlers = [] ∧ n.handlerData = []
  | .conditional _ _, .template _ _ _, _ => False

def Template.Stands (terms : Terms) (doc : Document) : Template → Mount → Set NodeId → Prop
  | t@⟨_, _, _, _, extensions, _, _⟩, .template root snapshot children, part =>
    ∃ place values rest, t.Rooted terms doc root snapshot (children.map Mount.node) rest place
      values ∧ part = t.ground place ∪ rest ∧ Extension.StandAll terms doc extensions children rest
  | _, .conditional _ _, _ => False

/-- What is mounted at extension points, each with a part of its own. -/
def Extension.StandAll (terms : Terms) (doc : Document) :
    List Extension → List Mount → Set NodeId → Prop
  | [], [], part => part = ∅
  | ⟨_, _, subtree⟩ :: rest, m :: ms, part =>
    ∃ here there, part = here ∪ there ∧ Disjoint here there ∧ subtree.Stands terms doc m here ∧
      Extension.StandAll terms doc rest ms there
  | [], _ :: _, _ => False
  | _ :: _, [], _ => False

end

section

variable {terms : Terms} {doc doc' : Document}

theorem Template.stands_iff {t : Template} {m : Mount} {part : Set NodeId} :
    t.Stands terms doc m part ↔ ∃ root snapshot children place values rest,
      m = .template root snapshot children ∧
      t.Rooted terms doc root snapshot (children.map Mount.node) rest place values ∧
      part = t.ground place ∪ rest ∧
      Extension.StandAll terms doc t.extensions children rest := by
  obtain ⟨id, plan, bindings, anchors, extensions, events, handlers⟩ := t
  cases m with
  | conditional node body =>
    rw [Template.Stands]
    refine ⟨False.elim, ?_⟩
    rintro ⟨_, _, _, _, _, _, same, _⟩
    cases same
  | template root snapshot children =>
    rw [Template.Stands]
    constructor
    · rintro ⟨place, values, rest, h⟩
      exact ⟨root, snapshot, children, place, values, rest, rfl, h⟩
    · rintro ⟨_, _, _, place, values, rest, same, h⟩
      cases same
      exact ⟨place, values, rest, h⟩

theorem Subtree.Stands.exists_eq {condition : Condition} {body : Subtree} {m : Mount}
    {part : Set NodeId} (h : (Subtree.conditional condition body).Stands terms doc m part) :
    ∃ node mounted, m = .conditional node mounted := by
  cases m with
  | template root snapshot children =>
    rw [Subtree.Stands] at h
    exact h.elim
  | conditional node mounted => exact ⟨node, mounted, rfl⟩

theorem Extension.StandAll.eq_nil {ms : List Mount} {part : Set NodeId}
    (h : Extension.StandAll terms doc [] ms part) : ms = [] := by
  cases ms with
  | nil => rfl
  | cons m ms =>
    rw [Extension.StandAll] at h
    exact h.elim

theorem Extension.StandAll.exists_cons {path : Path} {name : String} {subtree : Subtree}
    {extensions : List Extension} {ms : List Mount} {part : Set NodeId}
    (h : Extension.StandAll terms doc (⟨path, name, subtree⟩ :: extensions) ms part) :
    ∃ m rest here there, ms = m :: rest ∧ part = here ∪ there ∧ Disjoint here there ∧
      subtree.Stands terms doc m here ∧ Extension.StandAll terms doc extensions rest there := by
  cases ms with
  | nil =>
    rw [Extension.StandAll] at h
    exact h.elim
  | cons m rest =>
    rw [Extension.StandAll] at h
    obtain ⟨here, there, parts⟩ := h
    exact ⟨m, rest, here, there, rfl, parts⟩

theorem Template.Stands.node_mem {t : Template} {m : Mount} {part : Set NodeId}
    (h : t.Stands terms doc m part) : m.node ∈ part := by
  obtain ⟨_, _, _, place, _, _, rfl, rooted, rfl, _⟩ := Template.stands_iff.mp h
  exact .inl ⟨[], t.plan, Plan.at?_nil _, rooted.own.solid, rooted.root.symm⟩

theorem Subtree.Stands.node_mem : ∀ {subtree : Subtree} {m : Mount} {part : Set NodeId},
    subtree.Stands terms doc m part → m.node ∈ part
  | .template t, m, part, h => by
    rw [Subtree.Stands] at h
    exact h.node_mem
  | .conditional condition body, .conditional node (some m), part, h => by
    rw [Subtree.Stands] at h
    obtain ⟨rfl, h⟩ := h
    exact Subtree.Stands.node_mem (m := m) h
  | .conditional condition body, .conditional node none, part, h => by
    rw [Subtree.Stands] at h
    obtain ⟨rfl, _⟩ := h
    rfl
  | .conditional condition body, .template root snapshot children, part, h => by
    rw [Subtree.Stands] at h
    exact h.elim

theorem Extension.StandAll.node_mem {extensions : List Extension} {ms : List Mount}
    {part : Set NodeId} (h : Extension.StandAll terms doc extensions ms part) {x : NodeId}
    (mem : x ∈ ms.map Mount.node) : x ∈ part := by
  induction extensions generalizing ms part with
  | nil =>
    cases h.eq_nil
    cases mem
  | cons extension rest ih =>
    obtain ⟨path, name, subtree⟩ := extension
    obtain ⟨m, ms, here, there, rfl, rfl, _, stands, others⟩ := h.exists_cons
    rcases List.mem_cons.mp mem with rfl | mem
    · exact .inl stands.node_mem
    · exact .inr (ih others mem)

/-- The nodes of the plan, with what is mounted in them. -/
theorem Template.Own.region {t : Template} {place : List Nat → NodeId}
    {values : List (Binding × Computed)} (own : t.Own terms doc place values)
    {mounted : List NodeId} (filled : t.Filled place mounted) {rest : Set NodeId}
    (inside : ∀ x ∈ mounted, x ∈ rest) (region : doc.Region rest) :
    doc.Region (t.ground place ∪ rest) := by
  rintro x (⟨q, p, found, solid, rfl⟩ | mem)
  · obtain ⟨node, live, shows⟩ := own.node q p found solid
    refine ⟨node, live, fun c hc => ?_⟩
    rw [shows.children] at hc
    obtain ⟨i, hi, rfl⟩ := List.mem_map.mp hc
    have kid : t.plan.at? (q ++ [i]) = some (p.kids.get ⟨i, List.mem_range.mp hi⟩) := by
      rw [Plan.at?_snoc found]
      exact List.getElem?_eq_getElem _
    cases hole : (p.kids.get ⟨i, List.mem_range.mp hi⟩).hole? with
    | none => exact .inl ⟨_, _, kid, hole, rfl⟩
    | some index =>
      have spot := Plan.mem_collect.mpr ⟨_, kid, hole⟩
      exact .inr (inside _ (List.mem_of_getElem? (filled index _ spot)))
  · obtain ⟨node, live, below⟩ := region x mem
    exact ⟨node, live, fun c hc => .inr (below c hc)⟩

mutual

theorem Subtree.Stands.region : ∀ {subtree : Subtree} {m : Mount} {part : Set NodeId},
    subtree.Stands terms doc m part → doc.Region part
  | .template t, m, part, h => by
    rw [Subtree.Stands] at h
    exact Template.Stands.region h
  | .conditional condition body, .conditional node (some m), part, h => by
    rw [Subtree.Stands] at h
    exact Subtree.Stands.region h.2
  | .conditional condition body, .conditional node none, part, h => by
    rw [Subtree.Stands] at h
    obtain ⟨rfl, n, found, _, leaf, _⟩ := h
    rintro x rfl
    exact ⟨n, found, fun c hc => by rw [leaf] at hc; cases hc⟩
  | .conditional condition body, .template root snapshot children, part, h => by
    rw [Subtree.Stands] at h
    exact h.elim

theorem Template.Stands.region : ∀ {t : Template} {m : Mount} {part : Set NodeId},
    t.Stands terms doc m part → doc.Region part
  | ⟨id, plan, bindings, anchors, extensions, events, handlers⟩, m, part, h => by
    obtain ⟨_, _, _, place, _, _, rfl, rooted, rfl, mounted⟩ := Template.stands_iff.mp h
    exact rooted.own.region rooted.filled (fun x => mounted.node_mem)
      (Extension.StandAll.region mounted)

theorem Extension.StandAll.region : ∀ {extensions : List Extension} {ms : List Mount}
    {part : Set NodeId}, Extension.StandAll terms doc extensions ms part → doc.Region part
  | [], [], part, h => by
    rw [Extension.StandAll] at h
    subst h
    exact fun x mem => (Set.notMem_empty x mem).elim
  | ⟨path, name, subtree⟩ :: rest, m :: ms, part, h => by
    rw [Extension.StandAll] at h
    obtain ⟨here, there, rfl, _, stands, others⟩ := h
    exact (Subtree.Stands.region stands).union (Extension.StandAll.region others)
  | [], m :: ms, part, h => by rw [Extension.StandAll] at h; exact h.elim
  | _ :: _, [], part, h => by rw [Extension.StandAll] at h; exact h.elim

end

mutual

/-- A live subtree stands as long as its part of the document is left alone. -/
theorem Subtree.Stands.agrees : ∀ {subtree : Subtree} {m : Mount} {part : Set NodeId},
    subtree.Stands terms doc m part → doc.Agrees terms.builtin part doc' →
      subtree.Stands terms doc' m part
  | .template t, m, part, h, agrees => by
    rw [Subtree.Stands] at h ⊢
    exact Template.Stands.agrees h agrees
  | .conditional condition body, .conditional node (some m), part, h, agrees => by
    rw [Subtree.Stands] at h ⊢
    exact ⟨h.1, Subtree.Stands.agrees h.2 agrees⟩
  | .conditional condition body, .conditional node none, part, h, agrees => by
    rw [Subtree.Stands] at h ⊢
    obtain ⟨rfl, n, found, content, leaf, handlers, data⟩ := h
    obtain ⟨n', found', follows⟩ := agrees.nodes node n rfl found
    refine ⟨rfl, n', found', fun hs => (follows.content hs).trans (content hs), ?_,
      follows.handlers.trans handlers, follows.data.trans data⟩
    rw [follows.children, leaf]
    rfl
  | .conditional condition body, .template root snapshot children, part, h, _ => by
    rw [Subtree.Stands] at h
    exact h.elim

theorem Template.Stands.agrees : ∀ {t : Template} {m : Mount} {part : Set NodeId},
    t.Stands terms doc m part → doc.Agrees terms.builtin part doc' → t.Stands terms doc' m part
  | ⟨id, plan, bindings, anchors, extensions, events, handlers⟩, m, part, h, agrees => by
    obtain ⟨root, snapshot, children, place, values, rest, rfl, rooted, rfl, mounted⟩ :=
      Template.stands_iff.mp h
    refine Template.stands_iff.mpr ⟨root, snapshot, children, place, values, rest, rfl,
      ⟨rooted.root, ?_, rooted.remembers, rooted.filled, rooted.apart⟩, rfl,
      Extension.StandAll.agrees mounted (agrees.mono Set.subset_union_right)⟩
    exact rooted.own.follow (fun x node mem found => agrees.nodes x node (.inl mem) found)
      (fun _ _ => rfl) agrees.listening

theorem Extension.StandAll.agrees : ∀ {extensions : List Extension} {ms : List Mount}
    {part : Set NodeId}, Extension.StandAll terms doc extensions ms part →
      doc.Agrees terms.builtin part doc' → Extension.StandAll terms doc' extensions ms part
  | [], [], part, h, _ => by
    rw [Extension.StandAll] at h ⊢
    exact h
  | ⟨path, name, subtree⟩ :: rest, m :: ms, part, h, agrees => by
    rw [Extension.StandAll] at h ⊢
    obtain ⟨here, there, rfl, apart, stands, others⟩ := h
    exact ⟨here, there, rfl, apart,
      Subtree.Stands.agrees stands (agrees.mono Set.subset_union_left),
      Extension.StandAll.agrees others (agrees.mono Set.subset_union_right)⟩
  | [], m :: ms, part, h, _ => by rw [Extension.StandAll] at h; exact h.elim
  | _ :: _, [], part, h, _ => by rw [Extension.StandAll] at h; exact h.elim

end

end
end LiveTemplate
