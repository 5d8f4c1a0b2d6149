import LiveTemplate.Proofs.Entries

/-!
# LiveTemplate.Proofs.Assembly

How the nodes of a plan are put together, as the journal tells it. A node is made, then everything
below it, and a child is attached as soon as it is complete.

  * `Plan.entries`        the entries of building a plan
  * `buildPlan_enters`    building makes these and no others
  * `NodeTree`            the nodes of an instance
  * `NodeTree.Orders`     every child is attached once, after all that is below it
-/

namespace LiveTemplate

theorem Ends.and {ε σ α : Type} {m : EStateM ε σ α} {s : σ} {ok ok' : α → σ → Prop}
    {failed failed' : σ → Prop} (h : Ends m s ok failed) (h' : Ends m s ok' failed') :
    Ends m s (fun a t => ok a t ∧ ok' a t) fun t => failed t ∧ failed' t :=
  Ends.of_run (fun _ _ run => ⟨h.ok run, h'.ok run⟩) fun _ _ run => ⟨h.error run, h'.error run⟩

namespace Document

/-- The journal got these entries. -/
def Logged (log : List Mutation) (doc doc' : Document) : Prop :=
  doc'.journal = doc.journal.map (· ++ log.toArray)

namespace Logged

variable {log log' : List Mutation} {a b c : Document}

theorem refl (doc : Document) : doc.Logged [] doc := by
  simp [Logged]

theorem trans (h : a.Logged log b) (k : b.Logged log' c) : a.Logged (log ++ log') c := by
  unfold Logged at h k ⊢
  rw [k, h]
  cases a.journal <;> simp

end Logged

theorem logged_perform (doc : Document) (operation : Operation) {m : Mutation}
    (noted : operation.noted? doc = some m) : doc.Logged [m] (operation.perform doc) := by
  have keeps : operation ≠ .takeJournal := by
    rintro rfl
    cases noted
  have journal := journal_of_noted doc keeps
  rwa [noted] at journal

end Document

namespace Plan

open Document

mutual

/-- The entries of building a plan, given the nodes of its positions. -/
def entries (place : List Nat → NodeId) : Plan → List Mutation
  | .element tag attributes handlers kids _ =>
    .createElement (place []) tag ::
      (attributes.map (fun attr => .setAttribute (place []) attr.1 attr.2) ++
        (handlers.map (fun w => .setHandler (place []) w.event) ++
          entriesOf (place []) place 0 kids))
  | .text content _ => [.createText (place []) content]
  | .comment _ | .placeholder _ => [.createComment (place [])]

/-- The entries of building the children of a node, from the child at `index` on. -/
def entriesOf (parent : NodeId) (place : List Nat → NodeId) (index : Nat) :
    List Plan → List Mutation
  | [] => []
  | kid :: rest =>
    kid.entries (fun q => place (index :: q)) ++
      .appendChild parent (place [index]) :: entriesOf parent place (index + 1) rest

end

theorem entriesOf_congr {parent : NodeId} {place place' : List Nat → NodeId} {i j : Nat}
    (same : ∀ k q, place ((i + k) :: q) = place' ((j + k) :: q)) (kids : List Plan) :
    entriesOf parent place i kids = entriesOf parent place' j kids := by
  induction kids generalizing i j with
  | nil => rfl
  | cons kid rest ih =>
    have first : (fun q => place (i :: q)) = fun q => place' (j :: q) := funext (same 0)
    have others := ih (i := i + 1) (j := j + 1) fun k q => by
      rw [Nat.add_right_comm, Nat.add_right_comm j]
      exact same (k + 1) q
    rw [entriesOf, entriesOf, first, others, show place [i] = place' [j] from same 0 []]

/-- A loop in which every turn makes one entry. -/
theorem loop_logged {α : Type} {body : α → PUnit → Construction (ForInStep PUnit)}
    (entry : α → Mutation) (P : Document → Prop)
    (turn : ∀ a site, P site.document → Ends (body a ⟨⟩) site
      (fun r site' => r = .yield ⟨⟩ ∧ P site'.document ∧
        site.document.Logged [entry a] site'.document) fun _ => True)
    (xs : List α) {site : Site} (start : P site.document) :
    Ends (forIn xs PUnit.unit body) site
      (fun _ site' => site.document.Logged (xs.map entry) site'.document) fun _ => True := by
  induction xs generalizing site with
  | nil => exact Logged.refl site.document
  | cons a rest ih =>
    rw [List.forIn_cons]
    refine Ends.bind ((turn a site start).imp ?_ fun _ h => h)
    rintro r site₁ ⟨rfl, kept, first⟩
    exact (ih kept).imp (fun _ _ others => first.trans others) fun _ h => h

theorem tag?_setAttribute {doc : Document} {id : NodeId} {tag : String} (name value : String)
    (h : doc.tag? id = some tag) : (doc.setAttribute id name value).tag? id = some tag := by
  unfold tag? content? at h ⊢
  rw [get?_setAttribute, if_pos rfl]
  cases live : doc.get? id with
  | none => rw [live] at h; cases h
  | some node =>
    rw [live] at h
    obtain ⟨content, _⟩ := node
    cases content <;> exact h

theorem wire_logged (scope : Scope) {id : NodeId} (w : Wiring) (site : Site)
    (live : site.document.contains id = true) : Ends (wire scope id w) site
      (fun _ site' => site'.document.contains id = true ∧
        site.document.Logged [.setHandler id w.event] site'.document) fun _ => True := by
  unfold wire
  split
  · case h_1 f _ =>
    refine ⟨?_, logged_perform site.document (.setHandler id w.event f) (if_pos live)⟩
    obtain ⟨node, found⟩ := contains_iff.mp live
    exact contains_iff.mpr ⟨_, by rw [get?_setHandler, if_pos rfl, found]; rfl⟩
  · trivial

mutual

/-- Building makes the entries of the plan and no others. -/
theorem build_enters (scope : Scope) : ∀ (plan : Plan) (site : Site), site.document.Sound →
    Ends (build scope plan) site
      (fun id site' => ∃ place, place [] = id ∧ plan.Built scope site site' place ∧
        site.document.Logged (plan.entries place) site'.document) fun _ => True
  | .text content anchor, site, sound => by
    rw [build]
    have adds := adds_insert sound (.text content) trivial
      (.createText (site.document.insert (.text content)).1 content)
    have logged := logged_perform site.document (.createText content) rfl
    cases anchor with
    | none => exact ⟨fun _ => _, rfl, built_leaf scope rfl rfl adds rfl rfl, logged⟩
    | some slot => exact ⟨fun _ => _, rfl, built_leaf scope rfl rfl adds rfl rfl, logged⟩
  | .comment content, site, sound => by
    rw [build]
    have adds := adds_insert sound (.comment content) trivial
      (.createComment (site.document.insert (.comment content)).1)
    have logged := logged_perform site.document (.createComment content) rfl
    exact ⟨fun _ => _, rfl, built_leaf scope rfl rfl adds rfl rfl, logged⟩
  | .placeholder index, site, sound => by
    rw [build]
    have adds := adds_insert sound (.comment "") trivial
      (.createComment (site.document.insert (.comment "")).1)
    have logged := logged_perform site.document (.createComment "") rfl
    exact ⟨fun _ => _, rfl, built_leaf scope rfl rfl adds rfl rfl, logged⟩
  | .element tag attributes handlers kids anchor, site, sound => by
    rw [build]
    have adds : site.Adds { site with document := (site.document.createElement tag).2 }
        (site.document.createElement tag).1 { content := .element tag [] [] } :=
      ⟨adds_insert sound (.element tag [] []) List.nodup_nil _, rfl, rfl⟩
    have created := logged_perform site.document (.createElement tag) rfl
    have tagged : (site.document.createElement tag).2.tag? (site.document.createElement tag).1 =
        some tag := by
      unfold tag? content?
      rw [adds.document.self]
      rfl
    refine Ends.bind (Ends.bind (((attributes_ends _ attributes adds).and
      (loop_logged (fun attr => .setAttribute (site.document.createElement tag).1 attr.1 attr.2)
        (·.tag? (site.document.createElement tag).1 = some tag) ?_ attributes tagged)).imp ?_
      fun _ _ => trivial))
    · rintro ⟨name, value⟩ site' tagged
      refine ⟨rfl, tag?_setAttribute name value tagged,
        logged_perform site'.document (.setAttribute _ name value) ?_⟩
      rw [Operation.noted?, tagged]
      rfl
    rintro _ site₂ ⟨adds, named⟩
    have live : site₂.document.contains (site.document.createElement tag).1 = true :=
      contains_iff.mpr ⟨_, adds.document.self⟩
    refine Ends.bind (((wires_ends scope _ handlers adds).and
      (loop_logged (fun w => .setHandler (site.document.createElement tag).1 w.event)
        (·.contains (site.document.createElement tag).1 = true) ?_ handlers live)).imp ?_
      fun _ _ => trivial)
    · intro w site' live
      exact Ends.bind ((wire_logged scope w site' live).imp (fun _ _ wired => ⟨rfl, wired⟩)
        fun _ h => h)
    rintro _ site₃ ⟨⟨table, adds, all, only⟩, heard⟩
    refine Ends.bind ((buildChildren_enters scope _ kids site₃ _ adds.document.sound
      adds.document.self).imp ?_ fun _ h => h)
    rintro _ site₄ ⟨place, built, below⟩
    have logged : site.document.Logged ((element tag attributes handlers kids anchor).entries
        (rootPlace (site.document.createElement tag).1 place)) site₄.document := by
      have shift (id : NodeId) : entriesOf id (rootPlace id place) 0 kids =
          entriesOf id place 0 kids :=
        entriesOf_congr (fun k q => by rw [rootPlace]) kids
      rw [entries, rootPlace, shift]
      exact created.trans (named.trans (heard.trans below))
    cases anchor with
    | none => exact ⟨_, rfl, built_element adds ⟨all, only⟩ built rfl rfl rfl, logged⟩
    | some slot => exact ⟨_, rfl, built_element adds ⟨all, only⟩ built rfl rfl rfl, logged⟩

theorem buildChildren_enters (scope : Scope) (parent : NodeId) : ∀ (kids : List Plan) (site : Site)
    (top : Node), site.document.Sound → site.document.get? parent = some top →
    Ends (buildChildren scope parent kids) site
      (fun _ site' => ∃ place, BuiltKids scope parent top kids site site' place ∧
        site.document.Logged (entriesOf parent place 0 kids) site'.document) fun _ => True
  | [], site, top, sound, hp => by
    have built := buildChildren_ends scope parent [] site top sound hp
    rw [buildChildren] at built ⊢
    obtain ⟨place, built⟩ := built
    exact ⟨place, built, .refl site.document⟩
  | kid :: kids, site, top, sound, hp => by
    rw [buildChildren]
    refine Ends.bind ((build_enters scope kid site sound).imp ?_ fun _ h => h)
    rintro _ site₁ ⟨first, rfl, built, logged⟩
    have hp₁ := built.grows.kept parent top id hp
    obtain ⟨self, live, _⟩ := built.laid.node [] kid (at?_nil kid)
    have out : parent ≠ first [] := by
      intro same
      rw [same, built.fresh [] kid (at?_nil kid)] at hp
      cases hp
    have hp₂ : (site₁.document.appendChild parent (first [])).get? parent =
        some { top with children := top.children ++ [first []] } := by
      rw [get?_appendChild hp₁ live built.detached, hp₁, Option.map_some, if_neg out, if_pos rfl]
    have attached := logged_perform site₁.document (.appendChild parent (first []))
      (if_pos (by rw [contains_iff.mpr ⟨_, hp₁⟩, contains_iff.mpr ⟨_, live⟩]; rfl))
    refine (buildChildren_enters scope parent kids
      { site₁ with document := site₁.document.appendChild parent (first []) } _
      (built.grows.sound.appendChild parent (first [])) hp₂).imp ?_ fun _ h => h
    rintro _ site₃ ⟨rest, others, logged'⟩
    refine ⟨_, BuiltKids.cons hp built rfl others, ?_⟩
    have shift : entriesOf parent (joinPlaces first rest) (0 + 1) kids =
        entriesOf parent rest 0 kids :=
      entriesOf_congr (fun k q => by rw [Nat.add_right_comm]; rfl) kids
    rw [entriesOf, shift]
    exact logged.trans (attached.trans logged')

end

end Plan

/-- Building a template makes the entries of its plan and no others. -/
theorem Template.buildPlan_enters (scope : Scope) (t : Template) {doc : Document}
    (sound : doc.Sound) :
    Ends (t.buildPlan scope) { document := doc }
      (fun root site => ∃ place, place [] = root ∧ t.Raised scope doc site place ∧
        doc.Logged (t.plan.entries place) site.document) fun _ => True := by
  have sound₁ : (t.listen doc).Sound := sound.of_nodes_eq (t.nodes_listen doc)
  have heard : doc.Logged [] (t.listen doc) :=
    t.listen_induct (P := fun d => doc.Logged [] d) (.refl doc) fun d event _ h =>
      h.trans (Document.journal_of_noted d
        (show Document.Operation.ensureListening event ≠ .takeJournal from nofun))
  unfold buildPlan
  refine Ends.bind (Ends.bind ((t.plan.build_enters scope { document := t.listen doc } sound₁).imp
    ?_ fun _ h => h))
  rintro _ site ⟨place, rfl, built, logged⟩
  refine Ends.bind (Ends.get ?_)
  dsimp only
  cases found : anchorNodes (place []) site.anchored t.anchors 0 with
  | error e => trivial
  | ok nodes =>
    have anchored : site.document.Logged [] (site.document.setAnchors (place []) nodes) :=
      Document.journal_of_noted site.document
        (show Document.Operation.setAnchors (place []) nodes ≠ .takeJournal from nofun)
    refine ⟨place, rfl, raised_of_built built found, ?_⟩
    simpa using heard.trans (logged.trans anchored)

/-! ## The tree of an instance -/

/-- The nodes of an instance: those of its plan, and those that are mounted in it. What is below a
mounted node is not told. -/
inductive NodeTree where
  | own (id : NodeId) (children : List NodeTree)
  | mounted (id : NodeId)

namespace NodeTree

def node : NodeTree → NodeId
  | .own id _ => id
  | .mounted id => id

mutual

/-- What is mounted, in document order. -/
def mounts : NodeTree → List NodeId
  | .own _ children => mountsOf children
  | .mounted id => [id]

def mountsOf : List NodeTree → List NodeId
  | [] => []
  | tree :: rest => tree.mounts ++ mountsOf rest

end

/-- A child somewhere in a tree, with its parent. -/
inductive Has : NodeTree → NodeId → NodeTree → Prop
  | here {id : NodeId} {children : List NodeTree} {kid : NodeTree} (mem : kid ∈ children) :
      Has (.own id children) id kid
  | deeper {id parent : NodeId} {children : List NodeTree} {top kid : NodeTree}
      (mem : top ∈ children) (has : Has top parent kid) : Has (.own id children) parent kid

theorem not_has_leaf {id parent : NodeId} {kid : NodeTree} :
    ¬(NodeTree.own id []).Has parent kid := by
  rintro (mem | ⟨mem, -⟩) <;> cases mem

/-- The child is attached to its parent after all of the instance's own nodes below it have been
attached to theirs. -/
def Attaches (log : List Mutation) (parent id : NodeId) (children : List NodeTree) : Prop :=
  ∃ before after, log = before ++ .appendChild parent id :: after ∧
    ∀ top kid kids, (NodeTree.own id children).Has top (.own kid kids) →
      Mutation.appendChild top kid ∈ before

theorem Attaches.extend {log : List Mutation} {parent id : NodeId} {children : List NodeTree}
    (h : Attaches log parent id children) (front back : List Mutation) :
    Attaches (front ++ (log ++ back)) parent id children := by
  obtain ⟨before, after, rfl, below⟩ := h
  refine ⟨front ++ before, after ++ back, by simp, fun top kid kids has => ?_⟩
  exact List.mem_append_right front (below top kid kids has)

/-- Every node of the instance's own is attached once, and after all those below it. -/
def Orders (tree : NodeTree) (log : List Mutation) : Prop :=
  ∀ parent id children, tree.Has parent (.own id children) →
    ∃ before after, log = before ++ .appendChild parent id :: after ∧
      (∀ top, Mutation.appendChild top id ∉ before ++ after) ∧
      ∀ top kid kids, (NodeTree.own id children).Has top (.own kid kids) →
        Mutation.appendChild top kid ∈ before

end NodeTree

/-- The node that an entry attaches. -/
def Mutation.attached? : Mutation → Option NodeId
  | .appendChild _ child => some child
  | _ => none

namespace Plan

open NodeTree

mutual

/-- The nodes of the positions, as a tree. What stands at an extension point is mounted. -/
def tree (place : List Nat → NodeId) : Plan → NodeTree
  | .element _ _ _ kids _ => .own (place []) (treesOf place 0 kids)
  | .text _ _ | .comment _ => .own (place []) []
  | .placeholder _ => .mounted (place [])

def treesOf (place : List Nat → NodeId) (index : Nat) : List Plan → List NodeTree
  | [] => []
  | kid :: rest => kid.tree (fun q => place (index :: q)) :: treesOf place (index + 1) rest

end

theorem node_tree (place : List Nat → NodeId) (plan : Plan) : (plan.tree place).node = place [] := by
  cases plan <;> rfl

theorem at?_of_kid {plan kid p : Plan} {i : Nat} {q : List Nat} (found : plan.kids[i]? = some kid)
    (at' : kid.at? q = some p) : plan.at? (i :: q) = some p := by
  rw [at?_cons, found]
  exact at'

/-- Apart from the extension points, the positions have the same nodes. -/
def Agree (place place' : List Nat → NodeId) (plan : Plan) : Prop :=
  ∀ q p, plan.at? q = some p → p.hole? = none → place' q = place q

variable {place place' : List Nat → NodeId}

theorem Agree.kid {tag : String} {attributes : List (String × String)} {handlers : List Wiring}
    {kids : List Plan} {anchor : Option Nat}
    (agree : Agree place place' (element tag attributes handlers kids anchor)) {i : Nat} {k : Plan}
    (found : kids[i]? = some k) : Agree (fun q => place (i :: q)) (fun q => place' (i :: q)) k :=
  fun q p at' solid => agree (i :: q) p (at?_of_kid found at') solid

mutual

theorem attaches_entries : ∀ {plan : Plan} {place place' : List Nat → NodeId},
    Agree place place' plan → ∀ {parent id : NodeId} {children : List NodeTree},
      (plan.tree place').Has parent (.own id children) →
        Attaches (plan.entries place) parent id children
  | .element tag attributes handlers kids anchor, place, place', agree, parent, id, children,
      has => by
    have root : place' [] = place [] := agree [] _ (at?_nil _) rfl
    rw [tree] at has
    have spot : parent = place [] ∧ .own id children ∈ treesOf place' 0 kids ∨
        ∃ tree ∈ treesOf place' 0 kids, tree.Has parent (.own id children) := by
      cases has with
      | here mem => exact .inl ⟨root, mem⟩
      | deeper mem has => exact .inr ⟨_, mem, has⟩
    have attached := attaches_entriesOf (place []) kids 0
      (fun j k found => by rw [Nat.zero_add]; exact agree.kid found) spot
    have whole := attached.extend (.createElement (place []) tag ::
      (attributes.map (fun attr => .setAttribute (place []) attr.1 attr.2) ++
        handlers.map fun w => .setHandler (place []) w.event)) []
    rw [entries]
    simpa using whole
  | .text content anchor, place, place', agree, parent, id, children, has =>
    (not_has_leaf has).elim
  | .comment content, place, place', agree, parent, id, children, has =>
    (not_has_leaf has).elim
  | .placeholder index, place, place', agree, parent, id, children, has => by cases has

theorem attaches_entriesOf (top : NodeId) : ∀ (kids : List Plan) (index : Nat)
    {place place' : List Nat → NodeId},
    (∀ j k, kids[j]? = some k →
      Agree (fun q => place ((index + j) :: q)) (fun q => place' ((index + j) :: q)) k) →
    ∀ {parent id : NodeId} {children : List NodeTree},
      (parent = top ∧ .own id children ∈ treesOf place' index kids ∨
        ∃ tree ∈ treesOf place' index kids, tree.Has parent (.own id children)) →
      Attaches (entriesOf top place index kids) parent id children
  | kid :: rest, index, place, place', agree, parent, id, children, has => by
    have first := agree 0 kid rfl
    have further : (parent = top ∧ .own id children ∈ treesOf place' (index + 1) rest ∨
        ∃ tree ∈ treesOf place' (index + 1) rest, tree.Has parent (.own id children)) →
        Attaches (entriesOf top place (index + 1) rest) parent id children :=
      attaches_entriesOf top rest (index + 1) fun j k found => by
        rw [Nat.add_right_comm]
        exact agree (j + 1) k found
    have later (h : Attaches (entriesOf top place (index + 1) rest) parent id children) :
        Attaches (entriesOf top place index (kid :: rest)) parent id children := by
      have whole := h.extend (kid.entries (fun q => place (index :: q)) ++
        [.appendChild top (place [index])]) []
      rw [entriesOf]
      simpa using whole
    rw [treesOf] at has
    rcases has with ⟨rfl, mem⟩ | ⟨tree, mem, has⟩
    · rcases List.mem_cons.mp mem with same | mem
      · -- The child itself: its entries come right before the one that attaches it.
        have solid : kid.hole? = none := by
          cases kid <;> first | rfl | cases same
        have node := congrArg NodeTree.node same
        rw [node_tree] at node
        have here : id = place [index] := node.trans (first [] kid (at?_nil kid) solid)
        refine ⟨kid.entries fun q => place (index :: q), entriesOf parent place (index + 1) rest, ?_,
          fun inner below kids' has => ?_⟩
        · rw [entriesOf, here]
        · rw [same] at has
          obtain ⟨before, after, split, _⟩ := attaches_entries first has
          have split : kid.entries (fun q => place (index :: q)) =
            before ++ .appendChild inner below :: after := split
          rw [split]
          exact List.mem_append_right before List.mem_cons_self
      · exact later (further (.inl ⟨rfl, mem⟩))
    · rcases List.mem_cons.mp mem with rfl | mem
      · have inner := (attaches_entries first has).extend []
          (.appendChild top (place [index]) :: entriesOf top place (index + 1) rest)
        rw [entriesOf]
        simpa using inner
      · exact later (further (.inr ⟨tree, mem, has⟩))

end

theorem attached_element (place : List Nat → NodeId) (tag : String)
    (attributes : List (String × String)) (handlers : List Wiring) (kids : List Plan)
    (anchor : Option Nat) :
    ((element tag attributes handlers kids anchor).entries place).filterMap Mutation.attached? =
      (entriesOf (place []) place 0 kids).filterMap Mutation.attached? := by
  have quiet {α : Type} {f : α → Mutation} (silent : ∀ a, (f a).attached? = none) (xs : List α) :
      (xs.map f).filterMap Mutation.attached? = [] := by
    rw [List.filterMap_map]
    exact List.filterMap_eq_nil_iff.mpr fun a _ => silent a
  rw [entries, List.filterMap_cons, List.filterMap_append, List.filterMap_append,
    quiet fun _ => rfl, quiet fun _ => rfl]
  rfl

mutual

/-- What is attached has a position below the root. -/
theorem mem_attached : ∀ {plan : Plan} {place : List Nat → NodeId} {x : NodeId},
    x ∈ (plan.entries place).filterMap Mutation.attached? →
      ∃ i q p, plan.at? (i :: q) = some p ∧ x = place (i :: q)
  | .element tag attributes handlers kids anchor, place, x, mem => by
    rw [attached_element] at mem
    obtain ⟨j, k, q, p, found, at', rfl⟩ := mem_attachedOf mem
    exact ⟨j, q, p, at?_of_kid found at', by rw [Nat.zero_add]⟩
  | .text content anchor, place, x, mem => by cases mem
  | .comment content, place, x, mem => by cases mem
  | .placeholder index, place, x, mem => by cases mem

theorem mem_attachedOf : ∀ {kids : List Plan} {parent : NodeId} {place : List Nat → NodeId}
    {index : Nat} {x : NodeId},
    x ∈ (entriesOf parent place index kids).filterMap Mutation.attached? →
      ∃ j k q p, kids[j]? = some k ∧ k.at? q = some p ∧ x = place ((index + j) :: q)
  | kid :: rest, parent, place, index, x, mem => by
    rw [entriesOf, List.filterMap_append, List.filterMap_cons] at mem
    rcases List.mem_append.mp mem with mem | mem
    · obtain ⟨i, q, p, at', rfl⟩ := mem_attached mem
      exact ⟨0, kid, i :: q, p, rfl, at', rfl⟩
    · rcases List.mem_cons.mp mem with rfl | mem
      · exact ⟨0, kid, [], kid, rfl, at?_nil kid, rfl⟩
      · obtain ⟨j, k, q, p, found, at', rfl⟩ := mem_attachedOf mem
        exact ⟨j + 1, k, q, p, found, at', by rw [Nat.add_right_comm]; rfl⟩

end

mutual

/-- Nothing is attached twice. -/
theorem nodup_attached : ∀ {plan : Plan} {place : List Nat → NodeId},
    (∀ q r p p', plan.at? q = some p → plan.at? r = some p' → place q = place r → q = r) →
      ((plan.entries place).filterMap Mutation.attached?).Nodup
  | .element tag attributes handlers kids anchor, place, inj => by
    rw [attached_element]
    refine nodup_attachedOf (place []) kids 0 fun i j k l q r p p' hk hl hq hr same => ?_
    rw [Nat.zero_add, Nat.zero_add] at same
    exact List.cons.inj (inj (i :: q) (j :: r) p p' (at?_of_kid hk hq) (at?_of_kid hl hr) same)
  | .text content anchor, place, inj => List.nodup_nil
  | .comment content, place, inj => List.nodup_nil
  | .placeholder index, place, inj => List.nodup_nil

theorem nodup_attachedOf (parent : NodeId) : ∀ (kids : List Plan) (index : Nat)
    {place : List Nat → NodeId},
    (∀ (i j : Nat) (k l : Plan) q r p p', kids[i]? = some k → kids[j]? = some l → k.at? q = some p →
      l.at? r = some p' → place ((index + i) :: q) = place ((index + j) :: r) → i = j ∧ q = r) →
    ((entriesOf parent place index kids).filterMap Mutation.attached?).Nodup
  | [], index, place, inj => List.nodup_nil
  | kid :: rest, index, place, inj => by
    have shift (i : Nat) : index + 1 + i = index + (i + 1) := by omega
    rw [entriesOf, List.filterMap_append, List.filterMap_cons]
    have later : ((entriesOf parent place (index + 1) rest).filterMap Mutation.attached?).Nodup :=
      nodup_attachedOf parent rest (index + 1) fun i j k l q r p p' hk hl hq hr same => by
        rw [shift, shift] at same
        obtain ⟨same, rest⟩ := inj (i + 1) (j + 1) k l q r p p' hk hl hq hr same
        exact ⟨Nat.succ.inj same, rest⟩
    have first : ((kid.entries fun q => place (index :: q)).filterMap Mutation.attached?).Nodup :=
      nodup_attached fun q r p p' hq hr same => (inj 0 0 kid kid q r p p' rfl rfl hq hr same).2
    -- Positions under a later child, or of the child itself, are none of those below it.
    have fresh {x : NodeId} (mem : x ∈ (entriesOf parent place (index + 1) rest).filterMap
        Mutation.attached?) {q : List Nat} {p : Plan} (at' : kid.at? q = some p) :
        x ≠ place (index :: q) := by
      rintro rfl
      obtain ⟨j, k, r, p', found, at'', same⟩ := mem_attachedOf mem
      rw [shift] at same
      cases (inj 0 (j + 1) kid k q r p p' rfl found at' at'' same).1
    refine List.nodup_append'.mpr ⟨first, List.nodup_cons.mpr ⟨fun mem => ?_, later⟩, ?_⟩
    · exact fresh mem (at?_nil kid) rfl
    · intro x mem mem'
      obtain ⟨i, q, p, at', rfl⟩ := mem_attached mem
      rcases List.mem_cons.mp mem' with same | mem'
      · cases (inj 0 0 kid kid (i :: q) [] p kid rfl rfl at' (at?_nil kid) same).2
      · exact fresh mem' at' rfl

end

theorem mem_treesOf {kids : List Plan} {place : List Nat → NodeId} {index : Nat} {tree : NodeTree}
    (mem : tree ∈ treesOf place index kids) :
    ∃ (j : Nat) (k : Plan), kids[j]? = some k ∧ tree = k.tree fun q => place ((index + j) :: q) := by
  induction kids generalizing index with
  | nil => cases mem
  | cons kid rest ih =>
    rw [treesOf] at mem
    rcases List.mem_cons.mp mem with rfl | mem
    · exact ⟨0, kid, rfl, rfl⟩
    · obtain ⟨j, k, found, same⟩ := ih mem
      refine ⟨j + 1, k, found, ?_⟩
      rw [same, Nat.add_right_comm]
      rfl

/-- A child in the tree of a plan is the tree of a part of the plan. -/
theorem tree_of_has {whole kid : NodeTree} {parent : NodeId} (has : whole.Has parent kid) :
    ∀ {plan : Plan} {place : List Nat → NodeId}, whole = plan.tree place →
      ∃ q p, plan.at? q = some p ∧ kid = p.tree fun r => place (q ++ r) := by
  have kids {plan : Plan} {place : List Nat → NodeId} {id : NodeId} {children : List NodeTree}
      (same : NodeTree.own id children = plan.tree place) {top : NodeTree} (mem : top ∈ children) :
      ∃ (j : Nat) (k : Plan), plan.kids[j]? = some k ∧ top = k.tree fun q => place (j :: q) := by
    cases plan with
    | element tag attributes handlers kids anchor =>
      rw [tree] at same
      cases same
      obtain ⟨j, k, found, rfl⟩ := mem_treesOf mem
      exact ⟨j, k, found, by rw [Nat.zero_add]⟩
    | placeholder index => cases same
    | _ => cases same; cases mem
  induction has with
  | here mem =>
    intro plan place same
    obtain ⟨j, k, found, rfl⟩ := kids same mem
    exact ⟨[j], k, at?_of_kid found (at?_nil k), rfl⟩
  | deeper mem _ ih =>
    intro plan place same
    obtain ⟨j, k, found, rfl⟩ := kids same mem
    obtain ⟨q, p, at', rfl⟩ := ih rfl
    exact ⟨j :: q, p, at?_of_kid found at', rfl⟩

/-- Building a plan attaches every node once, and after all those below it. What follows attaches
other nodes. -/
theorem orders_entries {plan : Plan} {place place' : List Nat → NodeId}
    (agree : Agree place place' plan)
    (inj : ∀ q r p p', plan.at? q = some p → plan.at? r = some p' → place q = place r → q = r)
    {log : List Mutation} (others : ∀ q p top, plan.at? q = some p → p.hole? = none →
      Mutation.appendChild top (place q) ∉ log) :
    (plan.tree place').Orders (plan.entries place ++ log) := by
  intro parent id children has
  obtain ⟨before, after, split, below⟩ := attaches_entries agree has
  refine ⟨before, after ++ log, by simp [split], fun top mem => ?_, below⟩
  rw [← List.append_assoc] at mem
  rcases List.mem_append.mp mem with mem | mem
  · -- Its own entry would be a second one.
    have twice := nodup_attached inj
    rw [split, List.filterMap_append, List.filterMap_cons] at twice
    have listed : id ∈ (before ++ after).filterMap Mutation.attached? :=
      List.mem_filterMap.mpr ⟨_, mem, rfl⟩
    rw [List.filterMap_append] at listed
    exact (List.nodup_cons.mp (List.perm_middle.nodup_iff.mp twice)).1 listed
  · obtain ⟨q, p, found, same⟩ := tree_of_has has rfl
    have solid : p.hole? = none := by
      cases p <;> first | rfl | cases same
    have node := congrArg NodeTree.node same
    rw [node_tree, List.append_nil] at node
    have here : id = place q := node.trans (agree q p found solid)
    exact others q p top found solid (here ▸ mem)

end Plan
end LiveTemplate
