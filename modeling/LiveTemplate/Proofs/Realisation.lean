import LiveTemplate.Proofs.Assembly
import LiveTemplate.Proofs.Confinement
import LiveTemplate.Proofs.Sites
import LiveTemplate.Proofs.Static
import LiveTemplate.Proofs.Tables

/-!
# LiveTemplate.Proofs.Realisation

What a new instance looks like before any value is written to it: the tree of its markup, with what
is mounted at the extension points.

  * `Node.Bears`               a node is what its markup says
  * `Document.Realises`        a tree of nodes is what its markup says
  * `Template.create_realises` creating an instance leads to such a tree
-/

namespace LiveTemplate

namespace Markup

def attributes : Markup → List (String × String)
  | .element _ attributes _ => attributes
  | _ => []

/-- Whether an extension takes the node over. -/
def isTaken (registry : Registry) : Markup → Bool
  | .element tag attributes _ => isExtension registry tag attributes
  | _ => false

/-- What a node holds before values are written to it. -/
def bareContent : Markup → Content
  | .comment content => .comment content
  | .text content => .text (if hasSpan content then "" else content)
  | .element tag attributes _ => .element tag (collapsed (attributes.filter isFixed)) []

end Markup

/-- The function that the scope has for the handler that an attribute names. -/
def Scope.Offers (scope : Scope) (attr : String × String) (slot : String × Function) : Prop :=
  attributeSort attr.1 = .event slot.1 ∧
    ∃ call, parseHandler slot.1 attr.2 = .ok call ∧ scope.read call.handler = .function slot.2

/-- The node is what its markup says. There is one handler for each event attribute. -/
structure Node.Bears (scope : Scope) (m : Markup) (children : List NodeId) (node : Node) :
    Prop where
  content : node.content = m.bareContent
  children : node.children = children
  handlers : ∃ slots,
    List.Forall₂ scope.Offers (m.attributes.filter isEventAttribute) slots ∧
      (slots.map Prod.fst).Nodup ∧
      ∀ event f, node.handlers.lookup event = some f ↔ (event, f) ∈ slots
  data : node.handlerData = []

/-- The tree of nodes is what its markup says, without the blank texts. Where an extension takes an
element over, the node of what was mounted for it stands. -/
inductive Document.Realises (registry : Registry) (scope : Scope)
    (mounts : List (Extension × Mount)) (doc : Document) : Markup → NodeTree → Prop
  | own {m : Markup} {id : NodeId} {node : Node} {trees : List NodeTree}
      (left : m.isTaken registry = false) (found : doc.get? id = some node)
      (bears : node.Bears scope m (trees.map NodeTree.node))
      (inner : List.Forall₂ (Realises registry scope mounts doc)
        (m.children.filter (!·.isBlank)) trees) :
      Realises registry scope mounts doc m (.own id trees)
  | mounted {m : Markup} {e : Extension} {mount : Mount} (taken : m.isTaken registry = true)
      (stands : (e, mount) ∈ mounts) (serves : m.Serves registry e.name e.subtree) :
      Realises registry scope mounts doc m (.mounted mount.node)

/-! ## Handlers -/

variable {scope : Scope} {registry : Registry}

/-- When every event is wired once, each attribute has the function of the handler that it names. -/
theorem Plan.Wired.offers {plan : Plan} {handlers : Table Function}
    (wired : plan.Wired scope handlers) (distinct : (plan.wirings.map Wiring.event).Nodup)
    {w : Wiring} (mem : w ∈ plan.wirings) :
    ∃ f, handlers.lookup w.event = some f ∧ scope.read w.handler = .function f := by
  obtain ⟨f, held⟩ := wired.all w mem
  obtain ⟨w', mem', same, read⟩ := wired.only w.event f held
  rw [List.inj_on_of_nodup_map distinct mem' mem same] at read
  exact ⟨f, held, read⟩

theorem offers_of_wires {handlers : Table Function} {attrs : List (String × String)}
    {wirings : List Wiring} (wires : List.Forall₂ Wires attrs wirings)
    (offers : ∀ w ∈ wirings, ∃ f, handlers.lookup w.event = some f ∧
      scope.read w.handler = .function f) :
    ∃ slots, List.Forall₂ scope.Offers attrs slots ∧
      slots.map Prod.fst = wirings.map Wiring.event ∧
      ∀ slot ∈ slots, handlers.lookup slot.1 = some slot.2 := by
  induction wires with
  | nil => exact ⟨[], .nil, rfl, fun _ mem => (List.not_mem_nil mem).elim⟩
  | @cons attr w attrs wirings first _ ih =>
    obtain ⟨slots, offered, events, held⟩ := ih fun w mem => offers w (List.mem_cons_of_mem _ mem)
    obtain ⟨f, here, read⟩ := offers w List.mem_cons_self
    obtain ⟨sort, call, parsed, named⟩ := first
    refine ⟨(w.event, f) :: slots, .cons ⟨sort, call, parsed, named ▸ read⟩ offered, ?_, ?_⟩
    · rw [List.map_cons, List.map_cons, events]
    · exact fun slot mem => (List.mem_cons.mp mem).elim (fun same => same ▸ here) (held slot)

/-- A node that was made by a plan is what the markup of the plan says. -/
theorem Plan.Made.bears {plan : Plan} {children : List NodeId} {node : Node} {m : Markup}
    (made : plan.Made scope children node) (mirrors : m.Mirrors registry plan)
    (solid : plan.hole? = none) (distinct : (plan.wirings.map Wiring.event).Nodup) :
    node.Bears scope m children := by
  have wires : List.Forall₂ Wires (m.attributes.filter isEventAttribute) plan.wirings := by
    cases mirrors with
    | element left wired below slot => exact wired
    | extension => cases solid
    | _ => exact .nil
  obtain ⟨slots, offered, events, held⟩ :=
    offers_of_wires wires fun _ mem => made.wired.offers distinct mem
  refine ⟨made.content.trans ?_, made.children, ⟨slots, offered, events ▸ distinct, ?_⟩, made.data⟩
  · cases mirrors with
    | comment content => rfl
    | fixedText fixed => rw [Markup.bareContent, fixed]; rfl
    | boundText bound slot => rw [Markup.bareContent, bound]; rfl
    | extension => cases solid
    | element left wired below slot => exact Markup.content_element _ _ _ _ slot
  · refine fun event f => ⟨fun found => ?_, fun mem => held _ mem⟩
    obtain ⟨w, mem, same, _⟩ := made.wired.only event f found
    have listed : event ∈ slots.map Prod.fst := by
      rw [events, ← same]
      exact List.mem_map_of_mem mem
    obtain ⟨⟨_, f'⟩, slot, rfl⟩ := List.mem_map.mp listed
    obtain rfl := Option.some.inj ((held _ slot).symm.trans found)
    exact slot

/-! ## The tree -/

namespace Plan

mutual

/-- What is mounted stands in the order of the extension points. -/
theorem mounts_tree : ∀ (plan : Plan) (place : List Nat → NodeId),
    (plan.tree place).mounts = plan.holes.reverse.map fun m => place m.2
  | .element _ _ _ kids _, place => by
    rw [tree, NodeTree.mounts, holes, collect]
    exact mounts_treesOf kids 0 place place fun k q => by rw [Nat.zero_add]
  | .text _ _, _ | .comment _, _ | .placeholder _, _ => rfl

theorem mounts_treesOf : ∀ (kids : List Plan) (index : Nat) (place place' : List Nat → NodeId),
    (∀ k q, place' ((index + k) :: q) = place (k :: q)) →
      NodeTree.mountsOf (treesOf place' index kids) =
        (collectKids hole? kids).reverse.map fun m => place m.2
  | [], _, _, _, _ => rfl
  | kid :: rest, index, place, place', same => by
    have first : (fun q => place' (index :: q)) = fun q => place (0 :: q) := funext (same 0)
    have others := mounts_treesOf rest (index + 1) (fun q => place (bump q)) place' fun k q => by
      rw [Nat.add_right_comm]
      exact same (k + 1) q
    rw [treesOf, NodeTree.mountsOf, first, mounts_tree kid, others, collectKids, holes]
    simp [List.map_reverse, Function.comp_def]

end

theorem nodes_treesOf (place : List Nat → NodeId) (kids : List Plan) (index : Nat) :
    (treesOf place index kids).map NodeTree.node =
      (List.range kids.length).map fun i => place [index + i] := by
  induction kids generalizing index with
  | nil => rfl
  | cons kid rest ih =>
    rw [treesOf, List.map_cons, node_tree, ih, List.length_cons, List.range_succ_eq_map,
      List.map_cons, List.map_map]
    simp [Function.comp_def, Nat.add_assoc, Nat.add_comm 1]

/-- The nodes of a plan stand in a document, and at its extension points what was mounted. -/
structure Settled (scope : Scope) (ms : List Mount) (doc : Document) (plan : Plan)
    (place : List Nat → NodeId) : Prop where
  node : ∀ q p, plan.at? q = some p → p.hole? = none →
    ∃ node, doc.get? (place q) = some node ∧ p.Made scope (p.kidPlaces place q) node
  mount : ∀ q index, plan.at? q = some (.placeholder index) →
    ∃ m, ms[index]? = some m ∧ m.node = place q

end Plan

namespace Document

open Plan

variable {extensions : List Extension} {ms : List Mount} {doc : Document} {whole : Plan}
  {place : List Nat → NodeId}

/-- A node of the plan's own, when its children are there. -/
theorem realises_own (settled : whole.Settled scope ms doc place) (distinct : whole.Distinct)
    {m : Markup} {plan : Plan} {q : List Nat} {trees : List NodeTree}
    (mirrors : m.Mirrors registry plan) (found : whole.at? q = some plan)
    (solid : plan.hole? = none) (left : m.isTaken registry = false)
    (nodes : trees.map NodeTree.node = plan.kidPlaces place q)
    (inner : List.Forall₂ (doc.Realises registry scope (extensions.zip ms))
      (m.children.filter (!·.isBlank)) trees) :
    doc.Realises registry scope (extensions.zip ms) m (.own (place q) trees) := by
  obtain ⟨node, live, made⟩ := settled.node q plan found solid
  rw [← nodes] at made
  exact .own left live (made.bears mirrors solid (distinct q plan found)) inner

mutual

/-- What stands at the position of a part of a plan is what the markup of the part says. -/
theorem realises_of_settled (settled : whole.Settled scope ms doc place)
    (distinct : whole.Distinct) : ∀ (m : Markup) {plan : Plan} {q : List Nat},
    m.Mirrors registry plan → m.Assigns registry extensions plan → whole.at? q = some plan →
      doc.Realises registry scope (extensions.zip ms) m (plan.tree fun r => place (q ++ r))
  | .comment content, plan, q, mirrors, _, found => by
    cases mirrors
    rw [tree, List.append_nil]
    exact realises_own settled distinct (.comment content) found rfl rfl rfl .nil
  | .text content, plan, q, mirrors, _, found => by
    have solid : plan.hole? = none := by cases mirrors <;> rfl
    have leaf : plan.tree (fun r => place (q ++ r)) = .own (place q) [] := by
      cases mirrors <;> rw [tree, List.append_nil]
    have bare : plan.kids = [] := by cases mirrors <;> rfl
    rw [leaf]
    exact realises_own settled distinct mirrors found solid rfl (by rw [kidPlaces, bare]; rfl) .nil
  | .element tag attrs children, plan, q, mirrors, assigns, found => by
    cases mirrors with
    | extension taken index =>
      -- The extension and the mount of the same number go together.
      cases assigns with
      | @extension _ _ e here serves =>
      obtain ⟨m, mounted, same⟩ := settled.mount q index found
      rw [tree, List.append_nil, ← same]
      refine .mounted taken (List.mem_of_getElem? (i := index) ?_) serves
      rw [List.getElem?_zip_eq_some]
      exact ⟨here, mounted⟩
    | @element _ _ _ handlers plans left wired below slot =>
      cases assigns with
      | element inner =>
      rw [tree, List.append_nil]
      refine realises_own settled distinct (.element left wired below slot) found rfl left ?_ ?_
      · rw [nodes_treesOf, kidPlaces]
        simp [Plan.kids]
      · refine realisesAll_of_settled settled distinct children below inner fun i p here => ?_
        rw [Nat.zero_add, Plan.at?_snoc found]
        exact here

theorem realisesAll_of_settled (settled : whole.Settled scope ms doc place)
    (distinct : whole.Distinct) : ∀ (kids : List Markup) {plans : List Plan} {q : List Nat}
    {n : Nat}, List.Forall₂ (Markup.Mirrors registry) (kids.filter (!·.isBlank)) plans →
      List.Forall₂ (Markup.Assigns registry extensions) (kids.filter (!·.isBlank)) plans →
      (∀ i p, plans[i]? = some p → whole.at? (q ++ [n + i]) = some p) →
      List.Forall₂ (doc.Realises registry scope (extensions.zip ms)) (kids.filter (!·.isBlank))
        (treesOf (fun r => place (q ++ r)) n plans)
  | [], plans, q, n, mirrors, _, _ => by
    cases mirrors
    exact .nil
  | kid :: rest, plans, q, n, mirrors, assigns, found => by
    rw [List.filter_cons] at mirrors assigns ⊢
    split at mirrors
    · case isTrue solid =>
      rw [if_pos solid] at assigns ⊢
      cases mirrors with
      | @cons _ plan _ plans first others =>
      cases assigns with
      | cons first' others' =>
      have here := realises_of_settled settled distinct kid first first' (found 0 plan rfl)
      simp only [List.append_assoc, List.singleton_append] at here
      refine .cons here (realisesAll_of_settled settled distinct rest others others' ?_)
      intro i p there
      rw [Nat.add_right_comm]
      exact found (i + 1) p there
    · case isFalse blank =>
      rw [if_neg blank] at assigns ⊢
      exact realisesAll_of_settled settled distinct rest mirrors assigns found

end

end Document

/-! ## Creating -/

variable {κ : Type} {host : Host κ} {s s' : Stage κ}

/-- Every mount is that of its extension point. -/
theorem Extension.createAll_creates {placeholders : List (Nat × NodeId)} :
    ∀ {extensions : List Extension} {index : Nat} {s s' : Stage κ} {ms : List Mount},
      createAll host scope placeholders index extensions s = .ok ms s' →
        List.Forall₂ (fun e m => ∃ s₁ s₂, e.subtree.create host scope s₁ = .ok m s₂) extensions ms
  | [], _, _, _, _, run => by
    rw [createAll] at run
    cases run
    exact .nil
  | ⟨path, name, subtree⟩ :: rest, index, s, s', ms, run => by
    rw [createAll_cons] at run
    obtain ⟨m, s₁, made, run⟩ := ok_of_bind run
    obtain ⟨_, s₂, _, run⟩ := ok_of_bind run
    obtain ⟨more, s₃, others, run⟩ := ok_of_bind run
    cases run
    exact .cons ⟨s, s₁, made⟩ (createAll_creates others)

namespace Template

variable {t : Template} {doc doc' : Document} {site : Site} {place : List Nat → NodeId}
  {f : NodeId → NodeId} {strict : Prop}

theorem Raised.agree (raised : t.Raised scope doc site place)
    (fixed : ∀ x, x ∉ t.holePlaces place → f x = x) : t.plan.Agree place (f ∘ place) :=
  fun q p found solid => fixed (place q) (raised.not_hole ⟨q, p, found, solid, rfl⟩)

/-- Mounting in the place of the extension points leaves the other nodes as they were built. -/
theorem Raised.settled {terms : Terms} (tidy : t.Tidy terms.builtin)
    (raised : t.Raised scope doc site place) {ms : List Mount}
    (moves : site.document.Moves strict (fun x => x ∈ t.holePlaces place) (t.holePlaces place) f
      doc')
    (nodes : ms.map Mount.node = (t.holePlaces place).map f)
    (content : ∀ x ∈ t.ground place, doc'.content? x = site.document.content? x) :
    t.plan.Settled scope ms doc' (f ∘ place) := by
  refine ⟨fun q p found solid => ?_, fun q index found => ?_⟩
  · have ground : place q ∈ t.ground place := ⟨q, p, found, solid, rfl⟩
    obtain ⟨node, live, made⟩ := raised.laid.node q p found
    obtain ⟨node', live', _, follows⟩ := moves.keeps.nodes _ node (raised.not_hole ground) live
    have kept := content _ ground
    rw [Document.content?, Document.content?, live, live'] at kept
    refine ⟨node', (congrArg doc'.get? (raised.agree moves.fixed q p found solid)).trans live',
      (Option.some.inj kept).trans made.content, ?_, ?_, follows.data.trans made.data⟩
    · rw [follows.children, made.children, Plan.kidPlaces, List.map_map]
      rfl
    · rw [follows.handlers]
      exact made.wired
  · have filled := (tidy.filled place).comp f index q (Plan.mem_holes.mpr found)
    rw [← nodes, List.getElem?_map] at filled
    exact Option.map_eq_some_iff.mp filled

variable {registry : Registry} {m : Markup} {id next : TemplateId} {root : NodeId}
  {children : List Mount}

/-- A new instance is the tree of its markup. Its nodes are what the markup says, as no value has
been written to them, and at the extension points stands what was made for them, in their order. In
the journal a node is attached after all those below it. What is mounted has its first update by
then, so its directives must not write to other nodes. -/
theorem create_realises (confined : host.Confined)
    (structural : ∀ name t, registry.directive? name = some (.structural (.template t)) →
      t.Compiled (fun _ _ => True) fun _ => True)
    (components : ∀ tag t, registry.component? tag = some t →
      t.Compiled (fun _ _ => True) fun _ => True)
    (element : m.tag?.isSome = true) (run : compile registry id m = .ok (t, next))
    (sound : s.document.Sound) (created : t.create host scope s = .ok (root, children) s') :
    ∃ tree log, tree.node = root ∧
      s'.document.Realises registry scope (t.extensions.zip children) m tree ∧
      tree.mounts = children.map Mount.node ∧
      List.Forall₂ (fun e mount => ∃ s₁ s₂, e.subtree.create host scope s₁ = .ok mount s₂)
        t.extensions children ∧
      s.document.Logged log s'.document ∧ tree.Orders log := by
  have proper : registry.Proper False (Fine False False) :=
    ⟨False.elim, fun name t found => (structural name t found).each False.elim fun _ _ => False.elim,
      fun tag t found => (components tag t found).each False.elim fun _ _ => False.elim⟩
  obtain ⟨mirrors, assigns, distinct⟩ := compile_sites proper element run
  obtain ⟨fine, inner⟩ := each_iff.mp (compile_fine proper False.elim run).1
  have tidy : t.Tidy Terms.least.builtin := fine.tidy
  have below := inner.mono fun _ fine => fine.tidy
  have creates : Extension.CreatesAll .least host (fun _ _ => True) scope t.extensions :=
    (Extension.promises confined.tame.behaves below).1
  unfold create at created
  obtain ⟨⟨_, site⟩, s₁, built, created⟩ := ok_of_bind created
  obtain ⟨⟨place, rfl, raised, logged⟩, rfl⟩ :=
    (Construction.onStage_ends (buildPlan_enters scope t sound)).ok built
  obtain ⟨_, s₂, mounted, created⟩ := ok_of_bind created
  cases created
  have look (i : Nat) (h : NodeId) (found : (t.holePlaces place)[i]? = some h) :
      site.placeholders.lookup (0 + i) = some h := by
    rw [Nat.zero_add]
    exact raised.lookup tidy found
  obtain ⟨rest, f, all⟩ := (creates site.placeholders 0 (t.holePlaces place) _ (fun _ => False)
    raised.keeps.sound False.elim (raised.vacant tidy) (length_holePlaces tidy place) look).ok mounted
  -- What is mounted does nothing to the nodes of the plan.
  have guards : site.document.Guards (t.ground place) := by
    refine ⟨raised.keeps.sound, ?_⟩
    rintro _ ⟨q, p, found, _, rfl⟩
    exact raised.laid.live found
  have bypasses := Extension.createAll_bypasses confined below guards (raised.vacant tidy)
    (length_holePlaces tidy place) look (fun h hole ground => raised.not_hole ground hole) mounted
  obtain ⟨log, logs⟩ := bypasses.logs
  have settled := raised.settled tidy all.moves all.nodes bypasses.content
  have agree := raised.agree all.moves.fixed
  have realises := Document.realises_of_settled settled distinct m mirrors assigns
    (Plan.at?_nil t.plan)
  simp only [List.nil_append] at realises
  refine ⟨t.plan.tree (f ∘ place), t.plan.entries place ++ log, ?_, realises, ?_,
    Extension.createAll_creates mounted, logged.trans logs.journal, ?_⟩
  · rw [Plan.node_tree]
    exact agree [] _ (Plan.at?_nil _) tidy.solid
  · rw [Plan.mounts_tree, all.nodes, holePlaces, List.map_map]
    rfl
  · refine Plan.orders_entries agree raised.laid.inj fun q p top found solid mem => ?_
    exact logs.names _ mem (place q) (by simp [Mutation.nodes]) ⟨q, p, found, solid, rfl⟩

end Template

namespace Sample

theorem painter_confined : painter.Confined where
  quiet := painter_tame.quiet
  writes := fun _ id v _ => by
    refine ⟨[.setAttribute id "paint" v.text], fun o mem => ?_, rfl⟩
    rw [List.mem_singleton.mp mem]
    rfl

/-- An attribute that is written twice, one that is bound, a handler, a blank text, a comment, a
bound text and a component on a condition. -/
def card : Markup :=
  .element "p" [("class", "a"), ("onclick", "${f(c)}"), ("title", "${t}"), ("class", "b")]
    [.text " ", .comment "note", .text "${t}", .element "x-star" [("v-if", "shown")] []]

def buildsCard : Bool :=
  match Template.compile paintRegistry 1 card with
  | .error _ => false
  | .ok (t, _) =>
    match t.create painter (Sample.scope "a" "x" true) ⟨.new true, 0, ()⟩ with
    | .error _ _ => false
    | .ok (_, children) _ => children.length = 1

end Sample

theorem Template.create_realises_card : ∃ t next root mount s tree log,
    Template.compile Sample.paintRegistry 1 Sample.card = .ok (t, next) ∧
      t.create Sample.painter (Sample.scope "a" "x" true) ⟨.new true, 0, ()⟩ =
        .ok (root, [mount]) s ∧
      tree.node = root ∧
      s.document.Realises Sample.paintRegistry (Sample.scope "a" "x" true)
        (t.extensions.zip [mount]) Sample.card tree ∧
      tree.mounts = [mount.node] ∧ (Document.new true).Logged log s.document ∧
      tree.Orders log := by
  have told : Sample.buildsCard = true := by decide +kernel
  unfold Sample.buildsCard at told
  split at told
  · cases told
  case h_2 t next compiled =>
  split at told
  · cases told
  case h_2 root children s created =>
  obtain ⟨mount, rfl⟩ := List.length_eq_one_iff.mp (of_decide_eq_true told)
  have registered := Sample.paintRegistry_compiled
  obtain ⟨tree, log, top, realises, mounts, _, logged, orders⟩ :=
    Template.create_realises Sample.painter_confined
      (fun name t found => (registered.structural name t found).mono fun _ _ => trivial)
      (fun tag t found => (registered.components tag t found).mono fun _ _ => trivial) rfl compiled
      (Document.sound_new true) created
  exact ⟨t, next, root, mount, s, tree, log, compiled, created, top, realises, mounts, logged,
    orders⟩

end LiveTemplate
