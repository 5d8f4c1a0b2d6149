import LiveTemplate.Proofs.Rebuilding
import LiveTemplate.Proofs.Spelling

/-!
# LiveTemplate.Proofs.Static

Templates in which nothing follows the scope. What an instance of one is written as is read back as
the tree that the template was compiled from, up to blank texts, texts side by side and repeated
attributes.

  * `Markup.normalized`              the tree that is read back
  * `Markup.written_merged`          joining texts changes nothing in what is written
  * `Analysis.node_fixed`            what compiling makes of such a tree
  * `Template.createInstance_shows`  its instances
  * `Template.markup_reads_back`     the main result
-/

namespace LiveTemplate
namespace Markup

/-! ## Normal forms -/

/-- Each name once, at its first place and with its last value. -/
def collapsed (attributes : List (String × String)) : List (String × String) :=
  (attributes.map Prod.fst).eraseDups.map fun name =>
    (name, (attributes.reverse.lookup name).getD "")

mutual

/-- The tree without blank texts and with each attribute once. -/
def pruned : Markup → Markup
  | .element tag attributes kids => .element tag (collapsed attributes) (prunedAll kids)
  | m => m

def prunedAll : List Markup → List Markup
  | [] => []
  | kid :: rest => if kid.isBlank then prunedAll rest else kid.pruned :: prunedAll rest

end

/-- Texts side by side become one. -/
def joined : List Markup → List Markup
  | [] => []
  | .text content :: rest =>
    match joined rest with
    | .text more :: others => .text (content ++ more) :: others
    | others => .text content :: others
  | m :: rest => m :: joined rest

mutual

/-- The tree with the texts joined that stand side by side. -/
def merged : Markup → Markup
  | .element tag attributes kids => .element tag attributes (joined (mergedAll kids))
  | m => m

def mergedAll : List Markup → List Markup
  | [] => []
  | kid :: rest => kid.merged :: mergedAll rest

end

/-- Without blank texts, without texts side by side, and without repeated attributes. -/
def normalized (m : Markup) : Markup := m.pruned.merged

theorem prunedAll_eq (kids : List Markup) :
    prunedAll kids = (kids.filter (!·.isBlank)).map pruned := by
  induction kids with
  | nil => rfl
  | cons kid rest ih =>
    rw [prunedAll, List.filter_cons]
    cases blank : kid.isBlank <;> simp [ih]

theorem mergedAll_eq (kids : List Markup) : mergedAll kids = kids.map merged := by
  induction kids with
  | nil => rfl
  | cons kid rest ih => rw [mergedAll, ih, List.map_cons]

/-! ## Attributes -/

theorem eraseDups_concat (names : List String) (name : String) :
    (names ++ [name]).eraseDups =
      if name ∈ names then names.eraseDups else names.eraseDups ++ [name] := by
  rw [List.eraseDups_append]
  split
  case isTrue mem => simp [List.removeAll, mem]
  case isFalse out => simp [List.removeAll, out, List.eraseDups_cons]

theorem nodup_eraseDups (names : List String) : names.eraseDups.Nodup := by
  induction names using List.reverseRecOn with
  | nil => exact List.nodup_nil
  | append_singleton names name ih =>
    rw [eraseDups_concat]
    split
    case isTrue => exact ih
    case isFalse out =>
      refine List.nodup_append.mpr ⟨ih, List.nodup_singleton name, fun a mem b only => ?_⟩
      rw [List.mem_singleton.mp only]
      rintro rfl
      exact out (List.mem_eraseDups.mp mem)

/-- Setting an entry of a table whose names are distinct. -/
theorem setEntry_map {names : List String} (nodup : names.Nodup) (value : String → String)
    (name v : String) :
    Document.setEntry name v (names.map fun n => (n, value n)) =
      (if name ∈ names then names else names ++ [name]).map fun n =>
        (n, if n = name then v else value n) := by
  induction names with
  | nil => simp [Document.setEntry]
  | cons n names ih =>
    obtain ⟨fresh, nodup⟩ := List.nodup_cons.mp nodup
    rw [List.map_cons, Document.setEntry]
    by_cases same : n = name
    · subst same
      have others : names.map (fun m => (m, if m = n then v else value m)) =
          names.map fun m => (m, value m) := by
        refine List.map_congr_left fun m mem => ?_
        have differ : m ≠ n := fun same => fresh (same ▸ mem)
        rw [if_neg differ]
      simp [others]
    · have other : name ≠ n := fun h => same h.symm
      rw [if_neg same, ih nodup]
      by_cases mem : name ∈ names
      · simp [mem, same]
      · simp [mem, same, other]

/-- Setting the attributes one after the other leaves each once. -/
theorem foldl_setEntry (attributes : List (String × String)) :
    attributes.foldl (fun entries entry => Document.setEntry entry.1 entry.2 entries) [] =
      collapsed attributes := by
  induction attributes using List.reverseRecOn with
  | nil => rfl
  | append_singleton attributes entry ih =>
    obtain ⟨name, v⟩ := entry
    rw [List.foldl_concat, ih, collapsed, setEntry_map (nodup_eraseDups _), collapsed,
      List.map_append, List.map_singleton, eraseDups_concat, List.reverse_append,
      List.reverse_singleton, List.singleton_append]
    simp only [List.mem_eraseDups]
    refine List.map_congr_left fun n _ => ?_
    rw [List.lookup_cons]
    by_cases same : n = name
    · simp [same]
    · rw [beq_false_of_ne same, if_neg same]

theorem names_collapsed {attributes : List (String × String)} {entry : String × String}
    (mem : entry ∈ collapsed attributes) : ∃ held ∈ attributes, held.1 = entry.1 := by
  obtain ⟨name, listed, rfl⟩ := List.mem_map.mp mem
  exact List.mem_map.mp (List.mem_eraseDups.mp listed)

/-! ## Texts side by side -/

theorem joined_cons {m : Markup} (other : m.isText = false) (ms : List Markup) :
    joined (m :: ms) = m :: joined ms := by
  cases m with
  | text content => cases other
  | element tag attributes kids => exact joined.eq_3 _ _ nofun
  | comment content => exact joined.eq_3 _ _ nofun

theorem joined_eq_nil {ms : List Markup} : joined ms = [] ↔ ms = [] := by
  cases ms with
  | nil => simp [joined]
  | cons m ms =>
    cases m with
    | text content =>
      simp only [joined, reduceCtorEq, iff_false]
      split <;> exact List.cons_ne_nil _ _
    | element tag attributes kids => simp [joined]
    | comment content => simp [joined]

theorem escapeWith_append (escape : Char → String) (s t : String) :
    Document.escapeWith escape (s ++ t) =
      Document.escapeWith escape s ++ Document.escapeWith escape t := by
  apply String.toList_injective
  simp only [toList_escapeWith, String.toList_append, List.flatMap_append]

theorem writtenAll_joined (ms : List Markup) : writtenAll (joined ms) = writtenAll ms := by
  induction ms with
  | nil => rfl
  | cons m ms ih =>
    cases m with
    | text content =>
      rw [joined, writtenAll, ← ih]
      split
      case h_1 more others same =>
        rw [same, writtenAll, writtenAll, written, written, written, escapeWith_append,
          String.append_assoc]
      case h_2 => rw [writtenAll]
    | element tag attributes kids => rw [joined_cons rfl, writtenAll, writtenAll, ih]
    | comment content => rw [joined_cons rfl, writtenAll, writtenAll, ih]

mutual

/-- Joining texts changes nothing in what is written. -/
theorem written_merged : ∀ m : Markup, m.merged.written = m.written
  | .element tag attributes kids => by
    have empty : (joined (mergedAll kids)).isEmpty = kids.isEmpty := by
      rw [Bool.eq_iff_iff, List.isEmpty_iff, List.isEmpty_iff, joined_eq_nil, mergedAll_eq,
        List.map_eq_nil_iff]
    rw [merged, written, written, writtenAll_joined, writtenAll_merged kids, empty]
  | .text _ => rfl
  | .comment _ => rfl

theorem writtenAll_merged : ∀ ms : List Markup, writtenAll (mergedAll ms) = writtenAll ms
  | [] => rfl
  | m :: ms => by rw [mergedAll, writtenAll, writtenAll, written_merged m, writtenAll_merged ms]

end

/-! ## Reading normal forms -/

/-- Void elements are spelled in lower case. -/
def Cased : Markup → Prop
  | .element tag _ _ => tag.toLower ∈ voidTags → tag = tag.toLower
  | _ => True

/-- The spans that a text opens are closed in it. -/
def Closed : Markup → Prop
  | .text content => ∃ split, splitSpans content.toList = .ok split
  | _ => True

/-- No texts side by side. -/
def Apart (m : Markup) : Prop :=
  m.children.IsChain fun a b => ¬(a.isText = true ∧ b.isText = true)

/-- A node that is written as it was spelled, and is no empty text. -/
def Legible : Markup → Prop
  | .element tag attributes kids => IsWord isTagChar tag ∧
      (∀ entry ∈ attributes, IsWord isNameChar entry.1) ∧
      (tag.toLower ∈ voidTags → tag = tag.toLower ∧ kids = [])
  | .text content => content ≠ ""
  | .comment content => ¬"-->".toList <:+: content.toList

theorem throughout_text {P : Markup → Prop} {content : String} :
    Throughout P (.text content) ↔ P (.text content) := by
  constructor
  · rintro ⟨here, _⟩
    exact here
  · exact fun here => .intro here fun _ mem => (List.not_mem_nil mem).elim

theorem readable_of_throughout {m : Markup} (legible : m.Throughout Legible)
    (closed : m.Throughout Closed) (apart : m.Throughout Apart) : m.Readable := by
  induction legible with
  | @intro m here _ ih =>
    obtain ⟨closedHere, closed⟩ := closed
    obtain ⟨apartHere, apart⟩ := apart
    cases m with
    | element tag attributes kids =>
      obtain ⟨word, names, void⟩ := here
      exact .element word names void apartHere fun kid mem =>
        ih kid mem (closed kid mem) (apart kid mem)
    | text content => exact .text here closedHere
    | comment content => exact .comment here

theorem legible_pruned {m : Markup} (spelled : m.Throughout Spelled) (cased : m.Throughout Cased)
    (solid : m.isBlank = false) : m.pruned.Throughout Legible := by
  induction spelled with
  | @intro m here _ ih =>
    obtain ⟨casedHere, cased⟩ := cased
    cases m with
    | element tag attributes kids =>
      obtain ⟨word, names, void⟩ := here
      rw [pruned, prunedAll_eq]
      refine .intro ⟨word, fun entry mem => ?_, fun isVoid => ⟨casedHere isVoid, ?_⟩⟩
        fun kid mem => ?_
      · obtain ⟨held, listed, same⟩ := names_collapsed mem
        rw [← same]
        exact names held listed
      · rw [void isVoid]
        rfl
      · obtain ⟨k, kept, rfl⟩ := List.mem_map.mp mem
        obtain ⟨listed, solid⟩ := List.mem_filter.mp kept
        exact ih k listed (cased k listed) (by simpa using solid)
    | text content =>
      refine throughout_text.mpr ?_
      rintro rfl
      cases solid
    | comment content => exact .intro here fun _ mem => (List.not_mem_nil mem).elim

/-- Joining texts keeps what holds of texts that are put together. -/
theorem forall_mem_joined {P : Markup → Prop}
    (texts : ∀ a b, P (.text a) → P (.text b) → P (.text (a ++ b))) {ms : List Markup}
    (each : ∀ m ∈ ms, P m) : ∀ m ∈ joined ms, P m := by
  induction ms with
  | nil => exact each
  | cons m ms ih =>
    obtain ⟨first, others⟩ := List.forall_mem_cons.mp each
    have later := ih others
    cases m with
    | text content =>
      rw [joined]
      split
      case h_1 more rest same =>
        rw [same] at later
        obtain ⟨next, later⟩ := List.forall_mem_cons.mp later
        exact List.forall_mem_cons.mpr ⟨texts content more first next, later⟩
      case h_2 => exact List.forall_mem_cons.mpr ⟨first, later⟩
    | element tag attributes kids =>
      rw [joined_cons rfl]
      exact List.forall_mem_cons.mpr ⟨first, later⟩
    | comment content =>
      rw [joined_cons rfl]
      exact List.forall_mem_cons.mpr ⟨first, later⟩

theorem joined_apart (ms : List Markup) :
    (joined ms).IsChain fun a b => ¬(a.isText = true ∧ b.isText = true) := by
  induction ms with
  | nil => exact .nil
  | cons m ms ih =>
    cases m with
    | text content =>
      rw [joined]
      split
      case h_1 more rest same =>
        rw [same] at ih
        exact List.isChain_cons.mpr (List.isChain_cons.mp ih)
      case h_2 distinct =>
        refine List.isChain_cons.mpr ⟨fun next head both => ?_, ih⟩
        cases next with
        | text more =>
          obtain ⟨rest, same⟩ := List.head?_eq_some_iff.mp head
          exact distinct more rest same
        | element tag attributes kids => cases both.2
        | comment content => cases both.2
    | element tag attributes kids =>
      rw [joined_cons rfl]
      exact List.isChain_cons.mpr ⟨fun _ _ both => Bool.false_ne_true both.1, ih⟩
    | comment content =>
      rw [joined_cons rfl]
      exact List.isChain_cons.mpr ⟨fun _ _ both => Bool.false_ne_true both.1, ih⟩

mutual

theorem apart_merged : ∀ m : Markup, m.merged.Throughout Apart
  | .element tag attributes kids => by
    rw [merged]
    refine .intro (joined_apart _) (forall_mem_joined (fun a b _ _ => ?_) (apart_mergedAll kids))
    exact throughout_text.mpr .nil
  | .text content => throughout_text.mpr .nil
  | .comment content => .intro .nil fun _ mem => (List.not_mem_nil mem).elim

theorem apart_mergedAll : ∀ ms : List Markup, ∀ m ∈ mergedAll ms, m.Throughout Apart
  | [] => fun _ mem => (List.not_mem_nil mem).elim
  | m :: ms => List.forall_mem_cons.mpr ⟨apart_merged m, apart_mergedAll ms⟩

end

theorem legible_merged {m : Markup} (legible : m.Throughout Legible) :
    m.merged.Throughout Legible := by
  induction legible with
  | @intro m here below ih =>
    cases m with
    | element tag attributes kids =>
      obtain ⟨word, names, void⟩ := here
      rw [merged, mergedAll_eq]
      refine .intro ⟨word, names, fun isVoid => ⟨(void isVoid).1, ?_⟩⟩
        (forall_mem_joined (fun a b first _ => ?_) ?_)
      · rw [(void isVoid).2]
        rfl
      · refine throughout_text.mpr fun empty => throughout_text.mp first ?_
        exact (String.append_eq_empty_iff.mp empty).1
      · intro kid mem
        obtain ⟨k, listed, rfl⟩ := List.mem_map.mp mem
        exact ih k listed
    | text content => exact .intro here below
    | comment content => exact .intro here below

/-- The normal form of a tree that was read is read back as it is. -/
theorem readable_normalized {m : Markup} (spelled : m.Throughout Spelled)
    (solid : m.isBlank = false) (cased : m.Throughout Cased)
    (closed : m.normalized.Throughout Closed) : m.normalized.Readable :=
  readable_of_throughout (legible_merged (legible_pruned spelled cased solid)) closed
    (apart_merged m.pruned)

/-- What a tree that has an element at its root is written as is a template. -/
theorem parseTemplate_written {m : Markup} (readable : m.Readable) (root : m.isElement = true) :
    parseTemplate m.written = .ok m := by
  have ends : Stops [] := fun _ mem => by cases mem
  have whole := readFrom_written (Text.bytes m.written).length readable {} fun _ => ends
  rw [List.append_nil] at whole
  have read : parseFragment m.written = .ok [m] := by
    rw [parseFragment, whole, readFrom]
    rfl
  have only : [m].filter isElement = [m] := by simp [root]
  unfold parseTemplate
  rw [read]
  simp only [bind, Except.bind, only]

/-! ## Compiling -/

/-- Nothing in a node follows the scope, and no extension takes it over. -/
def Fixed : Markup → Prop
  | .element tag attributes _ =>
    isComponentTag tag = false ∧ ∀ attr ∈ attributes, isFixed attr = true
  | .text content => hasSpan content = false
  | .comment _ => True

mutual

/-- The plan of a tree in which all is fixed. -/
def plan : Markup → Plan
  | .element tag attributes kids => .element tag attributes [] (plans kids) none
  | .text content => .text content none
  | .comment content => .comment content

def plans : List Markup → List Plan
  | [] => []
  | kid :: rest => if kid.isBlank then plans rest else kid.plan :: plans rest

end

theorem attributeSort_of_isFixed {attr : String × String} (h : isFixed attr = true) :
    directiveName? attr.1 = none ∧ eventName? attr.1 = none ∧ hasSpan attr.2 = false := by
  obtain ⟨sort, span⟩ := Bool.and_eq_true_iff.mp h
  have sort := of_decide_eq_true sort
  unfold attributeSort at sort
  split at sort
  · cases sort
  case h_2 unnamed =>
    split at sort
    · cases sort
    case h_2 unheard => exact ⟨unnamed, unheard, by simpa using span⟩

theorem isExtension_of_fixed (registry : Registry) {tag : String}
    {attributes : List (String × String)} {kids : List Markup}
    (h : Fixed (.element tag attributes kids)) : isExtension registry tag attributes = false := by
  obtain ⟨plain, fixed⟩ := h
  have none : attributes.any (isStructural registry ·.1) = false := by
    rw [List.any_eq_false]
    intro attr mem
    have unnamed := (attributeSort_of_isFixed (fixed attr mem)).1
    simp [isStructural, unnamed]
  rw [isExtension, none, plain]
  rfl

end Markup

namespace Analysis

variable {registry : Registry} {d : Draft}

theorem attributes_fixed (registry : Registry) (path : Path) :
    ∀ (attrs fixed : List (String × String)) (handlers : List Wiring) {d : Draft},
      (∀ attr ∈ attrs, isFixed attr = true) →
      Gives (attributes registry path attrs fixed handlers) d fun r d' =>
        r = (fixed ++ attrs, handlers) ∧ d' = d
  | [], fixed, handlers, d, _ => gives_pure ⟨by rw [List.append_nil], rfl⟩
  | (name, value) :: rest, fixed, handlers, d, all => by
    obtain ⟨first, others⟩ := List.forall_mem_cons.mp all
    obtain ⟨unnamed, unheard, free⟩ := Markup.attributeSort_of_isFixed first
    unfold attributes
    dsimp only at unnamed unheard
    rw [unnamed]
    dsimp only
    rw [unheard]
    refine gives_bind (gives_lift fun content read => ?_)
    have static : content.isStatic = true := by
      rw [Interpolation.isStatic_of_parse read, free]
      rfl
    rw [if_pos static]
    refine (attributes_fixed registry path rest _ handlers others).imp ?_
    rintro r d' ⟨rfl, rfl⟩
    exact ⟨by rw [List.append_assoc]; rfl, rfl⟩

theorem text_fixed (path : Path) {content : String} (free : hasSpan content = false) :
    Gives (text path content) d fun plan? d' =>
      plan?.toList = Markup.plans [.text content] ∧ d' = d := by
  unfold text
  split
  case isTrue blank => exact gives_pure ⟨by simp [Markup.plans, Markup.isBlank, blank], rfl⟩
  case isFalse solid =>
    refine gives_bind (gives_lift fun parsed read => ?_)
    have static : parsed.isStatic = true := by
      rw [Interpolation.isStatic_of_parse read, free]
      rfl
    rw [if_pos static]
    exact gives_pure ⟨by simp [Markup.plans, Markup.plan, Markup.isBlank, solid], rfl⟩

mutual

/-- A tree in which all is fixed is its plan, and nothing else comes from it. -/
theorem node_fixed : ∀ (m : Markup) (path : Path) {d : Draft}, m.Throughout Markup.Fixed →
    d.anchors = [] → Gives (node registry m path) d fun plan? d' =>
      plan?.toList = Markup.plans [m] ∧ d' = d
  | .comment content, path, d, _, _ => gives_pure ⟨rfl, rfl⟩
  | .text content, path, d, fixed, _ => text_fixed path (Markup.throughout_text.mp fixed)
  | .element tag attrs children, path, d, fixed, empty => by
    obtain ⟨here, below⟩ := fixed
    have left := Markup.isExtension_of_fixed registry here
    unfold node
    refine gives_bind ((extension?_lists tag attrs (nodes_lists children .root 0)).imp ?_)
    rintro (_ | plan) d₁ claimed
    · obtain ⟨_, rfl⟩ := claimed
      unfold plainElement
      refine gives_bind (gives_bind ((attributes_fixed registry path attrs [] [] here.2).imp ?_))
      rintro r d₂ ⟨rfl, rfl⟩
      refine gives_bind (anchorSlot?_gives (gives_bind
        ((nodes_fixed children path 0 below empty).imp ?_)))
      rintro plans d₃ ⟨rfl, rfl⟩
      refine gives_pure (gives_pure ⟨?_, rfl⟩)
      rw [empty]
      rfl
    · exact absurd claimed.1 (by rw [left]; exact Bool.false_ne_true)

theorem nodes_fixed : ∀ (kids : List Markup) (path : Path) (index : Nat) {d : Draft},
    (∀ kid ∈ kids, kid.Throughout Markup.Fixed) → d.anchors = [] →
      Gives (nodes registry kids path index) d fun plans d' =>
        plans = Markup.plans kids ∧ d' = d
  | [], path, index, d, _, _ => gives_pure ⟨rfl, rfl⟩
  | kid :: rest, path, index, d, fixed, empty => by
    obtain ⟨first, others⟩ := List.forall_mem_cons.mp fixed
    unfold nodes
    refine gives_bind ((node_fixed kid (path.child index) first empty).imp ?_)
    rintro plan? d₁ ⟨here, rfl⟩
    refine gives_bind ((nodes_fixed rest path (index + 1) others empty).imp ?_)
    rintro plans d₂ ⟨rfl, rfl⟩
    refine gives_pure ⟨?_, rfl⟩
    rw [here, Markup.plans, Markup.plans, Markup.plans]
    split <;> rfl

end

end Analysis

/-- A template in which all is fixed is its plan. -/
theorem Template.compile_fixed {registry : Registry} {m : Markup} {id next : TemplateId}
    {t : Template} (fixed : m.Throughout Markup.Fixed) (solid : m.isBlank = false)
    (run : compile registry id m = .ok (t, next)) : t = Analysis.template m.plan { nextId := id } := by
  obtain ⟨plan?, d, walk, rfl⟩ := compile_walk run
  obtain ⟨same, rfl⟩ := Analysis.node_fixed m .root fixed rfl _ _ walk
  have only : plan?.toList = [m.plan] := by
    rw [same, Markup.plans, solid]
    rfl
  cases plan? with
  | none => cases only
  | some plan =>
    cases List.singleton_inj.mp only
    rfl

/-! ## Building -/

/-- A construction that never fails. -/
def Construction.Succeeds {α : Type} (c : Construction α) : Prop :=
  ∀ site, Ends c site (fun _ _ => True) fun _ => False

theorem Construction.Succeeds.bind {α β : Type} {c : Construction α} {f : α → Construction β}
    (h : c.Succeeds) (next : ∀ a, (f a).Succeeds) : (c >>= f).Succeeds := fun site =>
  Ends.bind ((h site).imp (fun a site' _ => next a site') fun _ h => h)

theorem Construction.succeeds_pure {α : Type} (a : α) : (pure a : Construction α).Succeeds :=
  fun _ => trivial

namespace Markup

open Construction

mutual

theorem build_succeeds (scope : Scope) : ∀ m : Markup, (m.plan.build scope).Succeeds
  | .element tag attributes kids => by
    rw [plan, Plan.build]
    refine Succeeds.bind (fun _ => trivial) fun id => ?_
    refine Succeeds.bind ?_ fun _ => ?_
    · intro site
      refine Ends.loop (fun _ _ => True) ?_ attributes site trivial
      rintro ⟨name, value⟩ _ _ _
      exact ⟨rfl, trivial⟩
    · refine Succeeds.bind (succeeds_pure _) fun _ => ?_
      refine Succeeds.bind (buildChildren_succeeds scope id kids) fun _ => ?_
      exact Succeeds.bind (succeeds_pure _) fun _ => succeeds_pure _
  | .text content => by
    rw [plan, Plan.build]
    exact Succeeds.bind (fun _ => trivial) fun id =>
      Succeeds.bind (succeeds_pure _) fun _ => succeeds_pure _
  | .comment content => by
    rw [plan, Plan.build]
    exact fun _ => trivial

theorem buildChildren_succeeds (scope : Scope) (parent : NodeId) :
    ∀ kids : List Markup, (Plan.buildChildren scope parent (plans kids)).Succeeds
  | [] => by
    rw [plans, Plan.buildChildren]
    exact succeeds_pure _
  | kid :: rest => by
    rw [plans]
    split
    · exact buildChildren_succeeds scope parent rest
    · rw [Plan.buildChildren]
      refine Succeeds.bind (build_succeeds scope kid) fun id => ?_
      exact Succeeds.bind (fun _ => trivial) fun _ => buildChildren_succeeds scope parent rest

end

theorem content_element (tag : String) (attributes : List (String × String))
    (handlers : List Wiring) (kids : List Plan) (slot : Option Nat) :
    (Plan.element tag attributes handlers kids slot).content =
      .element tag (collapsed attributes) [] := by
  have fold (entries : List (String × String)) :
      attributes.foldl (fun c entry => c.withAttribute entry.1 entry.2)
          (Content.element tag entries []) =
        .element tag (attributes.foldl
          (fun entries entry => Document.setEntry entry.1 entry.2 entries) entries) [] := by
    induction attributes generalizing entries with
    | nil => rfl
    | cons entry rest ih => exact ih (Document.setEntry entry.1 entry.2 entries)
  rw [Plan.content]
  exact (fold []).trans (by rw [foldl_setEntry])

variable {scope : Scope} {doc : Document} {whole : Plan} {place : List Nat → NodeId}

mutual

/-- What was built for a tree shows it, without the blank texts and with each attribute once. -/
theorem shows_of_laid (laid : whole.Laid scope doc place) : ∀ (m : Markup) {q : List Nat},
    whole.at? q = some m.plan → doc.Shows (place q) m.pruned
  | .element tag attributes kids, q, found => by
    obtain ⟨node, live, made⟩ := laid.node q _ found
    have content := made.content
    rw [plan, content_element] at content
    rw [pruned]
    refine ⟨[], by rw [Document.content?, live, Option.map_some, content], ?_⟩
    have children : doc.children (place q) = node.children := by rw [Document.children, live]; rfl
    have below := showsAll_of_laid laid kids (q := q) (n := 0) fun i p there => by
      rw [Nat.zero_add, Plan.at?_snoc found]
      exact there
    simp only [Nat.zero_add] at below
    rw [children, made.children]
    exact below
  | .text content, q, found => by
    obtain ⟨node, live, made⟩ := laid.node q _ found
    change doc.content? (place q) = some (.text content)
    rw [Document.content?, live, Option.map_some, made.content]
    rfl
  | .comment content, q, found => by
    obtain ⟨node, live, made⟩ := laid.node q _ found
    change doc.content? (place q) = some (.comment content)
    rw [Document.content?, live, Option.map_some, made.content]
    rfl

theorem showsAll_of_laid (laid : whole.Laid scope doc place) : ∀ (kids : List Markup)
    {q : List Nat} {n : Nat},
    (∀ i p, (plans kids)[i]? = some p → whole.at? (q ++ [n + i]) = some p) →
      doc.ShowsAll ((List.range (plans kids).length).map fun i => place (q ++ [n + i]))
        (prunedAll kids)
  | [], q, n, _ => trivial
  | kid :: rest, q, n, found => by
    rw [plans] at found ⊢
    rw [prunedAll]
    split
    case isTrue blank =>
      rw [if_pos blank] at found
      exact showsAll_of_laid laid rest found
    case isFalse solid =>
      rw [if_neg solid] at found
      rw [List.length_cons, List.range_succ_eq_map, List.map_cons, List.map_map]
      have shift : (fun i => place (q ++ [n + i])) ∘ Nat.succ =
          fun i => place (q ++ [n + 1 + i]) := funext fun i => by
        rw [Nat.add_right_comm]
        rfl
      rw [shift]
      refine ⟨shows_of_laid laid kid (found 0 _ rfl), showsAll_of_laid laid rest fun i p there => ?_⟩
      rw [Nat.add_right_comm]
      exact found (i + 1) p there

end

end Markup

namespace Template

variable {κ : Type} (host : Host κ)

/-- An instance can be made in any document and shows the tree. -/
theorem createInstance_shows (m : Markup) (id : TemplateId) (scope : Scope) {s : Stage κ}
    (sound : s.document.Sound) : ∃ i s',
      (Analysis.template m.plan { nextId := id }).createInstance host scope s = .ok i s' ∧
        s'.document.Shows i.root m.pruned := by
  let t := Analysis.template m.plan { nextId := id }
  have succeeds : (t.buildPlan scope).Succeeds := by
    refine Construction.Succeeds.bind (fun _ => trivial) fun _ => ?_
    refine Construction.Succeeds.bind (m.build_succeeds scope) fun root => ?_
    exact Construction.Succeeds.bind (fun _ => trivial) fun _ =>
      Construction.Succeeds.bind (fun _ => trivial) fun _ => Construction.succeeds_pure _
  have ends := buildPlan_ends scope t sound
  cases run : t.buildPlan scope { document := s.document } with
  | error e site => exact ((succeeds _).error run).elim
  | ok root site =>
    obtain ⟨place, rfl, raised⟩ := ends.ok run
    let s₁ : Stage κ := { s with document := site.document }
    have placed : ((t.buildPlan scope).onStage : Eval (Stage κ) (NodeId × Site)) s =
        .ok (place [], site) s₁ := by
      unfold Construction.onStage
      rw [run]
    have created : t.create host scope s = .ok (place [], []) s₁ := by
      unfold create
      rw [bind_of_ok placed]
      dsimp only
      rw [show t.extensions = [] from rfl, Extension.createAll]
      rfl
    have pass : t.update host scope (place []) none s₁ = .ok ⟨t.id, [], 0⟩ s₁ := rfl
    have none : Extension.updateAll host scope t.extensions [] s₁ = (⟨[], none⟩, s₁) := by
      rw [show t.extensions = [] from rfl, Extension.updateAll_nil]
    have mounted : t.createMount host scope s =
        .ok (.template (place []) (some ⟨t.id, [], 0⟩) []) s₁ := by
      rw [createMount_eq, bind_of_ok created]
      dsimp only
      rw [updateMount_template, pass]
      dsimp only
      rw [none]
    refine ⟨_, s₁, bind_of_ok mounted, ?_⟩
    exact m.shows_of_laid raised.laid (Plan.at?_nil _)

end Template

/-! ## Trees that can be checked -/

namespace Markup

theorem throughout_iff {P : Markup → Prop} {m : Markup} :
    m.Throughout P ↔ P m ∧ ∀ kid ∈ m.children, kid.Throughout P := by
  constructor
  · rintro ⟨here, below⟩
    exact ⟨here, below⟩
  · rintro ⟨here, below⟩
    exact .intro here below

section

variable (P : Markup → Prop) [DecidablePred P]

mutual

def decideThroughout : (m : Markup) → Decidable (m.Throughout P)
  | .element tag attributes kids =>
    have := decideThroughoutAll kids
    decidable_of_iff (P (.element tag attributes kids) ∧ ∀ kid ∈ kids, kid.Throughout P)
      throughout_iff.symm
  | .text content => decidable_of_iff (P (.text content)) throughout_text.symm
  | .comment content =>
    decidable_of_iff (P (.comment content) ∧ True)
      (Iff.trans (by simp [Markup.children]) throughout_iff.symm)

def decideThroughoutAll : (ms : List Markup) → Decidable (∀ m ∈ ms, m.Throughout P)
  | [] => isTrue (by simp)
  | m :: ms =>
    have := decideThroughout m
    have := decideThroughoutAll ms
    decidable_of_iff (m.Throughout P ∧ ∀ m ∈ ms, m.Throughout P) List.forall_mem_cons.symm

end

end

instance (P : Markup → Prop) [DecidablePred P] (m : Markup) : Decidable (m.Throughout P) :=
  decideThroughout P m

instance : DecidablePred Fixed
  | .element tag attributes _ =>
    inferInstanceAs (Decidable (isComponentTag tag = false ∧ ∀ attr ∈ attributes, isFixed attr = true))
  | .text content => inferInstanceAs (Decidable (hasSpan content = false))
  | .comment _ => isTrue trivial

instance : DecidablePred Cased
  | .element tag _ _ => inferInstanceAs (Decidable (tag.toLower ∈ voidTags → tag = tag.toLower))
  | .text _ => isTrue trivial
  | .comment _ => isTrue trivial

instance : DecidablePred Closed
  | .element _ _ _ => isTrue trivial
  | .text content =>
    match h : splitSpans content.toList with
    | .ok split => isTrue ⟨split, h⟩
    | .error mark => isFalse (by rintro ⟨split, same⟩; rw [h] at same; cases same)
  | .comment _ => isTrue trivial

end Markup

/-! ## Reading back -/

/-- What an instance of a static template is written as is read back as the normal form of the tree
that the template was compiled from. -/
theorem Template.markup_reads_back {κ : Type} (host : Host κ) {registry : Registry} {id next : TemplateId} {source : String}
    {t : Template} {m : Markup} (compiled : Template.ofSource registry id source = .ok (t, next))
    (read : Markup.parseTemplate source = .ok m) (fixed : m.Throughout Markup.Fixed)
    (cased : m.Throughout Markup.Cased) (closed : m.normalized.Throughout Markup.Closed)
    (scope : Scope) {s : Stage κ} (sound : s.document.Sound) :
    ∃ i s', t.createInstance host scope s = .ok i s' ∧
      Markup.parseTemplate (s'.document.markup i.root) = .ok m.normalized := by
  obtain ⟨spelled, tag, attributes, kids, rfl⟩ := Markup.parseTemplate_spelled read
  have compiled : Template.compile registry id (.element tag attributes kids) = .ok (t, next) := by
    unfold Template.ofSource at compiled
    rw [read] at compiled
    exact compiled
  obtain rfl := Template.compile_fixed fixed rfl compiled
  obtain ⟨i, s', made, shown⟩ := Template.createInstance_shows host _ id scope sound
  have readable := Markup.readable_normalized spelled rfl cased closed
  refine ⟨i, s', made, ?_⟩
  rw [Document.markup_eq shown, ← Markup.written_merged]
  exact Markup.parseTemplate_written readable rfl

/-- A repeated attribute, blank text, a void element, a declaration that parts a text and another one
that parts what then looks like a span, a comment, an element that closes itself, and entities. -/
theorem Template.markup_reads_back_parted :
    let source := "<p a=1 b a='&lt;2'> <br>x<!d>&amp;y<!--c--><i/>$<!e>\x7ba\x7d</p>"
    let m : Markup := .element "p" [("a", "1"), ("b", ""), ("a", "<2")]
      [.text " ", .element "br" [] [], .text "x", .text "&y", .comment "c", .element "i" [] [],
        .text "$", .text "\x7ba\x7d"]
    let normal : Markup := .element "p" [("a", "<2"), ("b", "")]
      [.element "br" [] [], .text "x&y", .comment "c", .element "i" [] [], .text "$\x7ba\x7d"]
    Markup.parseTemplate source = .ok m ∧ m.Throughout Markup.Fixed ∧ m.normalized = normal ∧
      ∃ t next i s, Template.ofSource .standard 0 source = .ok (t, next) ∧
        t.createInstance Sample.echo (.ofEntries []) Sample.blank = .ok i s ∧
        Markup.parseTemplate (s.document.markup i.root) = .ok normal := by
  intro source m normal
  have read : Markup.parseTemplate source = .ok m := by decide +kernel
  have fixed : m.Throughout Markup.Fixed := by decide +kernel
  have same : m.normalized = normal := by decide +kernel
  have accepted : (Template.ofSource .standard 0 source).isOk = true := by decide +kernel
  cases compiled : Template.ofSource .standard 0 source with
  | error e => rw [compiled] at accepted; cases accepted
  | ok r =>
    obtain ⟨i, s, made, back⟩ := Template.markup_reads_back Sample.echo compiled read fixed
      (by decide +kernel) (by decide +kernel) (.ofEntries []) (s := Sample.blank)
      (Document.sound_new false)
    exact ⟨read, fixed, same, r.1, r.2, i, s, rfl, made, same ▸ back⟩

/-- A template without expressions, an instance of which is written as what cannot be read. -/
def Template.Rejected (source : String) : Prop := ∃ m t next i s e,
  Markup.parseTemplate source = .ok m ∧ m.Throughout Markup.Fixed ∧
    Template.ofSource .standard 0 source = .ok (t, next) ∧
    t.createInstance Sample.echo (.ofEntries []) Sample.blank = .ok i s ∧
    Markup.parseTemplate (s.document.markup i.root) = .error e

theorem Template.rejected_of_written {source : String} {m : Markup} {e : MarkupError}
    (read : Markup.parseTemplate source = .ok m) (fixed : m.Throughout Markup.Fixed)
    (solid : m.isBlank = false) (accepted : (Template.ofSource .standard 0 source).isOk = true)
    (fails : Markup.parseTemplate m.pruned.written = .error e) : Template.Rejected source := by
  cases compiled : Template.ofSource .standard 0 source with
  | error e => rw [compiled] at accepted; cases accepted
  | ok r =>
    obtain ⟨t, next⟩ := r
    have same : Template.compile .standard 0 m = .ok (t, next) := by
      unfold Template.ofSource at compiled
      rw [read] at compiled
      exact compiled
    obtain rfl := Template.compile_fixed fixed solid same
    obtain ⟨i, s, made, shown⟩ := Template.createInstance_shows Sample.echo m 0 (.ofEntries [])
      (s := Sample.blank) (Document.sound_new false)
    refine ⟨m, _, next, i, s, e, read, fixed, compiled, made, ?_⟩
    rw [Document.markup_eq shown]
    exact fails

/-- Texts that make up the start of a span once they stand side by side, and a void element that is
not in lower case, are not read back. -/
theorem Template.markup_not_read_back :
    Template.Rejected "<p>$<!d>\x7ba</p>" ∧ Template.Rejected "<p><bR></p>" := by
  let parted : Markup := .element "p" [] [.text "$", .text "\x7ba"]
  let upper : Markup := .element "p" [] [.element "bR" [] []]
  have first : Markup.parseTemplate parted.pruned.written = .error (.unclosedTag "p" 0) := by
    decide +kernel
  have second : Markup.parseTemplate upper.pruned.written = .error (.mismatchedTag "p" "bR" 7) := by
    decide +kernel
  constructor
  · exact Template.rejected_of_written (m := parted) (by decide +kernel) (by decide +kernel) rfl
      (by decide +kernel) first
  · exact Template.rejected_of_written (m := upper) (by decide +kernel) (by decide +kernel) rfl
      (by decide +kernel) second

end LiveTemplate
