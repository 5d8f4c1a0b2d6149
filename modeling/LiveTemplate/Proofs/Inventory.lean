import Mathlib.Data.List.Lex
import LiveTemplate.Proofs.Compiling
import LiveTemplate.Proofs.Tokens

/-!
# LiveTemplate.Proofs.Inventory

What compiling makes of markup, part by part. A part is a text or an attribute. The elements that
an extension takes over count as one place, so their attributes and all below them are left out.

  * `Markup.parts`     the parts in document order, with the positions of their nodes
  * `Part.Makes`       the binding that comes from a part
  * `Markup.Mirrors`   the plan that comes from a tree
  * `Draft.Lists`      the bindings that were added are those of the parts, one by one
-/

namespace LiveTemplate

/-! ## Spans -/

/-- A span is opened in the text. -/
def hasSpan (content : String) : Bool := (nextSpan? content.toList).isSome

theorem isEmpty_of_splitSpans {cs : List Char} {split : Split} (h : splitSpans cs = .ok split) :
    split.rest.isEmpty = (nextSpan? cs).isNone := by
  rw [splitSpans] at h
  split at h
  · case h_1 none =>
    cases h
    rw [none]
    rfl
  · case h_2 before mark after found =>
    rw [found]
    split at h
    · cases h
    · split at h
      · cases h
      · cases h
        rfl

theorem isEmpty_of_mapM {α β : Type} {f : α → Except CompileError β} {as : List α} {bs : List β}
    (h : as.mapM f = .ok bs) : bs.isEmpty = as.isEmpty := by
  cases forall₂_of_mapM h <;> rfl

theorem Interpolation.isStatic_of_parse {content : String} {i : Interpolation}
    (h : Interpolation.parse content = .ok i) : i.isStatic = !hasSpan content := by
  unfold Interpolation.parse splitText at h
  obtain ⟨split, opened, h⟩ := exists_of_bind_eq_ok h
  obtain ⟨rest, read, h⟩ := exists_of_bind_eq_ok h
  cases h
  split at opened
  · case h_1 found =>
    cases opened
    simp [isStatic, hasSpan, isEmpty_of_mapM read, isEmpty_of_splitSpans found]
  · cases opened

/-! ## Parts -/

/-- What the name of an attribute says about its value. -/
inductive AttributeSort where
  | directive (key : String)
  | event (name : String)
  /-- The value is text, perhaps with spans. -/
  | content
  deriving DecidableEq

def attributeSort (name : String) : AttributeSort :=
  match directiveName? name with
  | some key => .directive key
  | none =>
    match eventName? name with
    | some event => .event event
    | none => .content

def AttributeSort.isEvent : AttributeSort → Bool
  | .event _ => true
  | _ => false

/-- An attribute whose value stays as it is. -/
def isFixed (attr : String × String) : Bool :=
  attributeSort attr.1 = .content && !hasSpan attr.2

def isEventAttribute (attr : String × String) : Bool := (attributeSort attr.1).isEvent

def HandlerCall.arguments (call : HandlerCall) : List Expr := (call.args.map Prod.snd).getD []

/-- A handler is what its body is split into. A list of arguments that was kept is not empty. -/
theorem split_of_parseHandler {event value : String} {call : HandlerCall}
    (h : parseHandler event value = .ok call) :
    ∃ body args, splitHandler (Text.trimChars body) = .ok (call.handler, args) ∧
      ∀ kept ∈ call.args, kept.2 ≠ [] := by
  unfold parseHandler at h
  obtain ⟨split, _, h⟩ := exists_of_bind_eq_ok h
  extract_lets invalid read at h
  have called : ∃ body, read body = .ok call := by
    split at h <;>
    · obtain ⟨body, _, h⟩ := exists_of_bind_eq_ok h
      exact ⟨body, h⟩
  obtain ⟨⟨body, spanned⟩, h⟩ := called
  dsimp only [read] at h
  split at h
  · cases h
  · case h_2 handler named =>
    cases h
    exact ⟨body, none, named, by simp⟩
  · case h_3 handler args named =>
    refine ⟨body, some args, ?_⟩
    split at h
    · obtain ⟨_, thrown, _⟩ := exists_of_bind_eq_ok h
      cases thrown
    · split at h
      · cases h
      · cases h
        exact ⟨named, by simp⟩
      · case h_3 nonempty _ =>
        cases h
        exact ⟨named, by simpa using nonempty⟩

theorem args_ne_nil {event value handler source : String} {args : List Expr}
    (h : parseHandler event value = .ok ⟨handler, some (source, args)⟩) : args ≠ [] := by
  obtain ⟨-, -, -, kept⟩ := split_of_parseHandler h
  exact kept (source, args) rfl

/-- The attribute asks for this handler. -/
def Wires (attr : String × String) (wiring : Wiring) : Prop :=
  attributeSort attr.1 = .event wiring.event ∧
    ∃ call, parseHandler wiring.event attr.2 = .ok call ∧ wiring.handler = call.handler

/-- A place of the markup that can come to a binding. -/
inductive Part where
  | text (content : String)
  | attribute (name value : String)

namespace Part

/-- Whether the part comes to a binding. -/
def isBound : Part → Bool
  | .text content => !Text.isBlankText content && hasSpan content
  | .attribute name value =>
    match attributeSort name with
    | .directive _ => true
    | .event event => (parseHandler event value).toOption.any fun call => !call.arguments.isEmpty
    | .content => hasSpan value

/-- The action, with its source, that the part comes to. -/
inductive Makes (registry : Registry) : Part → Action → String → Prop
  | text {content : String} {parsed : Interpolation}
      (read : Interpolation.parse content = .ok parsed) :
      Makes registry (.text content) (.setText parsed) content
  | directive {name value key : String} {directive : AttributeDirective} {e : Expr}
      (sort : attributeSort name = .directive key)
      (found : registry.directive? key = some (.onElement directive))
      (read : parseDirectiveValue key value = .ok e) :
      Makes registry (.attribute name value) (.applyDirective key directive e) value
  | event {name value event handler source : String} {args : List Expr}
      (sort : attributeSort name = .event event)
      (read : parseHandler event value = .ok ⟨handler, some (source, args)⟩) :
      Makes registry (.attribute name value) (.setEventData event args) source
  | classes {value : String} {parsed : Interpolation}
      (read : Interpolation.parse value = .ok parsed) :
      Makes registry (.attribute "class" value) (.replaceClass parsed) value
  | attribute {name value : String} {parsed : Interpolation} (other : name ≠ "class")
      (sort : attributeSort name = .content) (read : Interpolation.parse value = .ok parsed) :
      Makes registry (.attribute name value) (.setAttribute name parsed) value

theorem Makes.content (registry : Registry) {name value : String} {parsed : Interpolation}
    (sort : attributeSort name = .content) (read : Interpolation.parse value = .ok parsed) :
    Makes registry (.attribute name value)
      (if name = "class" then .replaceClass parsed else .setAttribute name parsed) value := by
  split
  · case isTrue same => exact same ▸ .classes read
  · case isFalse other => exact .attribute other sort read

end Part

def isStructural (registry : Registry) (name : String) : Bool :=
  match (directiveName? name).bind registry.directive? with
  | some (.structural _) => true
  | _ => false

/-- Whether an extension takes an element over. -/
def isExtension (registry : Registry) (tag : String) (attrs : List (String × String)) : Bool :=
  attrs.any (isStructural registry ·.1) || isComponentTag tag

namespace Markup

/-- The node at a position. -/
def at? : Markup → List Nat → Option Markup
  | m, [] => some m
  | m, i :: r => m.children[i]?.bind fun kid => kid.at? r

/-- The parts of a node itself. -/
def own : Markup → List Part
  | .element _ attributes _ => attributes.map fun attr => .attribute attr.1 attr.2
  | .text content => [.text content]
  | .comment _ => []

mutual

/-- The parts in document order, each with the position of its node. -/
def parts (registry : Registry) : Markup → List (List Nat × Part)
  | .element tag attributes children =>
    if isExtension registry tag attributes then []
    else attributes.map (fun attr => ([], .attribute attr.1 attr.2)) ++
      partsFrom registry children 0
  | .text content => [([], .text content)]
  | .comment _ => []

def partsFrom (registry : Registry) : List Markup → Nat → List (List Nat × Part)
  | [], _ => []
  | kid :: rest, i =>
    (kid.parts registry).map (fun p => (i :: p.1, p.2)) ++ partsFrom registry rest (i + 1)

end

/-- The parts that come to a binding. -/
def boundParts (registry : Registry) (m : Markup) : List (List Nat × Part) :=
  (m.parts registry).filter (·.2.isBound)

/-- The plan has the nodes of the markup without the blank texts. What is fixed stays as it is. -/
inductive Mirrors (registry : Registry) : Markup → Plan → Prop
  | comment (content : String) : Mirrors registry (.comment content) (.comment content)
  | fixedText {content : String} (fixed : hasSpan content = false) :
      Mirrors registry (.text content) (.text content none)
  | boundText {content : String} (bound : hasSpan content = true) (slot : Option Nat) :
      Mirrors registry (.text content) (.text "" slot)
  | extension {tag : String} {attributes : List (String × String)} {children : List Markup}
      (taken : isExtension registry tag attributes = true) (index : Nat) :
      Mirrors registry (.element tag attributes children) (.placeholder index)
  | element {tag : String} {attributes : List (String × String)} {children : List Markup}
      {handlers : List Wiring} {plans : List Plan}
      (left : isExtension registry tag attributes = false)
      (wired : List.Forall₂ Wires (attributes.filter isEventAttribute) handlers)
      (below : List.Forall₂ (Mirrors registry) (children.filter (!·.isBlank)) plans)
      (slot : Option Nat) :
      Mirrors registry (.element tag attributes children)
        (.element tag (attributes.filter isFixed) handlers plans slot)

end Markup

/-! ## Positions -/

namespace Markup

variable {registry : Registry}

mutual

/-- A part is found at its node. -/
theorem at?_of_mem_parts : ∀ {m : Markup} {r : List Nat} {part : Part},
    (r, part) ∈ m.parts registry → ∃ node, m.at? r = some node ∧ part ∈ node.own
  | .element tag attributes children, r, part, mem => by
    rw [parts] at mem
    split at mem
    · cases mem
    · rcases List.mem_append.mp mem with mem | mem
      · obtain ⟨attr, known, same⟩ := List.mem_map.mp mem
        cases same
        exact ⟨_, rfl, List.mem_map_of_mem known⟩
      · obtain ⟨i, rest, kid, node, rfl, found, below, known⟩ := at?_of_mem_partsFrom mem
        exact ⟨node, by simp [at?, Markup.children, found, below], known⟩
  | .text content, r, part, mem => by
    rw [parts] at mem
    cases List.mem_singleton.mp mem
    exact ⟨_, rfl, List.mem_singleton_self _⟩

theorem at?_of_mem_partsFrom : ∀ {kids : List Markup} {start : Nat} {r : List Nat} {part : Part},
    (r, part) ∈ partsFrom registry kids start → ∃ i rest kid node, r = (start + i) :: rest ∧
      kids[i]? = some kid ∧ kid.at? rest = some node ∧ part ∈ node.own
  | kid :: rest, start, r, part, mem => by
    rw [partsFrom] at mem
    rcases List.mem_append.mp mem with mem | mem
    · obtain ⟨⟨below, _⟩, known, same⟩ := List.mem_map.mp mem
      cases same
      obtain ⟨node, found, own⟩ := at?_of_mem_parts known
      exact ⟨0, below, kid, node, rfl, rfl, found, own⟩
    · obtain ⟨i, below, kid', node, rfl, found, there, own⟩ := at?_of_mem_partsFrom mem
      exact ⟨i + 1, below, kid', node, by rw [Nat.add_right_comm, Nat.add_assoc], found, there, own⟩

end

theorem nil_le_position (r : List Nat) : [] ≤ r := by
  cases r with
  | nil => exact le_refl _
  | cons i r => exact le_of_lt List.Lex.nil

mutual

/-- Document order is the lexicographic order of the positions. -/
theorem parts_sorted : ∀ m : Markup, ((m.parts registry).map Prod.fst).Pairwise (· ≤ ·)
  | .element tag attributes children => by
    rw [parts]
    split
    · exact .nil
    · rw [List.map_append, List.map_map, List.pairwise_append]
      refine ⟨?_, partsFrom_sorted children 0, fun r mem _ _ => ?_⟩
      · rw [List.pairwise_map]
        exact List.pairwise_of_forall fun _ _ => nil_le_position _
      · obtain ⟨attr, _, rfl⟩ := List.mem_map.mp mem
        exact nil_le_position _
  | .text content => List.pairwise_singleton _ _
  | .comment _ => .nil

theorem partsFrom_sorted : ∀ (kids : List Markup) (start : Nat),
    ((partsFrom registry kids start).map Prod.fst).Pairwise (· ≤ ·)
  | [], _ => .nil
  | kid :: rest, start => by
    rw [partsFrom, List.map_append, List.map_map, List.pairwise_append]
    refine ⟨?_, partsFrom_sorted rest (start + 1), fun r mem r' mem' => ?_⟩
    · have below := List.pairwise_map.mp (parts_sorted kid)
      rw [List.pairwise_map]
      exact below.imp fun h => List.cons_le_cons start h
    · -- The positions under a later child begin with a greater index.
      obtain ⟨p, _, rfl⟩ := List.mem_map.mp mem
      obtain ⟨⟨_, part⟩, later, rfl⟩ := List.mem_map.mp mem'
      obtain ⟨i, below, _, _, rfl, _⟩ := at?_of_mem_partsFrom later
      have greater : start < start + 1 + i := by omega
      exact le_of_lt (List.Lex.rel greater)

end

/-- In narrow markup a path gives the position of its node back. -/
theorem Narrow.indexes_below {m node : Markup} (narrow : m.Narrow) {r : List Nat}
    (found : m.at? r = some node) : (Path.root.below r).indexes.map UInt32.toNat = r := by
  induction r generalizing m with
  | nil => rfl
  | cons i r ih =>
    obtain ⟨kid, here, below⟩ := Option.bind_eq_some_iff.mp found
    obtain ⟨few, each⟩ := narrow.children
    obtain ⟨lt, _⟩ := List.getElem?_eq_some_iff.mp here
    have tail := ih (each kid (List.mem_of_getElem? here)) below
    rw [Path.positions_below_cons (by omega), tail]

end Markup

/-! ## Drafts that list parts -/

/-- Only nodes that are bound have a number. -/
def Path.AllUsed (anchors : List Path) (bindings : List Binding) : Prop :=
  ∀ path ∈ anchors, ∃ b ∈ bindings, b.path = path

def Template.Used (t : Template) : Prop := Path.AllUsed t.anchors t.bindings

/-- The binding of a part under the node at `path`. -/
def Binding.Lists (registry : Registry) (path : Path) (p : List Nat × Part) (b : Binding) : Prop :=
  b.path = path.below p.1 ∧ p.2.Makes registry b.action b.source

namespace Draft

/-- The bindings of the parts under the node at `path` were added, in their order, and nothing
else. -/
structure Lists (registry : Registry) (path : Path) (parts : List (List Nat × Part))
    (d d' : Draft) : Prop where
  bindings : ∃ news, d'.bindings = d.bindings ++ news ∧
    List.Forall₂ (Binding.Lists registry path) (parts.filter (·.2.isBound)) news
  used : Path.AllUsed d.anchors d.bindings → Path.AllUsed d'.anchors d'.bindings
  extensions : registry.Proper False Template.Used →
    Extension.AllEach Template.Used d.extensions → Extension.AllEach Template.Used d'.extensions

variable {registry : Registry} {path : Path} {d d₁ d₂ : Draft} {parts more : List (List Nat × Part)}

theorem Lists.refl (free : parts.filter (·.2.isBound) = []) : Lists registry path parts d d :=
  ⟨⟨[], by simp, free ▸ .nil⟩, fun h => h, fun _ h => h⟩

theorem Lists.append (h : Lists registry path parts d d₁) (h' : Lists registry path more d₁ d₂) :
    Lists registry path (parts ++ more) d d₂ := by
  obtain ⟨news, added, listed⟩ := h.bindings
  obtain ⟨news', added', listed'⟩ := h'.bindings
  refine ⟨⟨news ++ news', ?_, ?_⟩, fun used => h'.used (h.used used),
    fun proper each => h'.extensions proper (h.extensions proper each)⟩
  · rw [added', added, List.append_assoc]
  · rw [List.filter_append]
    exact List.rel_append listed listed'

/-- What is listed under a child is listed under the node. -/
theorem Lists.child {i : Nat} (h : Lists registry (path.child i) parts d d₁) :
    Lists registry path (parts.map fun p => (i :: p.1, p.2)) d d₁ := by
  obtain ⟨news, added, listed⟩ := h.bindings
  refine ⟨⟨news, added, ?_⟩, h.used, h.extensions⟩
  rw [List.filter_map, List.forall₂_map_left_iff]
  refine listed.imp fun p b => ?_
  rintro ⟨here, makes⟩
  exact ⟨by rw [here, Path.child_below], makes⟩

/-- Events, handlers and ids do not matter to the bindings. -/
theorem Lists.of_eq (free : parts.filter (·.2.isBound) = []) (bindings : d₁.bindings = d.bindings)
    (anchors : d₁.anchors = d.anchors)
    (extensions : registry.Proper False Template.Used →
      Extension.AllEach Template.Used d.extensions →
        Extension.AllEach Template.Used d₁.extensions) :
    Lists registry path parts d d₁ := by
  refine ⟨⟨[], by simp [bindings], free ▸ .nil⟩, fun used => ?_, extensions⟩
  rwa [bindings, anchors]

end Draft

namespace Analysis

open Draft

variable {registry : Registry} {path : Path} {d : Draft}

theorem targetOf_adds : Gives (targetOf path) d fun _ d' => d'.bindings = d.bindings ∧
    d'.extensions = d.extensions ∧ ∀ q ∈ d'.anchors, q ∈ d.anchors ∨ q = path := by
  unfold targetOf
  split
  · exact gives_pure ⟨rfl, rfl, fun q mem => .inl mem⟩
  · refine gives_bind (anchorSlot?_gives ?_)
    cases d.anchors.findIdx? (· = path) with
    | some slot => exact gives_pure ⟨rfl, rfl, fun q mem => .inl mem⟩
    | none =>
      refine gives_bind (gives_get (gives_bind (gives_modify (gives_pure ⟨rfl, rfl, ?_⟩))))
      intro q mem
      simpa using mem

theorem bind_lists {part : Part} {action : Action} {source : String} (bound : part.isBound = true)
    (makes : part.Makes registry action source) :
    Gives (bind path action source) d fun _ d' => Lists registry path [([], part)] d d' := by
  unfold bind
  refine gives_bind (gives_get ?_)
  dsimp only
  split
  · exact gives_bind gives_throw
  · refine gives_bind (targetOf_adds.imp ?_)
    rintro target d₁ ⟨bindings, extensions, known⟩
    refine gives_modify ⟨⟨[⟨path, target, action, source⟩], by rw [bindings], ?_⟩, ?_, ?_⟩
    · simp [bound, Binding.Lists, makes]
    · intro used q mem
      rcases known q mem with old | rfl
      · obtain ⟨b, mem, same⟩ := used q old
        exact ⟨b, List.mem_append_left _ (bindings ▸ mem), same⟩
      · exact ⟨_, List.mem_append_right _ (List.mem_singleton_self _), rfl⟩
    · rw [extensions]
      exact fun _ h => h

theorem addEvent_lists (registry : Registry) {name event value : String}
    (sort : attributeSort name = .event event) :
    Gives (addEvent path event value) d fun wiring d' =>
      Lists registry path [([], .attribute name value)] d d' ∧ Wires (name, value) wiring := by
  unfold addEvent
  refine gives_bind (gives_lift fun call read => gives_bind (gives_modify ?_))
  obtain ⟨handler, args⟩ := call
  have wires : Wires (name, value) ⟨event, handler⟩ := ⟨sort, ⟨handler, args⟩, read, rfl⟩
  have listed : Lists registry path [] d { d with
      events := d.events.insert event
      handlers := d.handlers.insert handler } := .of_eq rfl rfl rfl fun _ h => h
  cases args with
  | none =>
    have free : Part.isBound (.attribute name value) = false := by
      simp [Part.isBound, sort, read, HandlerCall.arguments, Except.toOption]
    exact gives_pure ⟨listed.append (.refl (by simp [free])), wires⟩
  | some pair =>
    obtain ⟨source, args⟩ := pair
    have bound : Part.isBound (.attribute name value) = true := by
      simp [Part.isBound, sort, read, HandlerCall.arguments, Except.toOption, args_ne_nil read]
    have makes : Part.Makes registry (.attribute name value) (.setEventData event args) source :=
      .event sort read
    refine gives_bind ((bind_lists bound makes).imp fun _ d' binds => ?_)
    exact gives_pure ⟨listed.append binds, wires⟩

theorem addDirective_lists {name key value : String} (named : directiveName? name = some key)
    (left : isStructural registry name = false) :
    Gives (addDirective registry path key value) d fun _ d' =>
      Lists registry path [([], .attribute name value)] d d' := by
  have sort : attributeSort name = .directive key := by simp [attributeSort, named]
  unfold addDirective
  split
  · exact gives_throw
  · case h_2 found => simp [isStructural, named, found] at left
  · case h_3 directive found =>
    refine gives_bind (gives_lift fun e read => bind_lists ?_ (.directive sort found read))
    simp [Part.isBound, sort]

/-- What sorting the attributes of an element leads to, after those that were sorted before. -/
structure Sorts (registry : Registry) (path : Path) (attrs fixed : List (String × String))
    (handlers : List Wiring) (d : Draft) (result : List (String × String) × List Wiring)
    (d' : Draft) : Prop where
  lists : Lists registry path (attrs.map fun attr => ([], .attribute attr.1 attr.2)) d d'
  fixed : result.1 = fixed ++ attrs.filter isFixed
  wired : ∃ news, result.2 = handlers ++ news ∧
    List.Forall₂ Wires (attrs.filter isEventAttribute) news

theorem Sorts.cons {attr : String × String} {rest fixed fixed' : List (String × String)}
    {handlers handlers' news : List Wiring} {d d₁ d₂ : Draft}
    {result : List (String × String) × List Wiring}
    (lists : Lists registry path [([], .attribute attr.1 attr.2)] d d₁)
    (kept : fixed' = fixed ++ [attr].filter isFixed) (added : handlers' = handlers ++ news)
    (wires : List.Forall₂ Wires ([attr].filter isEventAttribute) news)
    (sorts : Sorts registry path rest fixed' handlers' d₁ result d₂) :
    Sorts registry path (attr :: rest) fixed handlers d result d₂ := by
  obtain ⟨more, added', wired⟩ := sorts.wired
  rw [← List.singleton_append]
  refine ⟨?_, ?_, news ++ more, ?_, ?_⟩
  · rw [List.map_append]
    exact lists.append sorts.lists
  · rw [sorts.fixed, kept, List.append_assoc, List.filter_append]
  · rw [added', added, List.append_assoc]
  · rw [List.filter_append]
    exact List.rel_append wires wired

theorem attributes_lists : ∀ (attrs fixed : List (String × String)) (handlers : List Wiring)
    {d : Draft}, attrs.any (isStructural registry ·.1) = false →
      Gives (attributes registry path attrs fixed handlers) d
        (Sorts registry path attrs fixed handlers d)
  | [], fixed, handlers, d, _ =>
    gives_pure ⟨.refl rfl, by simp, [], by simp, .nil⟩
  | (name, value) :: rest, fixed, handlers, d, left => by
    obtain ⟨left, others⟩ : isStructural registry name = false ∧
        rest.any (isStructural registry ·.1) = false := by
      simpa only [List.any_cons, Bool.or_eq_false_iff] using left
    unfold attributes
    split
    · case h_1 key named =>
      have sort : attributeSort name = .directive key := by simp [attributeSort, named]
      refine gives_bind ((addDirective_lists named left).imp fun _ d₁ lists => ?_)
      exact (attributes_lists rest fixed handlers others).imp fun _ _ =>
        .cons lists (by simp [isFixed, sort]) (List.append_nil _).symm
          (by simp [isEventAttribute, sort, AttributeSort.isEvent])
    · case h_2 unnamed =>
      split
      · case h_1 event heard =>
        have sort : attributeSort name = .event event := by simp [attributeSort, unnamed, heard]
        refine gives_bind ((addEvent_lists registry sort).imp ?_)
        rintro wiring d₁ ⟨lists, wires⟩
        dsimp only
        split
        · exact gives_bind gives_throw
        · exact (attributes_lists rest fixed _ others).imp fun _ _ =>
            .cons lists (by simp [isFixed, sort]) rfl
              (by simpa [isEventAttribute, sort, AttributeSort.isEvent] using wires)
      · case h_2 unheard =>
        have sort : attributeSort name = .content := by simp [attributeSort, unnamed, unheard]
        have mute : List.Forall₂ Wires ([(name, value)].filter isEventAttribute) [] := by
          simp [isEventAttribute, sort, AttributeSort.isEvent]
        refine gives_bind (gives_lift fun content read => ?_)
        have static := Interpolation.isStatic_of_parse read
        split
        · case isTrue fix =>
          have none : hasSpan value = false := by simpa [fix] using static
          have lists : Lists registry path [([], .attribute name value)] d d :=
            .refl (by simp [Part.isBound, sort, none])
          exact (attributes_lists rest _ handlers others).imp fun _ _ =>
            .cons lists (by simp [isFixed, sort, none]) (List.append_nil _).symm mute
        · case isFalse loose =>
          have span : hasSpan value = true := by simpa [loose] using static
          refine gives_bind ((bind_lists (by simp [Part.isBound, sort, span])
            (.content registry sort read)).imp fun _ d₁ lists => ?_)
          exact (attributes_lists rest fixed handlers others).imp fun _ _ =>
            .cons lists (by simp [isFixed, sort, span]) (List.append_nil _).symm mute

/-! ## The walk over parts -/

/-- What the analysis of nodes leads to: their plans, and the bindings of their parts. -/
structure Listed (registry : Registry) (ms : List Markup) (path : Path)
    (parts : List (List Nat × Part)) (d : Draft) (plans : List Plan) (d' : Draft) : Prop where
  mirrors : List.Forall₂ (Markup.Mirrors registry) (ms.filter (!·.isBlank)) plans
  lists : Lists registry path parts d d'

theorem Listed.single {m : Markup} {parts : List (List Nat × Part)} {plan : Plan} {d d' : Draft}
    (solid : m.isBlank = false) (mirrors : m.Mirrors registry plan)
    (lists : Lists registry path parts d d') : Listed registry [m] path parts d [plan] d' :=
  ⟨by simpa [solid] using mirrors, lists⟩

theorem text_lists (content : String) :
    Gives (text path content) d fun plan? d' =>
      Listed registry [.text content] path [([], .text content)] d plan?.toList d' := by
  unfold text
  split
  · case isTrue blank =>
    have free : Part.isBound (.text content) = false := by simp [Part.isBound, blank]
    exact gives_pure ⟨by simp [Markup.isBlank, blank], .refl (by simp [free])⟩
  · case isFalse solid =>
    have solid : Text.isBlankText content = false := Bool.eq_false_iff.mpr solid
    refine gives_bind (gives_lift fun parsed read => ?_)
    have static := Interpolation.isStatic_of_parse read
    split
    · case isTrue fix =>
      have none : hasSpan content = false := by simpa [fix] using static
      exact gives_pure (.single solid (.fixedText none) (.refl (by simp [Part.isBound, none])))
    · case isFalse loose =>
      have span : hasSpan content = true := by simpa [loose] using static
      have bound : Part.isBound (.text content) = true := by simp [Part.isBound, solid, span]
      have makes : Part.Makes registry (.text content) (.setText parsed) content := .text read
      refine gives_bind ((bind_lists bound makes).imp fun _ d₁ lists => ?_)
      exact gives_bind (anchorSlot?_gives (gives_pure (.single solid (.boundText span _) lists)))

theorem plainElement_lists {tag : String} {attrs : List (String × String)} {kids : List Markup}
    {children : Analysis (List Plan)} (left : isExtension registry tag attrs = false)
    (below : ∀ {d₁}, Gives children d₁
      (Listed registry kids path (Markup.partsFrom registry kids 0) d₁)) :
    Gives (plainElement registry tag attrs children path) d fun plan d' =>
      (Markup.element tag attrs kids).Mirrors registry plan ∧
        Lists registry path ((Markup.element tag attrs kids).parts registry) d d' := by
  have plain : attrs.any (isStructural registry ·.1) = false := (Bool.or_eq_false_iff.mp left).1
  unfold plainElement
  refine gives_bind ((attributes_lists attrs [] [] plain).imp ?_)
  rintro ⟨fixed, handlers⟩ d₁ sorts
  obtain ⟨news, rfl, wired⟩ := sorts.wired
  obtain rfl := sorts.fixed
  refine gives_bind (anchorSlot?_gives (gives_bind (below.imp fun plans d₂ listed => ?_)))
  refine gives_pure ⟨.element left wired listed.mirrors _, ?_⟩
  rw [Markup.parts, left]
  exact sorts.lists.append listed.lists

theorem structural?_isSome (registry : Registry) (attrs : List (String × String)) :
    (structural? registry attrs).isSome = attrs.any (isStructural registry ·.1) := by
  induction attrs with
  | nil => rfl
  | cons attr rest ih =>
    rw [structural?, List.any_cons]
    split
    · case h_1 found => simp [isStructural, found]
    · case h_2 other =>
      have left : isStructural registry attr.1 = false := by
        unfold isStructural
        split
        · case h_1 directive found => exact (other directive found).elim
        · rfl
      rw [ih, left, Bool.false_or]

/-- A condition mounts a template whose numbers are all used. -/
theorem conditional_used {tag : String} {attrs : List (String × String)} {kids : List Markup}
    {children : Analysis (List Plan)} (source : String)
    (below : ∀ {d₁}, Gives children d₁
      (Listed registry kids .root (Markup.partsFrom registry kids 0) d₁)) :
    Gives (conditional registry tag attrs children source) d fun subtree d' =>
      (registry.Proper False Template.Used → subtree.Each Template.Used) ∧
        ∃ id, d' = { d with nextId := id } := by
  unfold conditional
  refine gives_bind (gives_lift fun condition _ => ?_)
  split
  · refine gives_bind (gives_lift fun body found => gives_pure ⟨fun proper => ?_, d.nextId, rfl⟩)
    obtain ⟨t, rfl, each⟩ := component_each proper found
    exact each
  · case isFalse named =>
    split
    · exact gives_throw
    · case h_2 none =>
      have left : isExtension registry tag attrs = false := by
        simp [isExtension, ← structural?_isSome, none, named]
      refine gives_bind ((isolated_gives fun id => ?_).imp fun t d' made => gives_pure made)
      refine (plainElement_lists left below).imp ?_
      rintro plan inner ⟨_, lists⟩ proper
      exact ⟨lists.used fun _ mem => (List.not_mem_nil mem).elim, lists.extensions proper trivial⟩

/-- An element is left to be analysed, or an extension takes its place, except at the root. -/
def Claimed (registry : Registry) (tag : String) (attrs : List (String × String)) (path : Path)
    (d : Draft) : Option Plan → Draft → Prop
  | none, d' => isExtension registry tag attrs = false ∧ d' = d
  | some plan, d' => isExtension registry tag attrs = true ∧ path.isRoot = false ∧
      (∃ index, plan = .placeholder index) ∧ Lists registry path [] d d'

theorem mount_lists {name : String} {subtree : Subtree} {id : TemplateId}
    (each : registry.Proper False Template.Used → subtree.Each Template.Used) :
    Gives (mount path name subtree) { d with nextId := id } fun plan d' =>
      (∃ index, plan = .placeholder index) ∧ Lists registry path [] d d' := by
  unfold mount
  refine gives_bind (gives_get (gives_bind (gives_modify (gives_pure ⟨⟨_, rfl⟩, ?_⟩))))
  refine .of_eq rfl rfl rfl fun proper others => Extension.allEach_append others ?_
  rw [Extension.AllEach]
  exact ⟨each proper, trivial⟩

theorem extension?_lists (tag : String) (attrs : List (String × String)) {kids : List Markup}
    {children : Analysis (List Plan)}
    (below : ∀ {d₁}, Gives children d₁
      (Listed registry kids .root (Markup.partsFrom registry kids 0) d₁)) :
    Gives (extension? registry tag attrs children path) d
      (Claimed registry tag attrs path d) := by
  have mounted {name : String} {subtree : Subtree} {id : TemplateId}
      (taken : isExtension registry tag attrs = true) (inner : path.isRoot = false)
      (each : registry.Proper False Template.Used → subtree.Each Template.Used) :
      Gives (mount path name subtree) { d with nextId := id } fun plan d' =>
        Gives (pure (some plan)) d' (Claimed registry tag attrs path d) :=
    (mount_lists each).imp fun plan d' made => gives_pure ⟨taken, inner, made⟩
  have structural := structural?_isSome registry attrs
  unfold extension?
  split
  · case h_1 name value directive found =>
    have taken : isExtension registry tag attrs = true := by
      simp [isExtension, ← structural, found]
    dsimp only
    split
    · exact gives_bind gives_throw
    · case isFalse inner =>
      have inner : path.isRoot = false := Bool.eq_false_iff.mpr inner
      cases directive with
      | template t =>
        obtain ⟨key, registered⟩ := structural?_registered found
        exact gives_bind (gives_pure (gives_bind
          (mounted taken inner fun proper => proper.structural key t registered)))
      | conditional =>
        refine gives_bind ((conditional_used value below).imp ?_)
        rintro subtree d₁ ⟨each, id, rfl⟩
        exact gives_bind (mounted taken inner each)
  · case h_2 none =>
    split
    · case isTrue named =>
      dsimp only
      split
      · exact gives_bind gives_throw
      · case isFalse inner =>
        refine gives_bind (gives_lift fun subtree found => gives_bind
          (mounted (by simp [isExtension, named]) (Bool.eq_false_iff.mpr inner) fun proper => ?_))
        obtain ⟨t, rfl, each⟩ := component_each proper found
        exact each
    · case isFalse named =>
      exact gives_pure ⟨by simp [isExtension, ← structural, none, named], rfl⟩

mutual

theorem node_lists : ∀ (m : Markup) (path : Path) {d : Draft},
    Gives (node registry m path) d fun plan? d' =>
      Listed registry [m] path (m.parts registry) d plan?.toList d'
  | .comment content, path, d => gives_pure (.single rfl (.comment content) (.refl rfl))
  | .text content, path, d => text_lists content
  | .element tag attrs children, path, d => by
    unfold node
    refine gives_bind ((extension?_lists tag attrs (nodes_lists children .root 0)).imp ?_)
    rintro (_ | plan) d₁ claimed
    · obtain ⟨left, rfl⟩ := claimed
      refine gives_bind ((plainElement_lists left (nodes_lists children path 0)).imp ?_)
      rintro plan d₂ ⟨mirrors, lists⟩
      exact gives_pure (.single rfl mirrors lists)
    · obtain ⟨taken, _, ⟨index, rfl⟩, lists⟩ := claimed
      refine gives_pure (.single rfl (.extension taken index) ?_)
      rw [Markup.parts, if_pos taken]
      exact lists

theorem nodes_lists : ∀ (kids : List Markup) (path : Path) (index : Nat) {d : Draft},
    Gives (nodes registry kids path index) d
      (Listed registry kids path (Markup.partsFrom registry kids index) d)
  | [], path, index, d => gives_pure ⟨.nil, .refl rfl⟩
  | kid :: rest, path, index, d => by
    unfold nodes
    refine gives_bind ((node_lists kid (path.child index)).imp fun plan? d₁ first => ?_)
    refine gives_bind ((nodes_lists rest path (index + 1)).imp fun plans d₂ others => ?_)
    refine gives_pure ⟨?_, ?_⟩
    · rw [← List.singleton_append, List.filter_append]
      exact List.rel_append first.mirrors others.mirrors
    · rw [Markup.partsFrom]
      exact first.lists.child.append others.lists

end

/-- No extension takes the root over. -/
theorem root_left (tag : String) (attrs : List (String × String)) (children : List Markup) :
    Gives (node registry (.element tag attrs children) .root) d fun _ _ =>
      isExtension registry tag attrs = false := by
  unfold node
  refine gives_bind ((extension?_lists tag attrs (nodes_lists children .root 0)).imp ?_)
  rintro (_ | plan) d₁ claimed
  · intro _ _ _
    exact claimed.1
  · cases claimed.2.1

end Analysis

/-! ## Compiled markup -/

/-- The binding comes from this part: its path leads to the node that has the part. -/
structure Binding.Comes (registry : Registry) (m : Markup) (p : List Nat × Part) (b : Binding) :
    Prop where
  position : b.path.indexes.map UInt32.toNat = p.1
  node : ∃ node, m.at? p.1 = some node ∧ p.2 ∈ node.own
  makes : p.2.Makes registry b.action b.source

theorem Markup.boundParts_sorted (registry : Registry) (m : Markup) :
    ((m.boundParts registry).map Prod.fst).Pairwise (· ≤ ·) :=
  (parts_sorted m).sublist ((List.filter_sublist).map Prod.fst)

/-- The bindings stand in the order of their positions. -/
theorem Binding.Comes.sorted {registry : Registry} {m : Markup} {ps : List (List Nat × Part)}
    {bindings : List Binding} (comes : List.Forall₂ (Binding.Comes registry m) ps bindings) :
    bindings.map (fun b => b.path.indexes.map UInt32.toNat) = ps.map Prod.fst := by
  induction comes with
  | nil => rfl
  | cons first _ ih => rw [List.map_cons, List.map_cons, first.position, ih]

/-- In narrow markup the path of a binding leads to the node of its part. -/
theorem Binding.Lists.comes {registry : Registry} {m : Markup} (narrow : m.Narrow)
    {bindings : List Binding}
    (lists : List.Forall₂ (Binding.Lists registry .root) (m.boundParts registry) bindings) :
    List.Forall₂ (Binding.Comes registry m) (m.boundParts registry) bindings := by
  have found : ∀ p ∈ m.boundParts registry, ∃ node, m.at? p.1 = some node ∧ p.2 ∈ node.own :=
    fun p mem => Markup.at?_of_mem_parts (List.mem_of_mem_filter mem)
  refine ((List.forall₂_and_left _ _).mpr ⟨found, lists⟩).imp ?_
  rintro p b ⟨⟨node, at', own⟩, path, makes⟩
  exact ⟨by rw [path, narrow.indexes_below at'], ⟨node, at', own⟩, makes⟩

theorem Markup.Mirrors.hole?_eq_none {registry : Registry} {tag : String}
    {attrs : List (String × String)} {children : List Markup} {plan : Plan}
    (mirrors : (Markup.element tag attrs children).Mirrors registry plan)
    (left : isExtension registry tag attrs = false) : plan.hole? = none := by
  cases mirrors with
  | extension taken index =>
    rw [left] at taken
    cases taken
  | element => rfl

namespace Template

variable {registry : Registry} {id next : TemplateId} {m : Markup} {t : Template}

/-- Compiling loses nothing and adds nothing: each part that follows the scope comes to one
binding, in document order, and all else goes into the plan as it is. -/
theorem compile_accounts (element : m.tag?.isSome = true) (narrow : m.Narrow)
    (run : compile registry id m = .ok (t, next)) :
    m.Mirrors registry t.plan ∧ t.plan.hole? = none ∧
      List.Forall₂ (Binding.Comes registry m) (m.boundParts registry) t.bindings ∧
      (t.bindings.map fun b => b.path.indexes.map UInt32.toNat).Pairwise (· ≤ ·) := by
  cases m with
  | text content => cases element
  | comment content => cases element
  | element tag attrs children =>
    obtain ⟨plan?, d, walk, rfl⟩ := compile_walk run
    have left := Analysis.root_left tag attrs children _ _ walk
    obtain ⟨mirrors, lists⟩ := Analysis.node_lists _ _ _ _ walk
    obtain ⟨news, added, listed⟩ := lists.bindings
    have comes : List.Forall₂ (Binding.Comes registry _) _ d.bindings :=
      Binding.Lists.comes narrow (added ▸ listed)
    cases plan? with
    | none => cases mirrors
    | some plan =>
      have mirrors := (List.forall₂_cons.mp mirrors).1
      refine ⟨mirrors, mirrors.hole?_eq_none left, comes, ?_⟩
      exact Binding.Comes.sorted comes ▸ Markup.boundParts_sorted registry _

end Template

namespace Sample

/-- The standard directives, and a component. -/
def catalogRegistry : Registry :=
  Registry.standard.registerComponent "x-star" ⟨0, .text "*" none, [], [], [], [], []⟩

/-- Every kind of part, with blank text, a component and a conditional element between them. -/
def catalog : Markup :=
  .element "ul" [("title", "all"), ("onclick", "${pick(kind, 1)}"), ("class", "list ${kind}")]
    [.text " ",
      .element "x-star" [("of", "${kind}")] [.text "${kind}"],
      .element "li" [("v-show", "open"), ("onfocus", "look"), ("id", "${kind}-1")]
        [.text "${name}", .comment "${name}"],
      .element "li" [("v-if", "open")] [.text "${name}"],
      .text "of ${size}"]

theorem catalog_narrow : catalog.Narrow := by
  refine .element (by decide) fun kid mem => ?_
  simp only [List.mem_cons, List.not_mem_nil, or_false] at mem
  rcases mem with rfl | rfl | rfl | rfl | rfl
  · exact .text _
  · refine .element (by decide) fun kid mem => ?_
    rw [List.mem_singleton.mp mem]
    exact .text _
  · refine .element (by decide) fun kid mem => ?_
    simp only [List.mem_cons, List.not_mem_nil, or_false] at mem
    rcases mem with rfl | rfl
    · exact .text _
    · exact .comment _
  · refine .element (by decide) fun kid mem => ?_
    rw [List.mem_singleton.mp mem]
    exact .text _
  · exact .text _

/-- The bindings that the catalog comes to, by node and kind. -/
def catalogBindings : List (String × String) :=
  [("/", "event-args"), ("/", "class"), ("/2", "directive"), ("/2", "attribute"), ("/2/0", "text"),
    ("/4", "text")]

def bindsCatalog : Bool :=
  match Template.compile catalogRegistry 1 catalog with
  | .error _ => false
  | .ok (t, _) => t.bindings.map (fun b => (b.path.text, b.action.kind)) = catalogBindings

end Sample

theorem Template.compile_accounts_catalog : ∃ t next,
    Template.compile Sample.catalogRegistry 1 Sample.catalog = .ok (t, next) ∧
      t.bindings.map (fun b => (b.path.text, b.action.kind)) = Sample.catalogBindings ∧
      Sample.catalog.Mirrors Sample.catalogRegistry t.plan ∧
      List.Forall₂ (Binding.Comes Sample.catalogRegistry Sample.catalog)
        (Sample.catalog.boundParts Sample.catalogRegistry) t.bindings := by
  have told : Sample.bindsCatalog = true := by decide +kernel
  unfold Sample.bindsCatalog at told
  split at told
  · cases told
  case h_2 t next compiled =>
  obtain ⟨mirrors, _, comes, _⟩ :=
    Template.compile_accounts (by rfl) Sample.catalog_narrow compiled
  exact ⟨t, next, compiled, of_decide_eq_true told, mirrors, comes⟩

end LiveTemplate
