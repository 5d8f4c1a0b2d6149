import LiveTemplate.Proofs.Entries

/-!
# LiveTemplate.Proofs.Walks

Creating and updating, step by step. A plan is built from new nodes, a pass writes to the nodes of
an instance, and what was made is put in the place of what stood there. Whatever is told of these
steps, and of several of them together, is told of everything that succeeds.

  * `Subtree.flips`    the conditions that an update changes
  * `Account`          what is told of creating and of updating
  * `Account.Follows`  it is told of the steps
  * `Template.walks`   so it is told of creating and of updating
-/

namespace LiveTemplate

variable {κ : Type}

/-- A condition that came to something else than what its site showed: the node that stood there
and the one that stands there now, and the document before and after the new one was built. -/
structure Flip where
  old : NodeId
  new : NodeId
  before : Document
  built : Document

/-- The node is one of those that were built. -/
def Flip.Issues (f : Flip) (x : NodeId) : Prop :=
  f.before.get? x = none ∧ f.built.get? x ≠ none

mutual

/-- The conditions that an update changes, in the order in which it gets to them. What is shown or
hidden as a whole has no flips of its own. -/
def Subtree.flips (host : Host κ) (scope : Scope) : Subtree → Mount → Stage κ → List Flip
  | .template t, m, s => t.flips host scope m s
  | .conditional condition body, .conditional node mounted, s =>
    match condition.check host scope s, mounted with
    | .error _ _, _ => []
    | .ok true s, some live => body.flips host scope live s
    | .ok true s, none =>
      match body.create host scope s with
      | .error _ _ => []
      | .ok live s' => [⟨node, live.node, s.document, s'.document⟩]
    | .ok false s, some _ => [⟨node, (makeHidden s).1, s.document, (makeHidden s).2.document⟩]
    | .ok false _, none => []
  | .conditional _ _, .template _ _ _, _ => []

def Template.flips (host : Host κ) (scope : Scope) : Template → Mount → Stage κ → List Flip
  | t@⟨_, _, _, _, extensions, _, _⟩, .template root snapshot children, s =>
    match t.update host scope root snapshot s with
    | .error _ _ => []
    | .ok _ s => Extension.flipsOfAll host scope extensions children s
  | _, .conditional _ _, _ => []

def Extension.flipsOfAll (host : Host κ) (scope : Scope) :
    List Extension → List Mount → Stage κ → List Flip
  | ⟨_, _, subtree⟩ :: rest, m :: ms, s =>
    subtree.flips host scope m s ++
      match subtree.update host scope m s with
      | (⟨_, some _⟩, _) => []
      | (⟨_, none⟩, s) => Extension.flipsOfAll host scope rest ms s
  | _, _, _ => []

end

theorem Template.flips_template {host : Host κ} {scope : Scope} (t : Template) (root : NodeId)
    (snapshot : Option Snapshot) (children : List Mount) (s : Stage κ) :
    t.flips host scope (.template root snapshot children) s =
      match t.update host scope root snapshot s with
      | .error _ _ => []
      | .ok _ s => Extension.flipsOfAll host scope t.extensions children s := by
  obtain ⟨id, plan, bindings, anchors, extensions, events, handlers⟩ := t
  rw [Template.flips]

open Document

/-! ## Entries of a swap -/

theorem Document.journal_swapNodes {doc : Document} (sound : doc.Sound) {old new p : NodeId}
    {node : Node} (hne : old ≠ new) (hp : doc.parent? old = some p)
    (hn : doc.get? new = some node) :
    (swapNodes old new doc).journal =
      doc.journal.map (· ++ [Mutation.replaceNode old new, .release old].toArray) := by
  have replaced : (Operation.replaceNode old new).noted? doc = some (.replaceNode old new) := by
    simp only [Operation.noted?]
    rw [if_neg (by simp [hne, contains_iff.mpr ⟨node, hn⟩]), hp]
    rfl
  obtain ⟨self, live, -⟩ := parent?_eq_some.mp hp
  have stays : (doc.replaceNode old new).contains old = true :=
    contains_iff.mpr (Option.ne_none_iff_exists'.mp (live_perform sound
      (show ∀ id, Operation.replaceNode old new ≠ .release id from nofun)
      (by rw [live]; exact Option.some_ne_none self)))
  have freed : (Operation.release old).noted? (doc.replaceNode old new) = some (.release old) :=
    if_pos stays
  have first : (doc.replaceNode old new).journal = _ := journal_of_noted doc
    (show Operation.replaceNode old new ≠ .takeJournal from nofun)
  have second : (swapNodes old new doc).journal = _ := journal_of_noted (doc.replaceNode old new)
    (show Operation.release old ≠ .takeJournal from nofun)
  rw [second, first, replaced, freed]
  cases doc.journal with
  | none => rfl
  | some entries => exact congrArg some Array.append_assoc

section

variable {terms : Terms} {host : Host κ} {held : κ → Heap} {scope : Scope} {heap : Heap}
  {s s₁ : Stage κ} {out : Set NodeId}

/-- The entries of a swap, seen from nodes that are not concerned. -/
theorem Subtree.Created.swap_logs {subtree : Subtree} {m : Mount}
    {part other : Set NodeId} (created : subtree.Created terms host held scope heap s m s₁ part)
    {old p : NodeId} {f : NodeId → NodeId} (mem : old ∈ other)
    (hp : s.document.parent? old = some p)
    (keeps : s.document.Keeps terms.builtin other f (swapNodes old m.node s₁.document))
    (guards : s.document.Guards out) (apart : Disjoint other out) :
    s₁.document.Logs out [.replaceNode old m.node, .release old]
      (swapNodes old m.node s₁.document) := by
  have fresh := created.fresh m.node created.stands.node_mem
  obtain ⟨self, live, _⟩ := parent?_eq_some.mp hp
  have hp₁ := (created.retains.parent (Set.notMem_empty old) live).trans hp
  obtain ⟨top, live₁, _⟩ := created.stands.region m.node created.stands.node_mem
  have other' : old ≠ m.node := by
    rintro rfl
    rw [fresh] at live
    cases live
  have outside : old ∉ out := Set.disjoint_left.mp apart mem
  have outside' : m.node ∉ out := fun inside => guards.live _ inside fresh
  refine ⟨journal_swapNodes created.retains.sound other' hp₁ live₁, ?_, keeps.sound,
    fun x inside => ?_⟩
  · intro entry listed x named
    simp only [List.mem_cons, List.not_mem_nil, or_false] at listed
    rcases listed with rfl | rfl
    · rcases List.mem_cons.mp named with rfl | named
      · exact outside
      · rwa [List.mem_singleton.mp named]
    · rwa [List.mem_singleton.mp named]
  · obtain ⟨n, found⟩ := Option.ne_none_iff_exists'.mp (guards.live x inside)
    exact keeps.live (fun mem => Set.disjoint_left.mp apart mem inside) found

theorem Subtree.hidden_logs (guards : s.document.Guards out) :
    ∃ log, s.document.Logs out log (makeHidden s).2.document := by
  have fresh : (s.document.createComment "v-if").1 ∉ out := fun mem =>
    guards.live _ mem (get?_insert_fst guards.sound (.comment "v-if"))
  refine ⟨_, logs_at guards (.createComment "v-if") fresh nofun nofun fun m noted => ?_⟩
  cases noted
  rfl

end

/-! ## Accounts -/

/-- What is told of creating and of updating, seen from some nodes that are not concerned. -/
structure Account where
  /-- Of the document before and after something was created. -/
  Made : Set NodeId → Document → Document → Prop
  /-- Of the document before and after an update, and of its flips. -/
  Altered : Set NodeId → Document → List Flip → Document → Prop

/-- The account is told of every step, and of steps that follow each other. -/
structure Account.Follows (account : Account) (terms : Terms) (host : Host κ) (scope : Scope) :
    Prop where
  guards : ∀ {out a b}, account.Made out a b → b.Guards out
  made : ∀ {out a b c}, account.Made out a b → account.Made out b c → account.Made out a c
  altered : ∀ {out a b c flips flips'}, account.Altered out a flips b →
    account.Altered out b flips' c → account.Altered out a (flips ++ flips') c
  idle : ∀ {out a}, a.Guards out → account.Altered out a [] a
  /-- The first update of an instance is a part of creating it. -/
  first : ∀ {out a b flips}, a.Guards out → account.Altered out a flips b → account.Made out a b
  /-- New nodes are built. -/
  built : ∀ {out log} {a b : Document}, a.Guards out → a.Logs out log b → a.Retains True b →
    account.Made out a b
  /-- What was made takes the place of another node. -/
  swapped : ∀ {out old new} {a : Document},
    a.Logs out [.replaceNode old new, .release old] (swapNodes old new a) →
      account.Made out a (swapNodes old new a)
  /-- The values of an instance are written. -/
  pass : ∀ {out root previous snapshot} {t : Template} {s s' : Stage κ}, t.Tidy terms.builtin →
    s.document.Guards out →
    (∀ b ∈ t.bindings, ∀ id, b.node? s.document root = some id → id ∉ out) →
    t.update host scope root previous s = .ok snapshot s' →
      account.Altered out s.document [] s'.document
  /-- A condition changes, and its site with it. -/
  flip : ∀ {out} {f : Flip}, f.before.Guards out → f.old ∉ out →
    account.Made {x | f.before.get? x ≠ none} f.before f.built →
    f.built.Logs out [.replaceNode f.old f.new, .release f.old] (swapNodes f.old f.new f.built) →
    f.before.Keeps terms.builtin {x | f.before.Below f.old x} (relabel f.old f.new)
      (swapNodes f.old f.new f.built) →
    (∀ x, (swapNodes f.old f.new f.built).get? x ≠ none →
      ¬f.before.Below f.old x ∧ (f.before.get? x ≠ none ∨ f.Issues x)) →
      account.Altered out f.before [f] (swapNodes f.old f.new f.built)

section

variable (account : Account) (terms : Terms) (host : Host κ) (scope : Scope)

def Subtree.Makes (subtree : Subtree) : Prop :=
  ∀ s out m s', s.document.Guards out → subtree.create host scope s = .ok m s' →
    account.Made out s.document s'.document

def Extension.MakesAll (extensions : List Extension) : Prop :=
  ∀ placeholders index holes s out ms s', s.document.Guards out → s.document.Vacant holes →
    holes.length = extensions.length →
    (∀ i h, holes[i]? = some h → placeholders.lookup (index + i) = some h) →
    (∀ h ∈ holes, h ∉ out) →
    Extension.createAll host scope placeholders index extensions s = .ok ms s' →
      account.Made out s.document s'.document

def Subtree.Alters (subtree : Subtree) : Prop :=
  ∀ m part s out m' s', s.document.Guards out → subtree.Stands terms s.document m part →
    (∃ p, s.document.parent? m.node = some p ∧ p ∉ part) → Disjoint part out →
    subtree.update host scope m s = (⟨m', none⟩, s') →
      account.Altered out s.document (subtree.flips host scope m s) s'.document

def Template.Alters (t : Template) : Prop :=
  ∀ m part s out m' s', s.document.Guards out → t.Stands terms s.document m part →
    Disjoint part out → t.updateMount host scope m s = (⟨m', none⟩, s') →
      account.Altered out s.document (t.flips host scope m s) s'.document

def Extension.AltersAll (extensions : List Extension) : Prop :=
  ∀ ms part s out ms' s', s.document.Guards out →
    Extension.StandAll terms s.document extensions ms part →
    (∀ x ∈ ms.map Mount.node, ∃ p, s.document.parent? x = some p ∧ p ∉ part) →
    Disjoint part out →
    Extension.updateAll host scope extensions ms s = (⟨ms', none⟩, s') →
      account.Altered out s.document (Extension.flipsOfAll host scope extensions ms s) s'.document

end

section

variable {account : Account} {terms : Terms} {host : Host κ} {held : κ → Heap} {scope : Scope}
  {heap : Heap} {s s₁ : Stage κ} (follows : account.Follows terms host scope)

include follows

theorem Account.Follows.stays {out : Set NodeId} {doc : Document} (guards : doc.Guards out) :
    account.Made out doc doc :=
  follows.first guards (follows.idle guards)

/-! ### Creating -/

theorem Extension.makesAll_nil : Extension.MakesAll account host scope [] := by
  intro placeholders index holes s out ms s' guards _ _ _ _ run
  rw [Extension.createAll] at run
  cases run
  exact follows.stays guards

theorem Extension.makesAll_cons (loose : ¬terms.coherent) {path : Path} {name : String}
    {subtree : Subtree} {extensions : List Extension} (creates : subtree.Creates terms host held scope)
    (first : subtree.Makes account host scope)
    (rest : Extension.MakesAll account host scope extensions) :
    Extension.MakesAll account host scope (⟨path, name, subtree⟩ :: extensions) := by
  intro placeholders index holes s out ms s' guards vacant length look apart run
  obtain ⟨h, hs, rfl⟩ := List.exists_cons_of_length_eq_add_one length
  rw [Extension.createAll] at run
  obtain ⟨m, s₁, made, run⟩ := ok_of_bind run
  have found : placeholders.lookup index = some h := look 0 h rfl
  rw [found] at run
  obtain ⟨_, s₂, swapped, run⟩ := ok_of_bind run
  cases swapped
  obtain ⟨ms', s₃, others, run⟩ := ok_of_bind run
  cases run
  obtain ⟨part, created⟩ :=
    (creates s _ guards.sound (Heap.knows_nothing loose held scope s)).ok made
  obtain ⟨keeps, _, _, vacant'⟩ := created.swapIn vacant
  obtain ⟨p, hp, _⟩ := vacant.below h List.mem_cons_self
  have swap := created.swap_logs (Set.mem_singleton h) hp keeps guards
    (Set.disjoint_singleton_left.mpr (apart h List.mem_cons_self))
  have later := rest placeholders (index + 1) hs _ out ms' s' swap.guards vacant'
    (Nat.succ.inj length) (fun i x hx => by rw [Nat.add_right_comm]; exact look (i + 1) x hx)
    (fun x mem => apart x (List.mem_cons_of_mem _ mem)) others
  exact follows.made (follows.made (first s out m s₁ guards made) (follows.swapped swap)) later

namespace Template

variable {t : Template}

/-- What is mounted in a new instance stands in the place of new nodes. -/
theorem create_made (tidy : t.Tidy terms.builtin)
    (rest : Extension.MakesAll account host scope t.extensions) {out : Set NodeId}
    {r : NodeId × List Mount} (guards : s.document.Guards out)
    (run : t.create host scope s = .ok r s₁) : account.Made out s.document s₁.document := by
  unfold create at run
  obtain ⟨⟨root, site⟩, s₂, raised, run⟩ := ok_of_bind run
  obtain ⟨⟨_, log, logs⟩, rfl⟩ :=
    (Construction.onStage_ends (buildPlan_spares scope t out _ guards)).ok raised
  obtain ⟨⟨place, _, laid⟩, _⟩ :=
    (Construction.onStage_ends (buildPlan_ends scope t guards.sound)).ok raised
  obtain ⟨children, s₃, mounted, run⟩ := ok_of_bind run
  cases run
  have outside : ∀ h ∈ t.holePlaces place, h ∉ out := by
    intro h mem inside
    obtain ⟨index, q, spot, rfl⟩ := mem_holePlaces.mp mem
    exact guards.live _ inside (laid.fresh q _ (Plan.mem_holes.mp spot))
  refine follows.made (follows.built guards logs laid.keeps) (rest site.placeholders 0
    (t.holePlaces place) _ out children s₁ logs.guards (laid.vacant tidy)
    (length_holePlaces tidy place) (fun i h found => ?_) outside mounted)
  rw [Nat.zero_add]
  exact laid.lookup tidy found

/-- A new instance is built from new nodes, and its first pass writes to these. -/
theorem makes (loose : ¬terms.coherent) (tidy : t.Tidy terms.builtin)
    (creates : Extension.CreatesAll terms host held scope t.extensions)
    (rest : Extension.MakesAll account host scope t.extensions)
    (alters : t.Alters account terms host scope) :
    (Subtree.template t).Makes account host scope := by
  intro s out m s' guards run
  rw [Subtree.create, createMount_eq] at run
  obtain ⟨⟨root, children⟩, s₁, raised, run⟩ := ok_of_bind run
  obtain ⟨part, built⟩ :=
    (create_ends tidy creates guards.sound (Heap.knows_nothing loose held scope s)).ok raised
  have fresh : Disjoint part out :=
    Set.disjoint_left.mpr fun x mem inside => guards.live x inside (built.fresh x mem)
  have made := create_made follows tidy rest guards raised
  dsimp only at run
  rcases pass : t.updateMount host scope (.template root none children) s₁ with ⟨⟨live, error⟩, s₂⟩
  rw [pass] at run
  cases error with
  | some e => cases run
  | none =>
    cases run
    have guards₁ := follows.guards made
    exact follows.made made (follows.first guards₁
      (alters _ part s₁ out m s' guards₁ built.stands fresh pass))

end Template

namespace Subtree

variable {condition : Condition} {body : Subtree}

theorem hidden_made {out : Set NodeId} (guards : s.document.Guards out) :
    account.Made out s.document (makeHidden s).2.document := by
  obtain ⟨log, logs⟩ := Subtree.hidden_logs guards
  have adds : s.document.Adds (makeHidden s).2.document (makeHidden s).1
      { content := .comment "v-if" } := adds_insert guards.sound (.comment "v-if") trivial _
  exact follows.built guards logs
    (Template.keeps_of_grows (fun h => h) (fun _ h => h) (fun _ => rfl) adds.grows)

theorem conditional_makes (quiet : host.Quiet) (makes : body.Makes account host scope) :
    (Subtree.conditional condition body).Makes account host scope := by
  intro s out m s' guards run
  rw [Subtree.create] at run
  obtain ⟨b, s₁, checked, run⟩ := ok_of_bind run
  have same := condition.check_leaves quiet scope s
  rw [checked] at same
  have same : s₁.document = s.document := same
  rw [← same] at guards ⊢
  cases b with
  | true =>
    obtain ⟨live, s₂, made, run⟩ := ok_of_bind run
    cases run
    exact makes s₁ out live s' guards made
  | false =>
    cases run
    exact hidden_made follows guards

end Subtree

/-! ### Updating -/

theorem Template.alters (loose : ¬terms.coherent) (behaves : host.Behaves terms held)
    {t : Template} (tidy : t.Tidy terms.builtin)
    (rest : Extension.AltersAll account terms host scope t.extensions) :
    t.Alters account terms host scope := by
  intro m part s out m' s' guards stands apart run
  obtain ⟨root, snapshot, children, place, values, rest', rfl, rooted, rfl, mounted⟩ :=
    Template.stands_iff.mp stands
  rw [updateMount_template] at run
  rw [flips_template]
  cases wrote : t.update host scope root snapshot s with
  | error e s₁ =>
    rw [wrote] at run
    cases run
  | ok next s₁ =>
    rw [wrote] at run
    have outside : ∀ b ∈ t.bindings, ∀ id, b.node? s.document root = some id → id ∉ out := by
      intro b mem id found
      obtain ⟨q, p, _, at', solid, reached⟩ := rooted.own.reach tidy mem
      rw [rooted.root, found] at reached
      exact Set.disjoint_left.mp apart (.inl ⟨q, p, at', solid, Option.some.inj reached⟩)
    have written := follows.pass tidy guards outside wrote
    obtain ⟨_, same, attached⟩ :=
      rooted.mounted_after_pass loose behaves tidy guards.sound mounted wrote
    rcases all : Extension.updateAll host scope t.extensions children s₁ with ⟨⟨ms', error⟩, s₂⟩
    dsimp only at run
    rw [all] at run
    cases run
    exact follows.altered written (rest children rest' s₁ out ms' s₂
      (follows.guards (follows.first guards written)) (mounted.agrees same) attached
      (apart.mono_left Set.subset_union_right) all)

theorem Extension.altersAll_nil : Extension.AltersAll account terms host scope [] := by
  intro ms part s out ms' s' guards mounted _ _ run
  cases mounted.eq_nil
  rw [Extension.updateAll_nil] at run
  cases run
  rw [Extension.flipsOfAll]
  · exact follows.idle guards
  · intros
    contradiction

theorem Extension.altersAll_cons (loose : ¬terms.coherent) {path : Path} {name : String}
    {subtree : Subtree} {extensions : List Extension} (updates : subtree.Updates terms host held scope)
    (one : subtree.Alters account terms host scope)
    (rest : Extension.AltersAll account terms host scope extensions) :
    Extension.AltersAll account terms host scope (⟨path, name, subtree⟩ :: extensions) := by
  intro ms part s out ms' s' guards mounted attached apart run
  obtain ⟨m, ms, here, there, rfl, rfl, disjoint, stands, mounted⟩ := mounted.exists_cons
  obtain ⟨p, parent, above⟩ := attached m.node List.mem_cons_self
  have top : ∃ p, s.document.parent? m.node = some p ∧ p ∉ here :=
    ⟨p, parent, fun mem => above (.inl mem)⟩
  obtain ⟨here', first⟩ := updates m here s (fun _ => False) guards.sound
    (fun coherent => absurd coherent loose) stands top
  rw [Extension.updateAll] at run
  rw [Extension.flipsOfAll]
  rcases step : subtree.update host scope m s with ⟨⟨m', error⟩, s₁⟩
  rw [step] at run first
  cases error with
  | some e => cases run
  | none =>
    have altered := one m here s out m' s₁ guards stands top
      (apart.mono_left Set.subset_union_left) step
    have attached₁ := first.attached disjoint mounted fun x mem =>
      attached x (List.mem_cons_of_mem _ mem)
    rcases others : Extension.updateAll host scope extensions ms s₁ with ⟨⟨ms₂, error⟩, s₂⟩
    dsimp only at run
    rw [others] at run
    cases run
    exact follows.altered altered (rest ms there s₁ out ms₂ s₂
      (follows.guards (follows.first guards altered))
      (mounted.agrees (first.agrees stands disjoint mounted.region)) attached₁
      (apart.mono_left Set.subset_union_right) others)

namespace Subtree

variable {condition : Condition}

/-- What was created takes the place of what stood at a site. -/
theorem Created.altered {subtree : Subtree} {m m' : Mount} {part part' out : Set NodeId}
    (created : subtree.Created terms host held scope heap s m' s₁ part') {p : NodeId}
    (proper : subtree.Each (Template.Tidy terms.builtin))
    (stands : subtree.Stands terms s.document m part)
    (hp : s.document.parent? m.node = some p) (above : p ∉ part) (guards : s.document.Guards out)
    (apart : Disjoint part out)
    (made : account.Made {x | s.document.get? x ≠ none} s.document s₁.document) :
    account.Altered out s.document [⟨m.node, m'.node, s.document, s₁.document⟩]
      (swapNodes m.node m'.node s₁.document) := by
  obtain ⟨keeps, _, only⟩ :=
    created.swapFor stands.region stands.node_mem (stands.below proper) hp above
  have here : part = {x | s.document.Below m.node x} :=
    Set.ext fun x => stands.mem_iff proper
  refine follows.flip (f := ⟨m.node, m'.node, s.document, s₁.document⟩) guards
    (Set.disjoint_left.mp apart stands.node_mem) made
    (created.swap_logs stands.node_mem hp keeps guards apart) (here ▸ keeps) fun x live => ?_
  have outside : x ∉ part ↔ ¬s.document.Below m.node x := (stands.mem_iff proper).not
  rcases only x live with mem | ⟨out, before⟩
  · have fresh := created.fresh x mem
    obtain ⟨node, found, _⟩ := created.stands.region x mem
    refine ⟨outside.mp fun old => ?_, .inr ⟨fresh, by rw [found]; exact Option.some_ne_none node⟩⟩
    obtain ⟨node', found', _⟩ := stands.region x old
    rw [fresh] at found'
    cases found'
  · exact ⟨outside.mp out, .inl before⟩

theorem conditional_alters (loose : ¬terms.coherent) (quiet : host.Quiet) {t : Template}
    (proper : t.Each (Template.Tidy terms.builtin))
    (creates : (Subtree.template t).Creates terms host held scope)
    (makes : (Subtree.template t).Makes account host scope)
    (alters : t.Alters account terms host scope) :
    (Subtree.conditional condition (.template t)).Alters account terms host scope := by
  intro m part s out m' s' guards stands attached apart run
  obtain ⟨p, hp, above⟩ := attached
  have proper' : (Subtree.conditional condition (.template t)).Each
      (Template.Tidy terms.builtin) := by
    rwa [Subtree.Each]
  obtain ⟨node, mounted, rfl⟩ := stands.exists_eq
  unfold Subtree.flips
  unfold Subtree.update at run
  have same := condition.check_leaves quiet scope s
  cases checked : condition.check host scope s with
  | error e s₁ =>
    rw [checked] at run
    cases run
  | ok b s₁ =>
    rw [checked] at run same
    have same : s₁.document = s.document := same
    rw [← same] at guards stands hp ⊢
    dsimp only at run ⊢
    have living : s₁.document.Guards {x | s₁.document.get? x ≠ none} :=
      ⟨guards.sound, fun _ live => live⟩
    cases b with
    | false =>
      cases mounted with
      | none =>
        cases run
        exact follows.idle guards
      | some live =>
        cases run
        have hidden := (hidden_created guards.sound
          (fun coherent => (Heap.knows_nothing loose held scope s₁ coherent).covers)
          (fun coherent => absurd coherent loose) :
          (Subtree.conditional condition (.template t)).Created terms host held scope _ _ _ _ _)
        exact hidden.altered follows proper' stands hp above guards apart
          (hidden_made follows living)
    | true =>
      cases mounted with
      | none =>
        dsimp only at run ⊢
        cases shown : (Subtree.template t).create host scope s₁ with
        | error e s₂ =>
          rw [shown] at run
          cases run
        | ok live s₂ =>
          rw [shown] at run
          cases run
          obtain ⟨part', created⟩ :=
            (creates s₁ _ guards.sound (Heap.knows_nothing loose held scope s₁)).ok shown
          exact (created.shown fun coherent => absurd coherent loose).altered follows proper' stands
            hp above guards apart (makes s₁ _ live s₂ living shown)
      | some live =>
        rw [Subtree.Stands] at stands
        obtain ⟨rfl, stands⟩ := stands
        rw [Subtree.Stands] at stands
        dsimp only at run ⊢
        rw [Subtree.update] at run
        rw [Subtree.flips]
        rcases step : t.updateMount host scope live s₁ with ⟨⟨live', error⟩, s₂⟩
        rw [step] at run
        cases run
        exact alters live part s₁ out live' s₂ guards stands apart step

end Subtree

/-! ### Subtrees -/

mutual

/-- What is told of the steps is told of creating and updating a proper subtree. -/
theorem Subtree.walks (loose : ¬terms.coherent) (behaves : host.Behaves terms held) :
    ∀ {subtree : Subtree},
    subtree.Each (Template.Tidy terms.builtin) →
      subtree.Makes account host scope ∧ subtree.Alters account terms host scope
  | .template t, proper => by
    rw [Subtree.Each] at proper
    obtain ⟨makes, alters⟩ := Template.walks loose behaves proper
    refine ⟨makes, fun m part s out m' s' guards stands _ apart run => ?_⟩
    rw [Subtree.Stands] at stands
    rw [Subtree.update] at run
    rw [Subtree.flips]
    exact alters m part s out m' s' guards stands apart run
  | .conditional condition (.template t), proper => by
    rw [Subtree.Each] at proper
    obtain ⟨makes, alters⟩ := Template.walks loose behaves proper
    exact ⟨Subtree.conditional_makes follows behaves.quiet makes,
      Subtree.conditional_alters follows loose behaves.quiet proper
        (Template.promises behaves proper).1 makes alters⟩
  | .conditional _ (.conditional _ _), proper => by
    rw [Subtree.Each] at proper
    exact proper.elim

theorem Template.walks (loose : ¬terms.coherent) (behaves : host.Behaves terms held) :
    ∀ {t : Template},
    t.Each (Template.Tidy terms.builtin) →
      (Subtree.template t).Makes account host scope ∧ t.Alters account terms host scope
  | ⟨id, plan, bindings, anchors, extensions, events, handlers⟩, proper => by
    rw [Template.Each] at proper
    obtain ⟨makes, alters⟩ := Extension.walks loose behaves proper.2
    have own := Template.alters follows loose behaves proper.1 alters
    exact ⟨Template.makes follows loose proper.1 (Extension.promises behaves proper.2).1 makes own,
      own⟩

theorem Extension.walks (loose : ¬terms.coherent) (behaves : host.Behaves terms held) :
    ∀ {extensions : List Extension},
    Extension.AllEach (Template.Tidy terms.builtin) extensions →
      Extension.MakesAll account host scope extensions ∧
        Extension.AltersAll account terms host scope extensions
  | [], _ => ⟨Extension.makesAll_nil follows, Extension.altersAll_nil follows⟩
  | ⟨path, name, subtree⟩ :: rest, proper => by
    rw [Extension.AllEach] at proper
    obtain ⟨makes, alters⟩ := Subtree.walks loose behaves proper.1
    obtain ⟨makes', alters'⟩ := Extension.walks loose behaves proper.2
    obtain ⟨creates, updates⟩ := Subtree.promises behaves proper.1
    exact ⟨Extension.makesAll_cons follows loose creates makes makes',
      Extension.altersAll_cons follows loose updates alters alters'⟩

end

end
end LiveTemplate
