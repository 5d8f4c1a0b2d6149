import LiveTemplate.Proofs.Leftovers
import LiveTemplate.Proofs.Walks

/-!
# LiveTemplate.Proofs.Flips

Where an update changes the tree. It does so at the conditions that come to something else than
what their sites show, and nowhere else: what is shown there is built from new nodes, put in the
place of what stood there, and that is freed. Every other node stays where it is.

  * `Document.Turns`                     an update as a sequence of writes and flips
  * `Turns.entries`, `Turns.steady`      what such a sequence does
  * `flipAccount_follows`                an update is one
  * `Template.Lives.turns_at_flips`      the main result
-/

namespace LiveTemplate

variable {κ : Type}

namespace Flip

open Document

/-- The node that stands where `x` stood before some flips. -/
def moved (flips : List Flip) (x : NodeId) : NodeId :=
  flips.foldl (fun x f => relabel f.old f.new x) x

theorem moved_append (flips flips' : List Flip) (x : NodeId) :
    moved (flips ++ flips') x = moved flips' (moved flips x) :=
  List.foldl_append

/-- What did not stand at a site that flipped stays. -/
theorem moved_of_ne {flips : List Flip} {x : NodeId} (h : ∀ f ∈ flips, x ≠ f.old) :
    moved flips x = x := by
  induction flips with
  | nil => rfl
  | cons f rest ih =>
    have here : relabel f.old f.new x = x := relabel_of_ne (h f List.mem_cons_self)
    rw [moved, List.foldl_cons, here]
    exact ih fun g mem => h g (List.mem_cons_of_mem f mem)

/-- The entries of a flip that change the tree or its handlers: those of building what is shown,
which name new nodes only, and those of the swap. -/
def Enters (f : Flip) (entries : List Mutation) : Prop :=
  ∃ built : List Mutation, f.built.journal = f.before.journal.map (· ++ built.toArray) ∧
    (∀ m ∈ built, ∀ x ∈ m.nodes, f.before.get? x = none) ∧
    entries = built.filter Mutation.reshapes ++ [.replaceNode f.old f.new, .release f.old]

end Flip

namespace Document

/-- An update of a document as a sequence of writes and of flips, with the entries that they make.
Some nodes are never named. -/
inductive Turns (out : Set NodeId) : Document → List Flip → List Mutation → Document → Prop
  | refl {doc : Document} (guards : doc.Guards out) : Turns out doc [] [] doc
  | write {a b : Document} {log : List Mutation} (touches : a.Touches out log b) :
      Turns out a [] log b
  | flip {f : Flip} {log : List Mutation} (outside : f.old ∉ out)
      (built : f.before.Logs {x | f.before.get? x ≠ none} log f.built)
      (swapped : f.built.Logs out [.replaceNode f.old f.new, .release f.old]
        (swapNodes f.old f.new f.built))
      (keeps : f.before.Keeps True {x | f.before.Below f.old x} (relabel f.old f.new)
        (swapNodes f.old f.new f.built)) :
      Turns out f.before [f] (log ++ [.replaceNode f.old f.new, .release f.old])
        (swapNodes f.old f.new f.built)
  | trans {a b c : Document} {flips flips' : List Flip} {log log' : List Mutation}
      (first : Turns out a flips log b) (second : Turns out b flips' log' c) :
      Turns out a (flips ++ flips') (log ++ log') c

namespace Turns

variable {out : Set NodeId} {a b : Document} {flips : List Flip} {log : List Mutation}

theorem logs (turns : Turns out a flips log b) (guards : a.Guards out) : a.Logs out log b := by
  induction turns with
  | refl guards => exact .refl guards
  | write touches => exact touches.logs
  | flip _ built swapped _ => exact (built.mono fun x mem => guards.live x mem).trans swapped
  | trans _ _ ih ih' =>
    have first := ih guards
    exact first.trans (ih' first.guards)

/-- The entries that change the tree are those of the flips. -/
theorem entries (turns : Turns out a flips log b) : ∃ groups : List (List Mutation),
    List.Forall₂ Flip.Enters flips groups ∧ log.filter Mutation.reshapes = groups.flatten := by
  induction turns with
  | refl _ => exact ⟨[], .nil, rfl⟩
  | write touches =>
    refine ⟨[], .nil, List.filter_eq_nil_iff.mpr fun m mem => ?_⟩
    rw [touches.writes m mem]
    exact Bool.false_ne_true
  | @flip f log _ built _ _ =>
    refine ⟨[_], .cons ⟨log, built.journal, fun m mem x named => ?_, rfl⟩ .nil, ?_⟩
    · exact not_not.mp (built.names m mem x named)
    · rw [List.filter_append, List.flatten_singleton]
      rfl
  | trans _ _ ih ih' =>
    obtain ⟨groups, enters, same⟩ := ih
    obtain ⟨groups', enters', same'⟩ := ih'
    refine ⟨groups ++ groups', List.rel_append enters enters', ?_⟩
    rw [List.filter_append, List.flatten_append, same, same']

/-- Without a flip, all nodes keep their shape. -/
theorem shape (turns : Turns out a flips log b) (none : flips = []) (x : NodeId) :
    (b.get? x).map Node.shape = (a.get? x).map Node.shape := by
  induction turns with
  | refl _ => rfl
  | write touches => exact touches.shape x
  | flip _ _ _ _ => cases none
  | trans _ _ ih ih' =>
    obtain ⟨first, second⟩ := List.append_eq_nil_iff.mp none
    exact (ih' second).trans (ih first)

end Turns

/-- Nodes that stay where they are while others are replaced. -/
structure Steady (flips : List Flip) (a b : Document) : Prop where
  nodes : ∀ x n, a.get? x = some n → (∀ f ∈ flips, ¬a.Below f.old x) →
    ∃ n', b.get? x = some n' ∧ n'.parent = n.parent ∧
      n'.children = n.children.map (Flip.moved flips) ∧ n'.handlers = n.handlers ∧
      n'.anchors = n.anchors
  below : ∀ x n, a.get? x = some n → (∀ f ∈ flips, ¬a.Below f.old x) →
    ∀ y, b.Below y x → a.Below y x

theorem Steady.trans {flips flips' : List Flip} {a b c : Document} (h : Steady flips a b)
    (k : Steady flips' b c) : Steady (flips ++ flips') a c := by
  have split {x : NodeId} {n : Node} (found : a.get? x = some n)
      (apart : ∀ f ∈ flips ++ flips', ¬a.Below f.old x) :
      (∀ f ∈ flips, ¬a.Below f.old x) ∧ ∀ f ∈ flips', ¬b.Below f.old x := by
    have first := fun f mem => apart f (List.mem_append_left _ mem)
    exact ⟨first, fun f mem below => apart f (List.mem_append_right _ mem)
      (h.below x n found first _ below)⟩
  refine ⟨fun x n found apart => ?_, fun x n found apart y below => ?_⟩
  · obtain ⟨first, second⟩ := split found apart
    obtain ⟨n₁, found₁, parent, children, handlers, anchors⟩ := h.nodes x n found first
    obtain ⟨n₂, found₂, parent', children', handlers', anchors'⟩ := k.nodes x n₁ found₁ second
    refine ⟨n₂, found₂, parent'.trans parent, ?_, handlers'.trans handlers,
      anchors'.trans anchors⟩
    rw [children', children, List.map_map]
    exact List.map_congr_left fun c _ => (Flip.moved_append flips flips' c).symm
  · obtain ⟨first, second⟩ := split found apart
    obtain ⟨n₁, found₁, _⟩ := h.nodes x n found first
    exact h.below x n found first y (k.below x n₁ found₁ second y below)

/-- A node outside of what is replaced is below the same nodes as before. -/
theorem Keeps.below {strict : Prop} {part : Set NodeId} {f : NodeId → NodeId} {a b : Document}
    (keeps : a.Keeps strict part f b) (sound : a.Sound)
    (closed : ∀ x c, x ∈ part → c ∈ a.children x → c ∈ part) {x y : NodeId} {n : Node}
    (found : a.get? x = some n) (out : x ∉ part) (below : b.Below y x) : a.Below y x := by
  induction below generalizing n with
  | refl => exact .refl
  | @tail z x _ step ih =>
    -- The parent of a node that is kept is its parent before.
    obtain ⟨n', found', same, _⟩ := keeps.nodes x n out found
    obtain ⟨top, there, listed⟩ := mem_children.mp step
    obtain ⟨below, live, back⟩ := keeps.sound.links.pointsBack there listed
    rw [found'] at live
    cases live
    rw [same] at back
    obtain ⟨parent, here, once⟩ := sound.links.listed found back
    have step' : x ∈ a.children z :=
      mem_children.mpr ⟨parent, here, List.count_pos_iff.mp (by omega)⟩
    have above : z ∉ part := fun mem => out (closed z x mem step')
    exact (ih here above).tail step'

theorem Touches.steady {out : Set NodeId} {a b : Document} {log : List Mutation}
    (touches : a.Touches out log b) : Steady [] a b := by
  refine ⟨fun x n found _ => ?_, fun x n _ _ y below => ?_⟩
  · obtain ⟨n', found', same⟩ := touches.node found
    obtain ⟨parent, children, handlers, anchors⟩ := Node.eq_of_shape same
    exact ⟨n', found', parent, children.trans (List.map_id' _).symm, handlers, anchors⟩
  · unfold Below at below ⊢
    simp only [touches.children] at below
    exact below

theorem Turns.steady {out : Set NodeId} {a b : Document} {flips : List Flip} {log : List Mutation}
    (turns : Turns out a flips log b) (sound : a.Sound) : Steady flips a b ∧ b.Sound := by
  induction turns with
  | refl guards => exact ⟨(Touches.refl guards).steady, sound⟩
  | write touches => exact ⟨touches.steady, touches.logs.guards.sound⟩
  | @flip f log _ _ _ keeps =>
    have apart {x : NodeId} (h : ∀ g ∈ [f], ¬f.before.Below g.old x) :
        x ∉ {x | f.before.Below f.old x} := h f List.mem_cons_self
    refine ⟨⟨fun x n found out => ?_, fun x n found out y below => ?_⟩, keeps.sound⟩
    · obtain ⟨n', found', parent, follows⟩ := keeps.nodes x n (apart out) found
      exact ⟨n', found', parent, follows.children, follows.handlers, follows.anchors⟩
    · exact keeps.below sound (fun _ _ mem step => Relation.ReflTransGen.tail mem step) found
        (apart out) below
  | trans _ _ ih ih' =>
    obtain ⟨first, sound₁⟩ := ih sound
    obtain ⟨second, sound₂⟩ := ih' sound₁
    exact ⟨first.trans second, sound₂⟩

end Document

/-! ## Instances -/

open Document

/-- Creating makes entries about other nodes, and an update is a sequence of writes and flips. -/
def flipAccount : Account where
  Made out a b := ∃ log, a.Logs out log b
  Altered out a flips b := ∃ log, Turns out a flips log b

theorem flipAccount_follows {host : Host κ} (quiet : host.Quiet) (scope : Scope) :
    flipAccount.Follows .loose host scope where
  guards := by
    rintro out a b ⟨log, logs⟩
    exact logs.guards
  made := by
    rintro out a b c ⟨log, logs⟩ ⟨log', logs'⟩
    exact ⟨log ++ log', logs.trans logs'⟩
  altered := by
    rintro out a b c flips flips' ⟨log, turns⟩ ⟨log', turns'⟩
    exact ⟨log ++ log', turns.trans turns'⟩
  idle guards := ⟨[], .refl guards⟩
  first := by
    rintro out a b flips guards ⟨log, turns⟩
    exact ⟨log, turns.logs guards⟩
  built _ logs _ := ⟨_, logs⟩
  swapped logs := ⟨_, logs⟩
  pass tidy guards outside run := by
    obtain ⟨log, touches⟩ := Template.update_touches quiet (tidy.builtin trivial) guards outside run
    exact ⟨log, .write touches⟩
  flip := by
    rintro out f _ outside ⟨log, logs⟩ swapped keeps _
    exact ⟨_, .flip outside logs swapped keeps⟩

/-- What an update did to a document is accounted for by its flips. -/
structure Document.TurnedAt (flips : List Flip) (a b : Document) : Prop where
  /-- The entries that change the tree or its handlers are those of the flips, one flip after the
  other. -/
  entries : ∃ (log : List Mutation) (groups : List (List Mutation)),
    b.journal = a.journal.map (· ++ log.toArray) ∧ List.Forall₂ Flip.Enters flips groups ∧
      log.filter Mutation.reshapes = groups.flatten
  /-- What is not below a site that flipped stays where it is, and has children in the same places:
  the same ones, except that at a site that flipped another node stands. -/
  nodes : ∀ x n, a.get? x = some n → (∀ f ∈ flips, ¬a.Below f.old x) →
    Flip.moved flips x = x ∧
      ∃ n', b.get? x = some n' ∧ n'.parent = n.parent ∧
        n'.children = n.children.map (Flip.moved flips) ∧ n'.handlers = n.handlers ∧
        n'.anchors = n.anchors
  /-- Without a flip, no node comes or goes, and all keep their parents and children. -/
  still : flips = [] → ∀ x, (b.get? x).map Node.shape = (a.get? x).map Node.shape

theorem Document.Turns.turnedAt {out : Set NodeId} {a b : Document} {flips : List Flip}
    {log : List Mutation} (turns : Turns out a flips log b) (guards : a.Guards out) :
    TurnedAt flips a b := by
  obtain ⟨groups, enters, same⟩ := turns.entries
  refine ⟨⟨log, groups, (turns.logs guards).journal, enters, same⟩, fun x n found apart => ?_,
    turns.shape⟩
  refine ⟨Flip.moved_of_ne ?_, (turns.steady guards.sound).1.nodes x n found apart⟩
  rintro f mem rfl
  exact apart f mem .refl

/-- What is told of updating is told of an instance that is updated without errors. -/
theorem Template.Lives.altered {account : Account} {host : Host κ} {t : Template} {scope : Scope}
    {s s' : Stage κ} {i i' : Instance} (follows : account.Follows .loose host scope)
    (quiet : host.Quiet) (plain : t.Plain) (lives : t.Lives host s i)
    (run : i.update host scope s = (⟨i', none⟩, s')) :
    account.Altered ∅ s.document (t.flips host scope i.toMount s) s'.document := by
  have abides := plain.abides quiet
  obtain ⟨sound, rfl, stands⟩ := lives.stands abides
  have guards : s.document.Guards ∅ := ⟨sound, fun x mem => (Set.notMem_empty x mem).elim⟩
  obtain ⟨live, step, _⟩ := Instance.exists_mount_of_update run
  have walks := Template.walks follows not_false abides.behaves abides.tidy
  exact walks.2 i.toMount _ s ∅ live s' guards stands (Set.disjoint_empty _) step

/-- An update that succeeds changes the tree at the conditions that come to something else than
what is shown, and nowhere else. -/
theorem Template.Lives.turns_at_flips {host : Host κ} {t : Template} {scope : Scope}
    {s s' : Stage κ} {i i' : Instance} (quiet : host.Quiet) (plain : t.Plain)
    (lives : t.Lives host s i) (run : i.update host scope s = (⟨i', none⟩, s')) :
    s.document.TurnedAt (t.flips host scope i.toMount s) s'.document := by
  obtain ⟨sound, _, _⟩ := lives.stands (plain.abides quiet)
  obtain ⟨log, turns⟩ := lives.altered (flipAccount_follows quiet scope) quiet plain run
  exact turns.turnedAt ⟨sound, fun x mem => (Set.notMem_empty x mem).elim⟩

namespace Sample

/-- What is conditional is shown at first, then hidden, and stays so. The first update flips, the
second does not. -/
def flipsOnce : Bool :=
  match Template.compile .standard 0 markup with
  | .error _ => false
  | .ok (t, _) =>
    match t.createInstance echo (scope "a" "x" true) ⟨.new true, 0, ()⟩ with
    | .error _ _ => false
    | .ok i s =>
      match i.update echo (scope "z" "y" false) s with
      | (⟨_, some _⟩, _) => false
      | (⟨i₁, .none⟩, s₁) =>
        match i₁.update echo (scope "b" "y" false) s₁ with
        | (⟨_, some _⟩, _) => false
        | (⟨_, .none⟩, _) =>
          (t.flips echo (scope "z" "y" false) i.toMount s).length == 1 &&
            (t.flips echo (scope "b" "y" false) i₁.toMount s₁).isEmpty

end Sample

theorem Template.Lives.turns_at_one_flip : ∃ t next i s i₁ s₁ i₂ s₂,
    Template.compile .standard 0 Sample.markup = .ok (t, next) ∧
      t.createInstance Sample.echo (Sample.scope "a" "x" true) ⟨.new true, 0, ()⟩ = .ok i s ∧
      i.update Sample.echo (Sample.scope "z" "y" false) s = (⟨i₁, none⟩, s₁) ∧
      i₁.update Sample.echo (Sample.scope "b" "y" false) s₁ = (⟨i₂, none⟩, s₂) ∧
      (∃ f, t.flips Sample.echo (Sample.scope "z" "y" false) i.toMount s = [f] ∧
        s.document.TurnedAt [f] s₁.document) ∧
      s₁.document.TurnedAt [] s₂.document := by
  have told : Sample.flipsOnce = true := by decide +kernel
  unfold Sample.flipsOnce at told
  split at told
  · cases told
  case h_2 t next compiled =>
  split at told
  · cases told
  case h_2 i s made =>
  split at told
  · cases told
  case h_2 i₁ s₁ hidden =>
  split at told
  · cases told
  case h_2 i₂ s₂ again =>
  obtain ⟨one, none⟩ := Bool.and_eq_true_iff.mp told
  obtain ⟨f, flips⟩ := List.length_eq_one_iff.mp (eq_of_beq one)
  have plain := Template.plain_of_standard compiled
  have lives := Template.Lives.made (Document.sound_new true) made
  have first := Template.Lives.turns_at_flips Sample.echo_quiet plain lives hidden
  have second :=
    Template.Lives.turns_at_flips Sample.echo_quiet plain (lives.updated hidden) again
  rw [flips] at first
  rw [List.isEmpty_iff.mp none] at second
  exact ⟨t, next, i, s, i₁, s₁, i₂, s₂, compiled, made, hidden, again, ⟨f, flips, first⟩, second⟩

end LiveTemplate
