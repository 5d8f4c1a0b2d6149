import LiveTemplate.Proofs.Leftovers
import LiveTemplate.Proofs.Lockstep
import LiveTemplate.Proofs.RoundTrip
import LiveTemplate.Proofs.Tables

/-!
# LiveTemplate.Proofs.Independence

Two instances on one document. As long as neither is put inside the other, an update of one leaves
the tree of the other alone, although what one frees the other may take. So each of them comes out
as it would by itself.

  * `Document.Untouched`            a tree that is left alone
  * `Template.Course`               an instance, with the scopes that it was given
  * `Template.Course.twins`         the scopes settle what an instance shows
  * `Template.Shared`               two instances, updated in any order
  * `Template.Shared.undisturbed`   the main result
-/

namespace LiveTemplate

variable {κ : Type}

/-! ## Trees apart -/

namespace Document

variable {a b : Document}

/-- Of two nodes above a third one, one is above the other. -/
theorem Sound.comparable (sound : a.Sound) {r r' x : NodeId} (h : a.Below r x) (h' : a.Below r' x) :
    a.Below r r' ∨ a.Below r' r := by
  induction h with
  | refl => exact .inr h'
  | @tail z x above step ih =>
    cases h' with
    | refl => exact .inl (above.tail step)
    | @tail z' _ above' step' =>
      -- Both ways come in through the parent of the node.
      obtain ⟨n, there, listed⟩ := mem_children.mp step
      obtain ⟨n', there', listed'⟩ := mem_children.mp step'
      obtain ⟨self, live, back⟩ := sound.links.pointsBack there listed
      obtain ⟨self', live', back'⟩ := sound.links.pointsBack there' listed'
      rw [live] at live'
      cases live'
      rw [back] at back'
      cases back'
      exact ih above'

/-- Neither node is below the other. -/
def Apart (doc : Document) (r r' : NodeId) : Prop := ¬doc.Below r r' ∧ ¬doc.Below r' r

theorem Apart.symm {r r' : NodeId} (h : a.Apart r r') : a.Apart r' r := ⟨h.2, h.1⟩

theorem Apart.disjoint {r r' : NodeId} (h : a.Apart r r') (sound : a.Sound) :
    Disjoint {x | a.Below r x} {x | a.Below r' x} :=
  Set.disjoint_left.mpr fun _ below below' => (sound.comparable below below').elim h.1 h.2

/-- A tree that is left alone: the same nodes with all that they hold. -/
structure Untouched (root : NodeId) (a b : Document) : Prop where
  nodes : ∀ x, a.Below root x → b.get? x = a.get? x
  below : ∀ x, b.Below root x ↔ a.Below root x
  anchors : b.anchors? root = a.anchors? root

theorem Keeps.get?_eq {part : Set NodeId} (h : a.Spares True part b) {x : NodeId} {node : Node}
    (out : x ∉ part) (found : a.get? x = some node) : b.get? x = some node := by
  obtain ⟨node', found', parent, content, children, handlers, data, anchors⟩ :=
    h.nodes x node out found
  rw [List.map_id] at children
  rw [found']
  obtain ⟨_, _, _, _, _, _⟩ := node
  obtain ⟨_, _, _, _, _, _⟩ := node'
  cases parent
  cases content trivial
  cases children
  cases handlers
  cases data
  cases anchors
  rfl

theorem Agrees.below_iff {strict : Prop} {r x : NodeId}
    (h : a.Agrees strict {x | a.Below r x} b) (region : a.Region {x | a.Below r x}) :
    b.Below r x ↔ a.Below r x :=
  ⟨(h.region region).below .refl, h.below region .refl⟩

/-- What is outside of the nodes that changed is left alone. -/
theorem Keeps.untouched {part : Set NodeId} (h : a.Spares True part b) {root : NodeId}
    (region : a.Region {x | a.Below root x}) (apart : Disjoint {x | a.Below root x} part) :
    a.Untouched root b := by
  have nodes : ∀ x, a.Below root x → b.get? x = a.get? x := by
    intro x below
    obtain ⟨node, found, _⟩ := region x below
    rw [found]
    exact h.get?_eq (Set.disjoint_left.mp apart below) found
  refine ⟨nodes, fun x => (h.agrees region apart fun _ _ => rfl).below_iff region, ?_⟩
  rw [anchors?, anchors?, nodes root .refl]

end Document

/-! ## Markup -/

open Document

theorem Document.exists_showsAll {doc doc' : Document} : ∀ {xs ys : List NodeId},
    xs.length = ys.length → (∀ p ∈ xs.zip ys, ∃ m, doc.Shows p.1 m ∧ doc'.Shows p.2 m) →
      ∃ ms, doc.ShowsAll xs ms ∧ doc'.ShowsAll ys ms
  | [], [], _, _ => ⟨[], by simp only [ShowsAll, and_self]⟩
  | x :: xs, y :: ys, length, each => by
    obtain ⟨m, shown, shown'⟩ := each (x, y) List.mem_cons_self
    obtain ⟨ms, others, others'⟩ := exists_showsAll (Nat.succ.inj length)
      fun p mem => each p (List.mem_cons_of_mem _ mem)
    refine ⟨m :: ms, ?_, ?_⟩
    · rw [ShowsAll]
      exact ⟨shown, others⟩
    · rw [ShowsAll]
      exact ⟨shown', others'⟩
  | [], _ :: _, length, _ => by cases length
  | _ :: _, [], length, _ => by cases length

theorem SameTree.shows {doc doc' : Document} {x y : NodeId} (h : SameTree doc doc' x y) :
    ∃ m, doc.Shows x m ∧ doc'.Shows y m := by
  induction h with
  | @node x y n n' found found' content _ length _ ih =>
    have here : doc.content? x = some n.content := by rw [content?, found]; rfl
    have here' : doc'.content? y = some n.content := by rw [content?, found', content]; rfl
    obtain ⟨ms, all, all'⟩ := exists_showsAll length ih
    cases kind : n.content with
    | text s => exact ⟨.text s, by rw [Shows, here, kind], by rw [Shows, here', kind]⟩
    | comment s => exact ⟨.comment s, by rw [Shows, here, kind], by rw [Shows, here', kind]⟩
    | element tag attributes properties =>
      rw [kind] at here here'
      refine ⟨.element tag attributes ms, ?_, ?_⟩
      · rw [Shows, children, found]
        exact ⟨properties, here, all⟩
      · rw [Shows, children, found']
        exact ⟨properties, here', all'⟩

theorem SameTree.markup_eq {doc doc' : Document} {x y : NodeId} (h : SameTree doc doc' x y) :
    doc.markup x = doc'.markup y := by
  obtain ⟨m, shown, shown'⟩ := h.shows
  rw [Document.markup_eq shown, Document.markup_eq shown']

/-! ## Twin instances -/

section

variable {host : Host κ} {kept heap heap' : Heap} {t u : Template} {scope first first' : Scope}
  {scopes scopes' : List Scope} {s s' r r' : Stage κ} {i i' j j' : Instance}

theorem Template.Plain.sturdy (plain : t.Plain) : t.Each (Template.Sturdy True) :=
  (plain.fine.and (Template.Compiled.used plain)).mono fun _ h => h.1.sturdy h.2

theorem Mount.Twins.ofMount (t : Template) {m m' : Mount} (h : m.Twins m') :
    (Instance.ofMount t m).toMount.Twins (Instance.ofMount t m').toMount := by
  cases h with
  | template x y snapshots children => exact .template x y snapshots children
  | shown x y _ => exact .template x y .none .nil
  | hidden x y => exact .template x y .none .nil

theorem Heap.Knows.common (pure : host.Pure kept) (knows : heap.Knows (fun _ => kept) scope s)
    (knows' : heap'.Knows (fun _ => kept) scope r) :
    ∃ pairs, pure.coupling.holds pairs s r ∧ scope.Common pairs :=
  ⟨_, pure.coupled knows.covers knows'.covers,
    fun name => ((knows.fits name).and (knows'.fits name)).diagonal⟩

namespace Template.Plain

/-- Instances that are made under one scope are twins, whatever is in the documents. -/
theorem createInstance_abreast (plain : t.Plain) (quiet : host.Quiet) (pure : host.Pure kept)
    (sound : s.document.Sound) (sound' : r.document.Sound)
    (coherent : Coherent (fun _ => kept) s scope [])
    (coherent' : Coherent (fun _ => kept) r scope []) :
    Abreast (fun i _ j _ => i.toMount.Twins j.toMount) (t.createInstance host scope s)
      (t.createInstance host scope r) := by
  obtain ⟨heap, knows, _⟩ := coherent
  obtain ⟨heap', knows', _⟩ := coherent'
  obtain ⟨pairs, holds, common⟩ := knows.common pure knows'
  have finds : (Subtree.template t).CreateFinds host scope :=
    (Template.finds (plain.abides quiet).behaves False.elim plain.sturdy).1
  have creates : (Subtree.template t).CreatesTwins pure scope := (Template.lockstep plain.tidy).1
  have here := finds s sound
  have there := finds r sound'
  have made := creates pairs common pairs s r (.refl pairs) holds
  rw [Subtree.create] at here there made
  unfold Template.createInstance
  rcases made.outcomes with ⟨m, s₁, m', r₁, run, run', _, _, _, twins⟩ | ⟨e, s₁, r₁, run, run'⟩ |
    ⟨e, s₁, run, detached⟩ | ⟨e, r₁, run, detached⟩
  · rw [bind_of_ok run, bind_of_ok run']
    exact .ok (twins.ofMount t)
  · rw [bind_of_error run, bind_of_error run']
    exact .error e s₁ r₁
  · rw [here.of_error run] at detached
    cases detached
  · rw [there.of_error run] at detached
    cases detached

/-- Twins that are updated with one scope are twins afterwards. -/
theorem update_twins (plain : t.Plain) (quiet : host.Quiet) (pure : host.Pure kept)
    (lives : t.Lives host s i) (lives' : t.Lives host r j)
    (coherent : Coherent (fun _ => kept) s scope [i])
    (coherent' : Coherent (fun _ => kept) r scope [j]) (twins : i.toMount.Twins j.toMount)
    {error error' : Option EvalError} (run : i.update host scope s = (⟨i', error⟩, s'))
    (run' : j.update host scope r = (⟨j', error'⟩, r')) : i'.toMount.Twins j'.toMount := by
  obtain ⟨heap, knows, _⟩ := coherent
  obtain ⟨heap', knows', _⟩ := coherent'
  obtain ⟨pairs, holds, common⟩ := knows.common pure knows'
  obtain ⟨sound, own, stands⟩ := lives.stands (plain.abides quiet)
  obtain ⟨sound', own', stands'⟩ := lives'.stands (plain.abides quiet)
  have finds : t.UpdateFinds .loose host scope :=
    (Template.finds (plain.abides quiet).behaves False.elim plain.sturdy).2
  have here := finds i.toMount _ s sound stands
  have there := finds j.toMount _ r sound' stands'
  have updates : (Subtree.template t).UpdatesTwins pure scope := (Template.lockstep plain.tidy).2
  have pass := updates pairs i.toMount j.toMount s r common holds twins
  rw [Subtree.update, Subtree.update] at pass
  obtain ⟨live, step, rfl⟩ := Instance.exists_mount_of_update run
  obtain ⟨live', step', rfl⟩ := Instance.exists_mount_of_update run'
  rw [own] at step ⊢
  rw [own'] at step' ⊢
  rw [step] at here pass
  rw [step'] at there pass
  cases pass with
  | done _ _ twins => exact twins.ofMount t
  | stopped _ twins => exact twins.ofMount t
  | left detached =>
    rw [here _ rfl] at detached
    cases detached
  | right detached =>
    rw [there _ rfl] at detached
    cases detached

end Template.Plain

/-! ## One instance -/

/-- An instance, with the scope under which it was made and those of its updates, which may have
stopped at errors. Meanwhile anything may have happened to the rest of the document. -/
inductive Template.Course (host : Host κ) (kept : Heap) (t : Template) (first : Scope) :
    List Scope → Stage κ → Instance → Prop
  | made {s s' : Stage κ} {i : Instance} (sound : s.document.Sound)
      (coherent : Coherent (fun _ => kept) s first [])
      (run : t.createInstance host first s = .ok i s') : Course host kept t first [] s' i
  | updated {scopes : List Scope} {s s' : Stage κ} {scope : Scope} {i i' : Instance}
      {error : Option EvalError} (before : Course host kept t first scopes s i)
      (coherent : Coherent (fun _ => kept) s scope [i])
      (run : i.update host scope s = (⟨i', error⟩, s')) :
      Course host kept t first (scopes ++ [scope]) s' i'
  | meanwhile {scopes : List Scope} {s s' : Stage κ} {i : Instance}
      (before : Course host kept t first scopes s i) (sound : s'.document.Sound)
      (same : s.document.Agrees True {x | s.document.Below i.root x} s'.document) :
      Course host kept t first scopes s' i

namespace Template.Course

theorem lives (course : t.Course host kept first scopes s i) : t.Lives host s i := by
  induction course with
  | made sound _ run => exact .made sound run
  | updated _ _ run ih => exact .updated ih run
  | meanwhile _ sound same ih => exact .meanwhile ih sound same

theorem stands (quiet : host.Quiet) (pure : host.Pure kept) (plain : t.Plain)
    (course : t.Course host kept first scopes s i) :
    t.Stands Terms.full s.document i.toMount {x | s.document.Below i.root x} := by
  have behaves := Host.behaves_of_pure quiet pure
  induction course with
  | made sound coherent run =>
    obtain ⟨heap, knows, _⟩ := coherent
    obtain ⟨_, part, created⟩ := (createInstance_ends behaves plain.tidy sound knows).ok run
    have stands := created.stands
    rw [Subtree.Stands] at stands
    rwa [stands.part_eq plain.tidy] at stands
  | @updated _ s _ _ i _ _ before coherent run ih =>
    obtain ⟨sound, rfl, _⟩ := before.lives.stands (plain.abides quiet)
    obtain ⟨heap, knows, fits⟩ := coherent
    obtain ⟨_, _, _, part, refreshed⟩ := Instance.update_refreshed behaves plain.tidy sound knows
      (fits i List.mem_cons_self) ih run
    have stands := refreshed.stands
    rw [Subtree.Stands] at stands
    rwa [stands.part_eq plain.tidy] at stands
  | meanwhile _ _ same ih =>
    have stands := ih.agrees same.loosen
    rwa [stands.part_eq plain.tidy] at stands

/-- How the instance was made. -/
theorem start (course : t.Course host kept first scopes s i) :
    ∃ s s' i, s.document.Sound ∧ Coherent (fun _ => kept) s first [] ∧
      t.createInstance host first s = .ok i s' := by
  induction course with
  | made sound coherent run => exact ⟨_, _, _, sound, coherent, run⟩
  | updated _ _ _ ih => exact ih
  | meanwhile _ _ _ ih => exact ih

theorem of_nil (course : t.Course host kept first [] s i) :
    ∃ s s', s.document.Sound ∧ Coherent (fun _ => kept) s first [] ∧
      t.createInstance host first s = .ok i s' := by
  generalize same : [] = none at course
  induction course with
  | made sound coherent run => exact ⟨_, _, sound, coherent, run⟩
  | updated _ _ _ _ => cases List.append_ne_nil_of_right_ne_nil _ (List.cons_ne_nil _ _) same.symm
  | meanwhile _ _ _ ih => exact ih same

theorem of_append (course : t.Course host kept first (scopes ++ [scope]) s i) :
    ∃ s s' i₀ error, t.Course host kept first scopes s i₀ ∧
      Coherent (fun _ => kept) s scope [i₀] ∧
      i₀.update host scope s = (⟨i, error⟩, s') := by
  generalize same : scopes ++ [scope] = all at course
  induction course with
  | made _ _ _ => cases List.append_ne_nil_of_right_ne_nil _ (List.cons_ne_nil _ _) same
  | updated before coherent run _ =>
    obtain ⟨rfl, last⟩ := List.append_inj' same rfl
    cases last
    exact ⟨_, _, _, _, before, coherent, run⟩
  | meanwhile _ _ _ ih => exact ih same

/-- Instances that were given the same scopes are twins. -/
theorem twins (quiet : host.Quiet) (pure : host.Pure kept) (plain : t.Plain)
    (course : t.Course host kept first scopes s i)
    (other : t.Course host kept first scopes r j) : i.toMount.Twins j.toMount := by
  induction course generalizing r j with
  | made sound coherent run =>
    obtain ⟨r₀, r₁, sound', coherent', run'⟩ := other.of_nil
    have made := plain.createInstance_abreast quiet pure sound sound' coherent coherent'
    rw [run, run'] at made
    cases made with
    | ok twins => exact twins
  | updated before coherent run ih =>
    obtain ⟨r₀, r₁, j₀, error, before', coherent', run'⟩ := other.of_append
    exact plain.update_twins quiet pure before.lives before'.lives coherent coherent' (ih before')
      run run'
  | meanwhile _ _ _ ih => exact ih other

theorem sameTree (quiet : host.Quiet) (pure : host.Pure kept) (plain : t.Plain)
    (course : t.Course host kept first scopes s i)
    (other : t.Course host kept first scopes r j) :
    SameTree s.document r.document i.root j.root :=
  (course.stands quiet pure plain).sameTree (other.stands quiet pure plain)
    (course.twins quiet pure plain other)

end Template.Course

/-! ## Two instances -/

/-- Two instances on one document, each with the scopes that it was given. One is made while the
other one is there already, and from then on they are updated in any order, with or without errors.
Meanwhile anything may have happened to the rest of the document, and the roots may have been put
elsewhere, but not inside each other. -/
inductive Template.Shared (host : Host κ) (kept : Heap) (t : Template) (first : Scope) (u : Template)
    (first' : Scope) : Stage κ → Instance → List Scope → Instance → List Scope → Prop
  | made {s s' : Stage κ} {i j : Instance} {scopes : List Scope}
      (before : t.Course host kept first scopes s i)
      (coherent : Coherent (fun _ => kept) s first' [])
      (run : u.createInstance host first' s = .ok j s') :
      Shared host kept t first u first' s' i scopes j []
  | left {s s' : Stage κ} {i i' j : Instance} {scopes scopes' : List Scope} {scope : Scope}
      {error : Option EvalError} (before : Shared host kept t first u first' s i scopes j scopes')
      (coherent : Coherent (fun _ => kept) s scope [i])
      (run : i.update host scope s = (⟨i', error⟩, s')) :
      Shared host kept t first u first' s' i' (scopes ++ [scope]) j scopes'
  | right {s s' : Stage κ} {i j j' : Instance} {scopes scopes' : List Scope} {scope : Scope}
      {error : Option EvalError} (before : Shared host kept t first u first' s i scopes j scopes')
      (coherent : Coherent (fun _ => kept) s scope [j])
      (run : j.update host scope s = (⟨j', error⟩, s')) :
      Shared host kept t first u first' s' i scopes j' (scopes' ++ [scope])
  | meanwhile {s s' : Stage κ} {i j : Instance} {scopes scopes' : List Scope}
      (before : Shared host kept t first u first' s i scopes j scopes')
      (sound : s'.document.Sound)
      (same : s.document.Agrees True {x | s.document.Below i.root x} s'.document)
      (same' : s.document.Agrees True {x | s.document.Below j.root x} s'.document)
      (apart : s'.document.Apart i.root j.root) :
      Shared host kept t first u first' s' i scopes j scopes'

namespace Template

/-- What an update does beside an instance that is apart. -/
structure Beside (s : Stage κ) (root other : NodeId) (s' : Stage κ) : Prop where
  sound : s'.document.Sound
  untouched : s.document.Untouched other s'.document
  agrees : s.document.Agrees True {x | s.document.Below other x} s'.document
  apart : s'.document.Apart root other

theorem Lives.beside (quiet : host.Quiet) (plain : t.Plain) (plain' : u.Plain)
    (lives : t.Lives host s i) (lives' : u.Lives host s j)
    (apart : s.document.Apart i.root j.root) {error : Option EvalError}
    (run : i.update host scope s = (⟨i', error⟩, s')) : Beside s i'.root j.root s' := by
  obtain ⟨sound, rfl, stands⟩ := lives.stands (plain.abides quiet)
  have region := (lives'.stands (plain'.abides quiet)).2.2.region
  have passes := (plain.abides quiet).update sound stands run
  have disjoint := (apart.disjoint sound).symm
  have untouched := passes.keeps.untouched region disjoint
  refine ⟨passes.keeps.sound, untouched, passes.keeps.agrees region disjoint fun _ _ => rfl, ?_⟩
  rw [passes.root]
  refine ⟨fun below => ?_, fun below => apart.2 ((untouched.below _).mp below)⟩
  rcases passes.within j.root below with below | dead
  · exact apart.1 below
  · exact lives'.get?_of_below (plain'.abides quiet) .refl dead

/-- Each of the two instances has a course of its own. -/
theorem Shared.courses (quiet : host.Quiet) (plain : t.Plain) (plain' : u.Plain)
    (shared : Shared host kept t first u first' s i scopes j scopes') :
    t.Course host kept first scopes s i ∧ u.Course host kept first' scopes' s j ∧
      s.document.Apart i.root j.root := by
  induction shared with
  | @made s s' i j _ before coherent run =>
    have lives := before.lives
    obtain ⟨sound, _, stands⟩ := lives.stands (plain.abides quiet)
    have starts := ((plain'.abides quiet).create sound first').ok run
    have same := starts.keeps.agrees stands.region (Set.disjoint_empty _) fun _ _ => rfl
    refine ⟨.meanwhile before starts.keeps.sound same, .made sound coherent run, ?_, ?_⟩
    -- The nodes of the new instance are new.
    · intro below
      exact lives.get?_of_below (plain.abides quiet) ((same.below_iff stands.region).mp below)
        (starts.fresh j.root .refl)
    · intro below
      exact lives.get?_of_below (plain.abides quiet) .refl (starts.fresh i.root below)
  | left _ coherent run ih =>
    obtain ⟨course, course', apart⟩ := ih
    have beside := course.lives.beside quiet plain plain' course'.lives apart run
    exact ⟨.updated course coherent run, .meanwhile course' beside.sound beside.agrees,
      beside.apart⟩
  | right _ coherent run ih =>
    obtain ⟨course, course', apart⟩ := ih
    have beside := course'.lives.beside quiet plain' plain course.lives apart.symm run
    exact ⟨.meanwhile course beside.sound beside.agrees, .updated course' coherent run,
      beside.apart.symm⟩
  | meanwhile _ sound same same' apart ih =>
    obtain ⟨course, course', _⟩ := ih
    exact ⟨.meanwhile course sound same, .meanwhile course' sound same', apart⟩

/-- An instance is not disturbed by another one that is on the same document. -/
structure Undisturbed (host : Host κ) (kept : Heap) (t : Template) (first : Scope)
    (scopes : List Scope) (s : Stage κ) (i other : Instance) : Prop where
  /-- No update of the other one touches its tree. -/
  untouched : ∀ scope other' error s', other.update host scope s = (⟨other', error⟩, s') →
    s.document.Untouched i.root s'.document
  /-- By itself it can be made as well, -/
  made : ∀ alone : Stage κ, alone.document.Sound → Coherent (fun _ => kept) alone first [] →
    ∃ i' alone', t.createInstance host first alone = .ok i' alone'
  /-- and if it is given the same scopes by itself, it comes out the same. -/
  same : ∀ alone i', t.Course host kept first scopes alone i' →
    SameTree s.document alone.document i.root i'.root ∧
      s.document.markup i.root = alone.document.markup i'.root

theorem Course.undisturbed_by (quiet : host.Quiet) (pure : host.Pure kept) (plain : t.Plain)
    (plain' : u.Plain) (course : t.Course host kept first scopes s i)
    (course' : u.Course host kept first' scopes' s j) (apart : s.document.Apart i.root j.root) :
    t.Undisturbed host kept first scopes s i j := by
  refine ⟨fun scope j' error s' run => ?_, fun alone sound coherent => ?_, fun alone i' other => ?_⟩
  · exact (course'.lives.beside quiet plain' plain course.lives apart.symm run).untouched
  · obtain ⟨s₀, s₁, i₀, sound₀, coherent₀, run⟩ := course.start
    have made := plain.createInstance_abreast quiet pure sound₀ sound coherent₀ coherent
    rw [run] at made
    cases found : t.createInstance host first alone with
    | ok i' alone' => exact ⟨i', alone', rfl⟩
    | error e alone' =>
      rw [found] at made
      cases made
  · have same := course.sameTree quiet pure plain other
    exact ⟨same, same.markup_eq⟩

/-- Two instances on one document, neither of them inside the other, do not disturb each other in
whatever order they are updated. -/
theorem Shared.undisturbed (quiet : host.Quiet) (pure : host.Pure kept) (plain : t.Plain)
    (plain' : u.Plain) (shared : Shared host kept t first u first' s i scopes j scopes') :
    t.Undisturbed host kept first scopes s i j ∧ u.Undisturbed host kept first' scopes' s j i := by
  obtain ⟨course, course', apart⟩ := shared.courses quiet plain plain'
  exact ⟨course.undisturbed_by quiet pure plain plain' course' apart,
    course'.undisturbed_by quiet pure plain' plain course apart.symm⟩

end Template
end

namespace Sample

def badge : Markup :=
  .element "p" [("class", "${c}")] [.element "b" [("v-if", "shown"), ("title", "${f(t)}")] []]

/-- Of two instances one shows what is conditional and the other does not. The first one hides it,
which frees a slot, and then the second one shows it. Besides, each is updated by itself. -/
def alternates : Bool :=
  match Template.compile .standard 0 badge with
  | .error _ => false
  | .ok (t, _) =>
    match t.createInstance echo (scope "a" "x" true) blank with
    | .error _ _ => false
    | .ok i s =>
      match t.createInstance echo (scope "b" "y" false) s with
      | .error _ _ => false
      | .ok j s₁ =>
        match i.update echo (scope "a" "x" false) s₁ with
        | (⟨_, some _⟩, _) => false
        | (⟨_, .none⟩, s₂) =>
          match j.update echo (scope "b" "z" true) s₂ with
          | (⟨_, some _⟩, _) => false
          | (⟨_, .none⟩, _) =>
            match t.createInstance echo (scope "b" "y" false) blank with
            | .error _ _ => false
            | .ok k r =>
              match k.update echo (scope "b" "z" true) r, i.update echo (scope "a" "x" false) s with
              | (⟨_, .none⟩, _), (⟨_, .none⟩, _) =>
                remembersPlain i && (remembersPlain j && remembersPlain k)
              | _, _ => false

end Sample

theorem Template.Shared.undisturbed_alternating : ∃ t next i s j s₁ i₁ s₂ j₁ s₃ k r k₁ r₁ i₂ s₄,
    Template.compile .standard 0 Sample.badge = .ok (t, next) ∧
      t.createInstance Sample.echo (Sample.scope "a" "x" true) Sample.blank = .ok i s ∧
      t.createInstance Sample.echo (Sample.scope "b" "y" false) s = .ok j s₁ ∧
      i.update Sample.echo (Sample.scope "a" "x" false) s₁ = (⟨i₁, none⟩, s₂) ∧
      j.update Sample.echo (Sample.scope "b" "z" true) s₂ = (⟨j₁, none⟩, s₃) ∧
      t.createInstance Sample.echo (Sample.scope "b" "y" false) Sample.blank = .ok k r ∧
      k.update Sample.echo (Sample.scope "b" "z" true) r = (⟨k₁, none⟩, r₁) ∧
      i.update Sample.echo (Sample.scope "a" "x" false) s = (⟨i₂, none⟩, s₄) ∧
      s₁.document.Untouched j.root s₂.document ∧ s₂.document.Untouched i₁.root s₃.document ∧
      s₃.document.markup j₁.root = r₁.document.markup k₁.root ∧
      s₃.document.markup i₁.root = s₄.document.markup i₂.root := by
  have told : Sample.alternates = true := by decide +kernel
  unfold Sample.alternates at told
  split at told
  · cases told
  case h_2 t next compiled =>
  split at told
  · cases told
  case h_2 i s made =>
  split at told
  · cases told
  case h_2 j s₁ made' =>
  split at told
  · cases told
  case h_2 i₁ s₂ hidden =>
  split at told
  · cases told
  case h_2 j₁ s₃ shown =>
  split at told
  · cases told
  case h_2 k r alone =>
  split at told
  case h_2 => cases told
  case h_1 k₁ r₁ i₂ s₄ shown' hidden' =>
  obtain ⟨known, known'⟩ := Bool.and_eq_true_iff.mp told
  obtain ⟨known', known''⟩ := Bool.and_eq_true_iff.mp known'
  have fresh {s : Stage Unit} (c t : String) (b : Bool) :
      Coherent (fun _ => Sample.nothing) s (Sample.scope c t b) [] :=
    Sample.coherent rfl fun _ mem => (List.not_mem_nil mem).elim
  have knows {s : Stage Unit} {i : Instance} (h : Sample.remembersPlain i = true) (c t : String)
      (b : Bool) : Coherent (fun _ => Sample.nothing) s (Sample.scope c t b) [i] :=
    Sample.coherent rfl fun _ mem => by rw [List.mem_singleton.mp mem]; exact h
  have plain := Template.plain_of_standard compiled
  have sound := Document.sound_new false
  have course := Template.Course.made sound (fresh ..) made
  have start := Template.Shared.made course (fresh ..) made'
  have turned := start.left (knows known ..) hidden
  have done := turned.right (knows known' ..) shown
  have first := Template.Shared.undisturbed Sample.echo_quiet Sample.echo_pure plain plain start
  have second := Template.Shared.undisturbed Sample.echo_quiet Sample.echo_pure plain plain turned
  have last := Template.Shared.undisturbed Sample.echo_quiet Sample.echo_pure plain plain done
  exact ⟨t, next, i, s, j, s₁, i₁, s₂, j₁, s₃, k, r, k₁, r₁, i₂, s₄, compiled, made, made', hidden,
    shown, alone, shown', hidden', first.2.untouched _ _ _ _ hidden,
    second.1.untouched _ _ _ _ shown,
    (last.2.same r₁ k₁ (.updated (.made sound (fresh ..) alone) (knows known'' ..) shown')).2,
    (last.1.same s₄ i₂ (.updated course (knows known ..) hidden')).2⟩

end LiveTemplate
