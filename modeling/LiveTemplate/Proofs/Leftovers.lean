import LiveTemplate.Proofs.Rebuilding

/-!
# LiveTemplate.Proofs.Leftovers

Which nodes are left in a document. What an instance that lives takes up is what is below its root.
Errors leave nodes behind: each creation that fails does, and an update that fails does so exactly
if it stops while something that was hidden is being created.

  * `Template.Lives`          an instance, whatever happened to it and to the rest
  * `Template.Lives.stands`   it stands in what is below its root
  * `Template.Retried`        creations that failed
  * `Template.leaves_behind`  what errors leave behind
-/

namespace LiveTemplate

variable {κ : Type}

/-- The directives are `if` and `show`, or what the host's own ones do is write to nodes. -/
def Template.Served (host : Host κ) (t : Template) : Prop :=
  t.Plain ∨ t.Compiled (fun _ _ => True) (fun _ => True) ∧ ∃ held, host.Decorates held

/-- An instance of a template on its stage. It was made on a sound document and may have been
updated, with or without errors. Meanwhile anything may have happened to the rest of the document;
also, the root may have been put elsewhere. -/
inductive Template.Lives (host : Host κ) (t : Template) : Stage κ → Instance → Prop
  | made {s s' : Stage κ} {scope : Scope} {i : Instance} (sound : s.document.Sound)
      (run : t.createInstance host scope s = .ok i s') : Lives host t s' i
  | updated {s s' : Stage κ} {scope : Scope} {i i' : Instance} {error : Option EvalError}
      (before : Lives host t s i) (run : i.update host scope s = (⟨i', error⟩, s')) :
      Lives host t s' i'
  | meanwhile {s s' : Stage κ} {i : Instance} (before : Lives host t s i)
      (sound : s'.document.Sound)
      (same : s.document.Agrees True {x | s.document.Below i.root x} s'.document) :
      Lives host t s' i

open Document

variable {terms : Terms} {host : Host κ} {held : κ → Heap} {t : Template} {s s' : Stage κ}
  {i i' : Instance}

theorem Document.contains_iff_ne_none {doc : Document} {x : NodeId} :
    doc.contains x = true ↔ doc.get? x ≠ none :=
  Document.contains_iff.trans Option.ne_none_iff_exists'.symm

theorem Document.Agrees.loosen {strict : Prop} {part : Set NodeId} {a b : Document}
    (h : a.Agrees True part b) : a.Agrees strict part b := by
  refine ⟨fun x node mem found => ?_, h.listening⟩
  obtain ⟨node', found', follows⟩ := h.nodes x node mem found
  exact ⟨node', found', fun _ => follows.content trivial, follows.children, follows.handlers,
    follows.data, follows.anchors⟩

/-- Template and host keep to the terms. References may lead anywhere. -/
structure Template.Abides (terms : Terms) (host : Host κ) (held : κ → Heap) (t : Template) :
    Prop where
  behaves : host.Behaves terms held
  loose : ¬terms.coherent
  tidy : t.Each (Template.Tidy terms.builtin)

/-- Only the built-in directives are in play, and references may lead anywhere. -/
abbrev Terms.loose : Terms := ⟨True, False⟩

theorem Template.Plain.abides (plain : t.Plain) (quiet : host.Quiet) :
    t.Abides .loose host fun _ _ => False :=
  ⟨⟨quiet, False.elim, .inl trivial⟩, False.elim, plain.tidy⟩

theorem Template.Served.abides (served : t.Served host) (quiet : host.Quiet) :
    ∃ terms held, t.Abides terms host held := by
  rcases served with plain | ⟨compiled, held, decorates⟩
  · exact ⟨.loose, _, plain.abides quiet⟩
  · have each : t.Each (Template.Fine False False) :=
      Template.Compiled.each compiled (fun loose => loose.elim) fun _ _ => False.elim
    exact ⟨⟨False, False⟩, held, ⟨quiet, False.elim, .inr decorates⟩, False.elim,
      each.mono fun _ fine => fine.tidy⟩

namespace Template

/-- An instance that stands does so in what is below its root. -/
theorem Stands.part_eq {doc : Document} {m : Mount} {part : Set NodeId}
    (h : t.Stands terms doc m part) (tidy : t.Each (Tidy terms.builtin)) :
    part = {x | doc.Below m.node x} := by
  have stands : (Subtree.template t).Stands terms doc m part := by
    rw [Subtree.Stands]
    exact h
  have each : (Subtree.template t).Each (Tidy terms.builtin) := by
    rw [Subtree.Each]
    exact tidy
  exact Set.ext fun x => stands.mem_iff each

/-- What is there after an instance was made. -/
structure Starts (terms : Terms) (t : Template) (s : Stage κ) (i : Instance) (s' : Stage κ) :
    Prop where
  template : i.template = t
  stands : t.Stands terms s'.document i.toMount {x | s'.document.Below i.root x}
  fresh : ∀ x, s'.document.Below i.root x → s.document.get? x = none
  keeps : s.document.Retains terms.builtin s'.document
  only : s.document.Exchanges ∅ {x | s'.document.Below i.root x} s'.document

/-- What is there after an instance was updated. -/
structure Passes (terms : Terms) (host : Host κ) (scope : Scope) (i : Instance) (s : Stage κ)
    (i' : Instance) (error : Option EvalError) (s' : Stage κ) : Prop where
  template : i'.template = i.template
  root : i'.root = i.root
  stands : i.template.Stands terms s'.document i'.toMount {x | s'.document.Below i.root x}
  within : ∀ x, s'.document.Below i.root x → s.document.Below i.root x ∨ s.document.get? x = none
  keeps : s.document.Spares terms.builtin {x | s.document.Below i.root x} s'.document
  clean : error = none → s.document.Exchanges {x | s.document.Below i.root x}
    {x | s'.document.Below i.root x} s'.document
  stopped : error ≠ none → (s.document.Exchanges {x | s.document.Below i.root x}
    {x | s'.document.Below i.root x} s'.document ↔
      i.template.strands host scope i.toMount s = false)

namespace Abides

theorem create (h : t.Abides terms host held) (sound : s.document.Sound) (scope : Scope) :
    Ends (t.createInstance host scope) s (t.Starts terms s)
      (fun s' => s.document.Retains terms.builtin s'.document ∧ s.document.Gains s'.document) := by
  have knows : terms.coherent → Heap.Knows (fun _ => False) held scope s :=
    fun coherent => (h.loose coherent).elim
  refine (createInstance_comes h.behaves h.tidy sound knows).imp ?_ fun _ failed => failed
  rintro i s' ⟨same, part, created⟩
  have stands := created.stands
  rw [Subtree.Stands] at stands
  obtain rfl := stands.part_eq h.tidy
  exact ⟨same, stands, created.fresh, created.retains, created.only⟩

theorem update (h : i.template.Abides terms host held) (sound : s.document.Sound)
    (stands : i.template.Stands terms s.document i.toMount {x | s.document.Below i.root x})
    {scope : Scope} {error : Option EvalError}
    (run : i.update host scope s = (⟨i', error⟩, s')) :
    Passes terms host scope i s i' error s' := by
  have known : terms.coherent →
      Heap.Knows (fun _ => False) held scope s ∧ i.toMount.Fits (fun _ => False) :=
    fun coherent => (h.loose coherent).elim
  obtain ⟨same, root, _, part', refreshed⟩ :=
    Instance.update_comes h.behaves h.tidy sound known stands run
  have stands' := refreshed.stands
  rw [Subtree.Stands] at stands'
  have here : part' = {x | s'.document.Below i.root x} := by
    rw [← root]
    exact stands'.part_eq h.tidy
  have keeps := refreshed.keeps
  rw [show (⟨i'.toMount, error⟩ : Updated Mount).live.node = i.toMount.node from root,
    relabel_eq_id] at keeps
  subst here
  exact ⟨same, root, stands', refreshed.within, keeps, refreshed.clean, fun failed => by
    rw [refreshed.stopped failed, Subtree.strands]⟩

end Abides

/-- An instance stands as long as it lives. -/
theorem Lives.stands (abides : t.Abides terms host held) (lives : t.Lives host s i) :
    s.document.Sound ∧ i.template = t ∧
      t.Stands terms s.document i.toMount {x | s.document.Below i.root x} := by
  induction lives with
  | made sound run =>
    have starts := (abides.create sound _).ok run
    exact ⟨starts.keeps.sound, starts.template, starts.stands⟩
  | updated _ run ih =>
    obtain ⟨sound, rfl, stands⟩ := ih
    have passes := abides.update sound stands run
    refine ⟨passes.keeps.sound, passes.template, ?_⟩
    rw [passes.root]
    exact passes.stands
  | meanwhile _ sound same ih =>
    obtain ⟨_, own, stands⟩ := ih
    have stands := stands.agrees same.loosen
    refine ⟨sound, own, ?_⟩
    rw [stands.part_eq abides.tidy] at stands
    exact stands

theorem Lives.get?_of_below (abides : t.Abides terms host held) (lives : t.Lives host s i)
    {x : NodeId} (below : s.document.Below i.root x) : s.document.get? x ≠ none := by
  obtain ⟨_, _, stands⟩ := lives.stands abides
  obtain ⟨node, found, _⟩ := stands.region x below
  rw [found]
  exact Option.some_ne_none node

end Template

/-! ## Errors -/

theorem Document.nodeCount_lt {doc doc' : Document}
    (kept : ∀ x, doc.get? x ≠ none → doc'.get? x ≠ none) (gains : doc.Gains doc') :
    doc.nodeCount < doc'.nodeCount := by
  obtain ⟨x, fresh, live⟩ := gains
  obtain ⟨node, found⟩ := Option.ne_none_iff_exists'.mp live
  refine Slots.size_lt_size (fun y before there => ?_) fresh found
  exact Option.ne_none_iff_exists'.mp (kept y (by rw [get?, there]; exact Option.some_ne_none _))

namespace Template

/-- So many creations in a row that failed. -/
inductive Retried (host : Host κ) (t : Template) : Nat → Stage κ → Stage κ → Prop
  | start (s : Stage κ) : Retried host t 0 s s
  | again {n : Nat} {s s₁ s' : Stage κ} {scope : Scope} {e : EvalError}
      (before : Retried host t n s s₁) (failed : t.createInstance host scope s₁ = .error e s') :
      Retried host t (n + 1) s s'

/-- Every creation that fails keeps the nodes that were there and leaves some behind. -/
theorem Retried.grows (abides : t.Abides terms host held) (sound : s.document.Sound) {n : Nat}
    (retried : t.Retried host n s s') :
    s'.document.Sound ∧ (∀ x, s.document.get? x ≠ none → s'.document.get? x ≠ none) ∧
      s.document.nodeCount + n ≤ s'.document.nodeCount := by
  induction retried with
  | start => exact ⟨sound, fun _ live => live, Nat.le_refl _⟩
  | again _ failed ih =>
    obtain ⟨sound, kept, count⟩ := ih sound
    obtain ⟨retains, gains⟩ := (abides.create sound _).error failed
    have stays : ∀ x, _ := fun x live gone => (retains.dead gone).elim (Set.notMem_empty x) live
    have more := nodeCount_lt stays gains
    exact ⟨retains.sound, fun x live => stays x (kept x live), by omega⟩

/-- Creations that fail leave one more node behind each time. An update that fails leaves no nodes
behind exactly if it did not stop while something that was hidden was being created: then every
node that is live is below the root, or is one of those that were live outside the instance. -/
theorem leaves_behind (quiet : host.Quiet) (served : t.Served host) :
    (∀ n (s s' : Stage κ), s.document.Sound → t.Retried host n s s' →
      (∀ x, s.document.contains x = true → s'.document.contains x = true) ∧
        s.document.nodeCount + n ≤ s'.document.nodeCount) ∧
    ∀ (s s' : Stage κ) scope i i' e, t.Lives host s i →
      i.update host scope s = (⟨i', some e⟩, s') →
      ((∀ x, s'.document.contains x = true →
        s'.document.Below i'.root x ∨
          ¬s.document.Below i.root x ∧ s.document.contains x = true) ↔
        t.strands host scope i.toMount s = false) := by
  obtain ⟨terms, held, abides⟩ := served.abides quiet
  simp only [contains_iff_ne_none]
  refine ⟨fun n s s' sound retried => (retried.grows abides sound).2, ?_⟩
  intro s s' scope i i' e lives run
  obtain ⟨sound, rfl, stands⟩ := lives.stands abides
  have passes := abides.update sound stands run
  rw [passes.root, ← passes.stopped (Option.some_ne_none e)]
  exact Iff.rfl

end Template

namespace Sample

/-- Two creations fail. In another document one succeeds, and then an update fails that is to show
what is hidden. -/
def fails : Bool :=
  match Template.compile .standard 0 markup with
  | .error _ => false
  | .ok (t, _) =>
    match t.createInstance echo broken blank with
    | .ok _ _ => false
    | .error _ s =>
      match t.createInstance echo broken s with
      | .ok _ _ => false
      | .error _ _ =>
        match t.createInstance echo (scope "a" "x" false) blank with
        | .error _ _ => false
        | .ok i s₂ =>
          match i.update echo broken s₂ with
          | (⟨_, .none⟩, _) => false
          | (⟨_, some _⟩, _) => t.strands echo broken i.toMount s₂

end Sample

theorem Template.leaves_behind_hidden : ∃ t next e s e₁ s₁ i s₂ i' e' s₃,
    Template.compile .standard 0 Sample.markup = .ok (t, next) ∧
      t.createInstance Sample.echo Sample.broken Sample.blank = .error e s ∧
      t.createInstance Sample.echo Sample.broken s = .error e₁ s₁ ∧
      t.createInstance Sample.echo (Sample.scope "a" "x" false) Sample.blank = .ok i s₂ ∧
      i.update Sample.echo Sample.broken s₂ = (⟨i', some e'⟩, s₃) ∧
      Sample.blank.document.nodeCount + 2 ≤ s₁.document.nodeCount ∧
      ∃ x, s₃.document.contains x = true ∧ ¬s₃.document.Below i'.root x ∧
        (s₂.document.contains x = true → s₂.document.Below i.root x) := by
  have told : Sample.fails = true := by decide +kernel
  unfold Sample.fails at told
  split at told
  · cases told
  case h_2 t next compiled =>
  split at told
  · cases told
  case h_2 e s first =>
  split at told
  · cases told
  case h_2 e₁ s₁ second =>
  split at told
  · cases told
  case h_2 i s₂ made =>
  split at told
  · cases told
  case h_2 i' e' s₃ failed =>
  obtain ⟨creating, updating⟩ := Template.leaves_behind Sample.echo_quiet
    (.inl (Template.plain_of_standard compiled))
  have sound := Document.sound_new false
  refine ⟨t, next, e, s, e₁, s₁, i, s₂, i', e', s₃, compiled, first, second, made, failed,
    (creating 2 _ s₁ sound (.again (.again (.start _) first) second)).2, ?_⟩
  have lives := Template.Lives.made sound made
  have stranded := (updating s₂ s₃ _ i i' e' lives failed).not.mpr (by rw [told]; decide)
  obtain ⟨x, left⟩ := not_forall.mp stranded
  obtain ⟨live, left⟩ := Classical.not_imp.mp left
  obtain ⟨out, inside⟩ := not_or.mp left
  exact ⟨x, live, out, fun before => Classical.byContradiction fun other => inside ⟨other, before⟩⟩

/-- A node is left behind where there was none. -/
theorem Template.createInstance_leaves_node : ∃ t next e s,
    Template.compile .standard 0 (.element "p" [("onclick", "${f()}")] []) = .ok (t, next) ∧
      t.createInstance Sample.echo (.ofEntries []) Sample.blank = .error e s ∧
      Sample.blank.document.nodeCount = 0 ∧ s.document.nodeCount = 1 := by
  have told : (match Template.compile .standard 0 (.element "p" [("onclick", "${f()}")] []) with
    | .error _ => false
    | .ok (t, _) =>
      match t.createInstance Sample.echo (.ofEntries []) Sample.blank with
      | .ok _ _ => false
      | .error _ s => s.document.nodeCount == 1) = true := by decide +kernel
  split at told
  · cases told
  case h_2 t next compiled =>
  split at told
  · cases told
  case h_2 e s failed =>
  exact ⟨t, next, e, s, compiled, failed, by decide +kernel, eq_of_beq told⟩

end LiveTemplate
