import LiveTemplate.Proofs.Deltas

/-!
# LiveTemplate.Proofs.Failures

Passes that fail. Values are computed before any of them is written, so a pass that fails while
computing has written nothing. After that it can fail only for want of an anchor. On a live root
that does not happen, and on a root that was released there is nothing left to write to.

  * `Document.Equipped.performAll`    a root keeps enough anchors
  * `Host.Spares`                     what is asked of the host during a pass
  * `Template.applyAll_of_dead`       the second half of a pass on a root that is gone
  * `Template.failed_update_keeps_document`  a pass that fails changes nothing
-/

namespace LiveTemplate

/-! ## Tables of anchors -/

namespace Document

variable {doc : Document} {root : NodeId} {size : Nat}

theorem Equipped.perform (equipped : doc.Equipped root size) (sound : doc.Sound)
    {operation : Operation} (fresh : root ∉ doc.issued [operation])
    (table : ∀ nodes, operation = .setAnchors root nodes → size ≤ nodes.length) :
    (operation.perform doc).Equipped root size := by
  intro after
  have before : doc.contains root = true :=
    (contains_performAll sound (show (doc.performAll [operation]).contains root = true from
      after)).resolve_right fresh
  exact equipped.perform_of_live sound before table after

/-- Neither time nor a release leaves a live root with too few anchors. -/
theorem Equipped.performAll (equipped : doc.Equipped root size) (sound : doc.Sound)
    {operations : List Operation} (fresh : root ∉ doc.issued operations)
    (tables : ∀ nodes, .setAnchors root nodes ∈ operations → size ≤ nodes.length) :
    (doc.performAll operations).Equipped root size := by
  induction operations generalizing doc with
  | nil => exact equipped
  | cons operation rest ih =>
    rw [issued, List.mem_append, not_or] at fresh
    refine ih (equipped.perform sound ?_ fun nodes same => ?_) (sound.perform operation) fresh.2
      fun nodes mem => tables nodes (List.mem_cons_of_mem _ mem)
    · simpa [issued] using fresh.1
    · exact tables nodes (same ▸ List.mem_cons_self)

end Document

/-! ## The second half of a pass -/

variable {κ : Type}

/-- A computation in two parts, neither of which changes the document. -/
theorem Host.ending_bind {α β : Type} {m : Eval (Stage κ) α} {f : α → Eval (Stage κ) β}
    {s : Stage κ} (first : (ending (m s)).document = s.document)
    (next : ∀ a t, t.document = s.document → (ending (f a t)).document = s.document) :
    (ending ((m >>= f) s)).document = s.document := by
  cases run : m s with
  | ok a t =>
    rw [run] at first
    rw [bind_of_ok run]
    exact next a t first
  | error e t =>
    rw [run] at first
    rw [bind_of_error run]
    exact first

/-- What is asked of the host during a pass: functions leave the document alone, directives leave
the table of the root alone and do nothing about a node that is gone. -/
structure Host.Spares (host : Host κ) (root : NodeId) : Prop where
  quiet : host.Quiet
  table : ∀ name id v s, (host.apply name id v s).document.anchors? root = s.document.anchors? root
  inert : ∀ name id v s, s.document.contains id = false →
    (host.apply name id v s).document = s.document

variable {host : Host κ} {root : NodeId} {s s' : Stage κ}

theorem Host.Spares.leavesTable (spares : host.Spares root) : host.LeavesTable root :=
  ⟨fun f args s => by rw [spares.quiet f args s], spares.table⟩

theorem Binding.write_of_dead (spares : host.Spares root) {id : NodeId}
    (dead : s.document.contains id = false) (c : Computed) (action : Action) :
    (Binding.write host id c action s).document = s.document := by
  cases own : action.isHosted with
  | false =>
    rw [Binding.write_own host id c own s]
    exact Action.writeTo_of_dead dead c
  | true =>
    cases action with
    | applyDirective name directive e =>
      cases directive with
      | toggle => cases own
      | host name =>
        cases c with
        | args vs => rfl
        | value v => exact spares.inert name id v s dead
    | _ => cases own

/-- On a root that is gone nothing is written, whether or not a node is found. -/
theorem Binding.applyTo_of_dead (spares : host.Spares root)
    (dead : s.document.contains root = false) (b : Binding) (c : Computed) :
    (Host.ending (b.applyTo host root c s)).document = s.document := by
  unfold Binding.applyTo Binding.node?
  cases b.target with
  | root => exact Binding.write_of_dead spares dead c b.action
  | anchor slot =>
    have gone : s.document.get? root = none := by
      simpa [Document.contains, Slots.contains, Document.get?] using dead
    have missing : s.document.anchor? root slot = none := by
      simp [Document.anchor?, Document.anchors?, gone]
    simp only [missing]
    rfl

namespace Template

theorem applyAll_of_dead (spares : host.Spares root) (previous : Option Snapshot)
    (values : List (Binding × Computed)) (dead : s.document.contains root = false) :
    (Host.ending (applyAll host root previous values s)).document = s.document := by
  induction values generalizing s with
  | nil => rfl
  | cons p rest ih =>
    obtain ⟨b, c⟩ := p
    rw [applyAll]
    split
    · exact ih dead
    · refine Host.ending_bind (Binding.applyTo_of_dead spares dead b c) fun _ t same => ?_
      have dead' : t.document.contains root = false := same ▸ dead
      rw [← same]
      exact Host.ending_bind (ih dead') fun _ _ same => same

/-- A pass on a root that is gone or has an anchor for every number. -/
theorem Tidy.update_error_keeps {strict : Prop} {t : Template} (tidy : t.Tidy strict)
    (spares : host.Spares root) (equipped : s.document.Equipped root t.anchors.length)
    {scope : Scope} {previous : Option Snapshot} {e : EvalError}
    (failed : t.update host scope root previous s = .error e s') : s'.document = s.document := by
  have computes : (Host.ending
      (computeAll host (scope.narrow t.vars).read t.bindings s)).document = s.document :=
    computeAll_leaves spares.quiet t.bindings s
  rcases update_error failed with ⟨_, same⟩ | computing | ⟨values, mid, computed, writing⟩
  · rw [same]
  · rw [computing] at computes
    exact computes
  · rw [computed] at computes
    have same : mid.document = s.document := computes
    cases live : s.document.contains root with
    | false =>
      have kept := applyAll_of_dead spares previous values (s := mid) (same ▸ live)
      rw [writing] at kept
      exact Eq.trans kept same
    | true =>
      have finds := tidy.update_finds spares.leavesTable live equipped scope previous
      obtain ⟨anchor, rfl⟩ := applyAll_error writing
      cases finds.of_error failed

/-! ## Roots that a template has built -/

theorem Compiled.sturdy {t : Template} {markup : Markup → Prop}
    (compiled : t.Compiled (fun _ _ => True) markup) : t.Each (Sturdy False) := by
  have fine : t.Each (Fine False False) :=
    compiled.each (fun loose => loose.elim) fun _ _ loose => loose.elim
  exact (fine.and compiled.used).mono fun _ h => h.1.sturdy h.2

/-- A new instance has an anchor for every number. -/
theorem create_equipped {t : Template} (sturdy : t.Each (Sturdy False)) (tame : host.Tame)
    (sound : s.document.Sound) {scope : Scope} {children : List Mount}
    (created : t.create host scope s = .ok (root, children) s') :
    s'.document.Sound ∧ s'.document.Equipped root t.anchors.length := by
  obtain ⟨own, inner⟩ := each_iff.mp sturdy
  have promised : Extension.CreatesAll .least host (fun _ _ => True) scope t.extensions :=
    (Extension.promises tame.behaves (inner.mono fun _ sturdy => sturdy.tidy)).1
  obtain ⟨part, built⟩ :=
    (create_ends own.tidy promised sound (Heap.knows_nothing not_false _ scope s)).ok created
  obtain ⟨_, _, _, place, values, rest, same, rooted, _⟩ := stands_iff.mp built.stands
  cases same
  have equipped := rooted.own.equipped
  rw [rooted.root] at equipped
  exact ⟨built.retains.sound, equipped⟩

/-- A pass that fails leaves the document as it was, with its nodes and its journal. The root was
built by the template, and since then anything may have happened in the document, a release of the
root included. Only a smaller table of anchors was not put on it. -/
theorem failed_update_keeps_document {t : Template}
    (compiled : t.Compiled (fun _ _ => True) fun _ => True)
    {κ' : Type} {maker : Host κ'} (tame : maker.Tame) {before start : Stage κ'}
    (sound : before.document.Sound) {first : Scope} {children : List Mount}
    (created : t.create maker first before = .ok (root, children) start)
    {operations : List Document.Operation} (fresh : root ∉ start.document.issued operations)
    (tables : ∀ nodes, .setAnchors root nodes ∈ operations → t.anchors.length ≤ nodes.length)
    (later : s.document = start.document.performAll operations) (spares : host.Spares root)
    {scope : Scope} {previous : Option Snapshot} {e : EvalError}
    (failed : t.update host scope root previous s = .error e s') : s'.document = s.document := by
  have sturdy := compiled.sturdy
  obtain ⟨sound', equipped⟩ := create_equipped sturdy tame sound created
  have now := equipped.performAll sound' fresh tables
  rw [← later] at now
  exact (each_iff.mp sturdy).1.tidy.update_error_keeps spares now failed

end Template

namespace Sample

theorem painter_spares (root : NodeId) : painter.Spares root where
  quiet := painter_tame.quiet
  table := (painter_tame.leavesTable root).apply
  inert := fun _ id v s dead =>
    @Document.perform_of_dead s.document id dead (.setAttribute id "paint" v.text)
      List.mem_cons_self

/-- A directive on the root, and a call on a numbered node. -/
def called : Markup :=
  .element "p" [("v-mark", "c")] [.element "b" [("title", "${f(c)}")] [.text "${t}"]]

theorem called_compiled {t : Template} {next : TemplateId}
    (run : Template.compile markRegistry 0 called = .ok (t, next)) :
    t.Compiled (fun _ _ => True) fun _ => True := by
  refine .intro (fun _ _ _ => trivial) (fun name t found => ?_) (fun tag t found => ?_) trivial run
  · rcases Table.mem_of_mem_insert (mem_of_lookup found) with same | old
    · cases same
    · have mem := Table.mem_of_mem_ofEntries old
      simp at mem
  · cases found

/-- What is done to the root before the pass. Its table is replaced by one of the same length. -/
def retabled (root : NodeId) : List Document.Operation :=
  [.setAttribute root "lang" "en", .setAnchors root [root, root]]

def failsToCall : Bool :=
  match Template.compile markRegistry 0 called with
  | .error _ => false
  | .ok (t, _) =>
    match t.create painter (scope "a" "x" true) journaled with
    | .error _ _ => false
    | .ok (root, _) s =>
      match t.update painter broken root none (s.edit (·.performAll (retabled root))) with
      | .ok _ _ => false
      | .error _ _ => t.anchors.length = 2

end Sample

theorem Template.failed_update_keeps_called : ∃ t next root children start e s',
    Template.compile Sample.markRegistry 0 Sample.called = .ok (t, next) ∧
      t.create Sample.painter (Sample.scope "a" "x" true) Sample.journaled =
        .ok (root, children) start ∧
      t.anchors.length = 2 ∧
      t.update Sample.painter Sample.broken root none
        (start.edit (·.performAll (Sample.retabled root))) = .error e s' ∧
      s'.document = start.document.performAll (Sample.retabled root) := by
  have told : Sample.failsToCall = true := by decide +kernel
  unfold Sample.failsToCall at told
  split at told
  · cases told
  case h_2 t next compiled =>
  split at told
  · cases told
  case h_2 root children start created =>
  split at told
  · cases told
  case h_2 e s' failed =>
  have two : t.anchors.length = 2 := of_decide_eq_true told
  refine ⟨t, next, root, children, start, e, s', compiled, created, two, failed, ?_⟩
  refine Template.failed_update_keeps_document (Sample.called_compiled compiled)
    Sample.painter_tame (Document.sound_new true) created ?_ ?_ rfl (Sample.painter_spares root)
    failed
  · simp [Sample.retabled, Document.issued, Document.Operation.issued?]
  · intro nodes mem
    simp only [Sample.retabled, List.mem_cons, List.not_mem_nil, or_false] at mem
    rcases mem with other | same
    · cases other
    · cases same
      exact Nat.le_of_eq two

namespace Sample

/-- An instance is made, its root is worked on, and a pass on it fails but leaves something in the
document. -/
def HalfWritten (registry : Registry) (host : Host Unit) (m : Markup)
    (operations : NodeId → List Document.Operation) : Prop :=
  ∃ t next root children start e s', Template.compile registry 0 m = .ok (t, next) ∧
    t.create host (scope "a" "x" true) journaled = .ok (root, children) start ∧
    t.update host (scope "a" "x" true) root none (start.edit (·.performAll (operations root))) =
      .error e s' ∧
    s'.document ≠ start.document.performAll (operations root)

def writesHalf (registry : Registry) (host : Host Unit) (m : Markup)
    (operations : NodeId → List Document.Operation) : Bool :=
  match Template.compile registry 0 m with
  | .error _ => false
  | .ok (t, _) =>
    match t.create host (scope "a" "x" true) journaled with
    | .error _ _ => false
    | .ok (root, _) s =>
      match t.update host (scope "a" "x" true) root none
          (s.edit (·.performAll (operations root))) with
      | .ok _ _ => false
      | .error _ s' =>
        s'.document.attribute? root "class" ≠
          (s.document.performAll (operations root)).attribute? root "class"

theorem HalfWritten.of_run {registry : Registry} {host : Host Unit} {m : Markup}
    {operations : NodeId → List Document.Operation}
    (told : writesHalf registry host m operations = true) :
    HalfWritten registry host m operations := by
  unfold writesHalf at told
  split at told
  · cases told
  case h_2 t next compiled =>
  split at told
  · cases told
  case h_2 root children start created =>
  split at told
  · cases told
  case h_2 e s' failed =>
  refine ⟨t, next, root, children, start, e, s', compiled, created, failed, fun same => ?_⟩
  rw [same] at told
  simp at told

end Sample

/-- With too few anchors on the root, what was written before the missing one stays: where somebody
else has replaced the table, and where a directive does so. -/
theorem Template.failed_update_half_written :
    Sample.HalfWritten .standard Sample.echo Sample.titled (fun root => [.setAnchors root []]) ∧
      Sample.HalfWritten Sample.markRegistry Sample.stripper
        (.element "p" [("v-mark", "c")] [.element "b" [] [.text "${t}"]]) fun _ => [] :=
  ⟨.of_run (by decide +kernel), .of_run (by decide +kernel)⟩

end LiveTemplate
