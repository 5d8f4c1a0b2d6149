import LiveTemplate.Proofs.Detachment
import LiveTemplate.Proofs.Walks

/-!
# LiveTemplate.Proofs.Confinement

Directives that write to their own element only. Creating and updating then leaves alone all nodes
that the subtree is not made of: they keep what they hold, and no entry names them.

  * `Host.Confined`                 what is asked of the directives
  * `Document.Bypasses`             nothing is done to some nodes
  * `Template.update_bypasses`      one pass
  * `Extension.createAll_bypasses`  mounting extension points
-/

namespace LiveTemplate

variable {κ : Type}

namespace Document

/-- The node that a write is made on. -/
def Operation.target? : Operation → Option NodeId
  | .setAttribute id _ _ | .removeAttribute id _ | .setProperty id _ _ | .setText id _ => some id
  | _ => none

theorem Operation.isWrite_of_target {operation : Operation} {id : NodeId}
    (write : operation.target? = some id) : operation.isWrite = true := by
  cases operation <;> first | rfl | cases write

end Document

/-- Functions leave the document alone, and directives write to the element that they are applied
to. -/
structure Host.Confined (host : Host κ) : Prop where
  quiet : host.Quiet
  writes : ∀ name id v s, ∃ operations : List Document.Operation,
    (∀ o ∈ operations, o.target? = some id) ∧
      (host.apply name id v s).document = s.document.performAll operations

theorem Host.Confined.tame {host : Host κ} (confined : host.Confined) : host.Tame := by
  refine ⟨confined.quiet, fun name id v s => ?_⟩
  obtain ⟨operations, writes, same⟩ := confined.writes name id v s
  exact ⟨operations, fun o mem => Document.Operation.isWrite_of_target (writes o mem), same⟩

namespace Document

/-- Nothing is done to some nodes: they keep what they hold, and no entry names them. -/
structure Bypasses (out : Set NodeId) (doc doc' : Document) : Prop where
  logs : ∃ log, doc.Logs out log doc'
  content : ∀ x ∈ out, doc'.content? x = doc.content? x

namespace Bypasses

variable {out : Set NodeId} {a b c : Document}

theorem refl (guards : a.Guards out) : a.Bypasses out a := ⟨⟨[], .refl guards⟩, fun _ _ => rfl⟩

theorem trans (h : a.Bypasses out b) (k : b.Bypasses out c) : a.Bypasses out c := by
  obtain ⟨log, logs⟩ := h.logs
  obtain ⟨log', logs'⟩ := k.logs
  exact ⟨⟨log ++ log', logs.trans logs'⟩,
    fun x mem => (k.content x mem).trans (h.content x mem)⟩

theorem guards (h : a.Bypasses out b) : b.Guards out := by
  obtain ⟨log, logs⟩ := h.logs
  exact logs.guards

theorem mono {out' : Set NodeId} (h : a.Bypasses out b) (sub : out' ⊆ out) :
    a.Bypasses out' b := by
  obtain ⟨log, logs⟩ := h.logs
  exact ⟨⟨log, logs.mono sub⟩, fun x mem => h.content x (sub mem)⟩

/-- Nodes that are kept as they are, with entries that do not name them. -/
theorem of_retains {log : List Mutation} (guards : a.Guards out) (logs : a.Logs out log b)
    (retains : a.Retains True b) : a.Bypasses out b := by
  refine ⟨⟨log, logs⟩, fun x mem => ?_⟩
  obtain ⟨node, live⟩ := Option.ne_none_iff_exists'.mp (guards.live x mem)
  obtain ⟨node', live', _, follows⟩ := retains.nodes x node (Set.notMem_empty x) live
  rw [content?, content?, live, live', Option.map_some, Option.map_some, follows.content trivial]

end Bypasses

variable {out : Set NodeId} {doc : Document} {id : NodeId}

/-- A write on another node. -/
theorem bypasses_write (guards : doc.Guards out) (outside : id ∉ out) {operation : Operation}
    (write : operation.target? = some id) : doc.Bypasses out (operation.perform doc) := by
  have keeps : operation ≠ .takeJournal := by
    rintro rfl
    cases write
  have spares (x : NodeId) : operation ≠ .release x := by
    rintro rfl
    cases write
  have on {f : Node → Node} (get : ∀ x, (operation.perform doc).get? x =
      if x = id then (doc.get? x).map f else doc.get? x)
      (single : ∀ m, operation.noted? doc = some m → m.nodes = [id]) :
      doc.Bypasses out (operation.perform doc) := by
    refine ⟨⟨_, logs_at guards operation outside keeps spares single⟩, fun x mem => ?_⟩
    have other : x ≠ id := fun same => outside (same ▸ mem)
    rw [content?, content?, get, if_neg other]
  have ofTag {m m' : Mutation} (noted : (doc.tag? id).map (fun _ => m) = some m') : m' = m := by
    obtain ⟨_, _, rfl⟩ := Option.map_eq_some_iff.mp noted
    rfl
  cases operation with
  | setAttribute _ name value =>
    cases write
    exact on (get?_setAttribute doc id name value) fun m noted => by rw [ofTag noted]; rfl
  | removeAttribute _ name =>
    cases write
    exact on (get?_removeAttribute doc id name) fun m noted => by rw [ofTag noted]; rfl
  | setProperty _ name value =>
    cases write
    exact on (get?_setProperty doc id name value) fun m noted => by rw [ofTag noted]; rfl
  | setText _ content =>
    cases write
    refine on (get?_setText doc id content) fun m noted => ?_
    simp only [Operation.noted?] at noted
    split at noted <;> cases noted
    rfl
  | _ => cases write

theorem bypasses_performAll (outside : id ∉ out) {operations : List Operation} {doc : Document}
    (guards : doc.Guards out) (writes : ∀ o ∈ operations, o.target? = some id) :
    doc.Bypasses out (doc.performAll operations) := by
  induction operations generalizing doc with
  | nil => exact .refl guards
  | cons operation rest ih =>
    have first := bypasses_write guards outside (writes operation List.mem_cons_self)
    exact first.trans (ih first.guards fun o mem => writes o (List.mem_cons_of_mem _ mem))

theorem bypasses_writeTo (guards : doc.Guards out) (outside : id ∉ out) (b : Binding)
    (c : Computed) : doc.Bypasses out (b.action.writeTo id c doc) := by
  obtain ⟨log, touches⟩ := touches_writeTo guards outside b.action c
  refine ⟨⟨log, touches.logs⟩, fun x mem => ?_⟩
  have other : x ≠ id := fun same => outside (same ▸ mem)
  obtain ⟨node, live⟩ := Option.ne_none_iff_exists'.mp (guards.live x mem)
  obtain ⟨content, live', same⟩ := (Binding.written_writeTo True id b c doc).nodes x node live
  have kept := same trivial
  rw [Binding.writeOn, if_neg other] at kept
  rw [content?, content?, live, live']
  exact congrArg some kept

/-! ## Swapping -/

theorem content?_modify (doc : Document) (id : NodeId) {f : Node → Node}
    (keeps : ∀ n, (f n).content = n.content) (x : NodeId) :
    (doc.modify id f).content? x = doc.content? x := by
  rw [content?, content?, get?_modify]
  split
  · rw [Option.map_map]
    exact congrArg (Option.map · _) (funext keeps)
  · rfl

theorem content?_record (doc : Document) (m : Mutation) (x : NodeId) :
    (doc.record m).content? x = doc.content? x := rfl

theorem content?_detach (doc : Document) (id x : NodeId) :
    (doc.detach id).content? x = doc.content? x := by
  unfold detach
  split
  · rfl
  · rw [content?_modify, content?_modify] <;> exact fun _ => rfl

theorem content?_replaceNode (doc : Document) (old new x : NodeId) :
    (doc.replaceNode old new).content? x = doc.content? x := by
  unfold replaceNode
  split
  · rfl
  · split
    · rfl
    · dsimp only
      rw [content?_record, content?_modify, content?_modify, content?_modify, content?_detach] <;>
        exact fun _ => rfl

/-- What is not freed keeps what it holds. -/
theorem content?_swapNodes {doc : Document} {old new x : NodeId}
    (live : (swapNodes old new doc).get? x ≠ none) :
    (swapNodes old new doc).content? x = doc.content? x := by
  rw [← content?_replaceNode doc old new x]
  unfold swapNodes at live ⊢
  generalize doc.replaceNode old new = doc at live ⊢
  unfold release at live ⊢
  split at live
  · case isTrue alive =>
    obtain ⟨node, found⟩ := Option.ne_none_iff_exists'.mp live
    have before : (doc.detach old).get? x = some node := get?_of_freeAll found
    rw [if_pos alive, ← content?_detach doc old, content?, content?, before]
    exact congrArg (Option.map Node.content) found
  · case isFalse dead => rw [if_neg dead]

/-- A swap of other nodes. -/
theorem Bypasses.of_swap {log : List Mutation} {doc : Document} {old new : NodeId}
    (logs : doc.Logs out log (swapNodes old new doc)) : doc.Bypasses out (swapNodes old new doc) :=
  ⟨⟨log, logs⟩, fun x inside => content?_swapNodes (logs.guards.live x inside)⟩

end Document

open Document

section

variable {host : Host κ} {scope : Scope} {s : Stage κ} {out : Set NodeId}

/-! ## One pass -/

namespace Template

variable {t : Template}

theorem write_bypasses (confined : host.Confined) (guards : s.document.Guards out) {id : NodeId}
    (outside : id ∉ out) (b : Binding) (c : Computed) :
    s.document.Bypasses out (Binding.write host id c b.action s).document := by
  cases own : b.action.isHosted with
  | false =>
    rw [Binding.write_own host id c own s]
    exact bypasses_writeTo guards outside b c
  | true =>
    obtain ⟨path, target, action, source⟩ := b
    cases action with
    | applyDirective key directive e =>
      cases directive with
      | toggle => cases own
      | host name =>
        cases c with
        | args vs => exact .refl guards
        | value v =>
          obtain ⟨operations, writes, same⟩ := confined.writes name id v s
          change s.document.Bypasses out (host.apply name id v s).document
          rw [same]
          exact bypasses_performAll outside guards writes
    | _ => cases own

theorem applyAll_bypasses (confined : host.Confined) {root : NodeId} (previous : Option Snapshot)
    {values : List (Binding × Computed)} {s s' : Stage κ} (guards : s.document.Guards out)
    (outside : ∀ p ∈ values, ∀ id, p.1.node? s.document root = some id → id ∉ out) {n : Nat}
    (run : applyAll host root previous values s = .ok n s') :
    s.document.Bypasses out s'.document := by
  induction values generalizing s n with
  | nil =>
    cases run
    exact .refl guards
  | cons p rest ih =>
    have outside' := fun q hq => outside q (List.mem_cons_of_mem p hq)
    rw [applyAll] at run
    split at run
    · exact ih guards outside' run
    · obtain ⟨_, s₁, first, run⟩ := ok_of_bind run
      obtain ⟨m, s₂, others, run⟩ := ok_of_bind run
      cases run
      unfold Binding.applyTo at first
      split at first
      · cases first
      · case h_2 id found =>
        cases first
        have wrote := write_bypasses confined guards (outside p List.mem_cons_self id found) p.1 p.2
        -- The table of anchors is kept, so the bindings to come write where they would have.
        have reach (q : Binding × Computed) :
            q.1.node? (Binding.write host id p.2 p.1.action s).document root =
              q.1.node? s.document root := by
          unfold Binding.node? anchor?
          rw [Binding.anchors?_write (confined.tame.leavesTable root)]
        exact wrote.trans (ih wrote.guards
          (fun q hq id there => outside' q hq id ((reach q).symm.trans there)) others)

/-- A pass over the bindings of an instance. -/
theorem update_bypasses (confined : host.Confined) {root : NodeId} {previous : Option Snapshot}
    {s s' : Stage κ} (guards : s.document.Guards out)
    (outside : ∀ b ∈ t.bindings, ∀ id, b.node? s.document root = some id → id ∉ out)
    {snapshot : Snapshot} (run : t.update host scope root previous s = .ok snapshot s') :
    s.document.Bypasses out s'.document := by
  obtain ⟨values, mid, n, same, mem, applied⟩ := update_applied confined.quiet run
  rw [← same] at guards outside ⊢
  exact applyAll_bypasses confined previous guards (fun p hp => outside p.1 (mem p hp)) applied

end Template

/-! ## Creating and updating -/

/-- Other nodes are left alone throughout. -/
def bypassAccount : Account where
  Made := Bypasses
  Altered out a _ b := a.Bypasses out b

theorem bypassAccount_follows (confined : host.Confined) (scope : Scope) :
    bypassAccount.Follows .least host scope where
  guards made := made.guards
  made first second := first.trans second
  altered first second := first.trans second
  idle guards := .refl guards
  first _ altered := altered
  built guards logs retains := .of_retains guards logs retains
  swapped logs := .of_swap logs
  pass _ guards outside run := Template.update_bypasses confined guards outside run
  flip guards _ made swapped _ _ :=
    (made.mono fun x mem => guards.live x mem).trans (.of_swap swapped)

/-- Mounting extension points in the place of some nodes leaves all others alone. -/
theorem Extension.createAll_bypasses (confined : host.Confined) {extensions : List Extension}
    (proper : Extension.AllEach (Template.Tidy Terms.least.builtin) extensions)
    {placeholders : List (Nat × NodeId)} {index : Nat} {holes : List NodeId} {ms : List Mount}
    {s s' : Stage κ} (guards : s.document.Guards out) (vacant : s.document.Vacant holes)
    (length : holes.length = extensions.length)
    (look : ∀ i h, holes[i]? = some h → placeholders.lookup (index + i) = some h)
    (outside : ∀ h ∈ holes, h ∉ out)
    (run : Extension.createAll host scope placeholders index extensions s = .ok ms s') :
    s.document.Bypasses out s'.document :=
  (Extension.walks (bypassAccount_follows confined scope) not_false confined.tame.behaves proper).1
    placeholders index holes s out ms s' guards vacant length look outside run

end
end LiveTemplate
