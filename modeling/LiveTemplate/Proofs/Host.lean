import LiveTemplate.Proofs.Evaluation
import LiveTemplate.Template.Mount

/-!
# LiveTemplate.Proofs.Host

What is asked of the host's functions, and what it gives for the values of bindings and for
conditions.

  * `Host.Quiet`       functions leave the document alone
  * `Host.Consistent`  the lists and maps of a result are the ones that their references name
  * `Host.Pure`        results agree up to references when the arguments do
-/

namespace LiveTemplate

variable {κ : Type}

namespace Host

/-- Functions leave the document alone. -/
def Quiet (host : Host κ) : Prop := ∀ f args s, (host.call f args s).2.document = s.document

end Host

/-- A heap that has what the host holds on to, with all references below the next one. -/
structure Heap.Covers (heap : Heap) (held : κ → Heap) (s : Stage κ) : Prop where
  sound : heap.Sound s.nextRef
  held : heap.Extends (held s.host)

namespace Host

/-- The lists and maps in a result are those of the arguments, those that the host holds on to, or
new ones. -/
def Consistent (host : Host κ) (held : κ → Heap) : Prop :=
  ∀ f args s heap, heap.Covers held s → (∀ v ∈ args, v.Fits heap) →
    ∃ more : Heap, more.Extends heap ∧ more.Covers held (host.call f args s).2 ∧
      (host.call f args s).1.Fits more

/-- Results depend on the arguments only, up to the references of new lists and maps. -/
def Pure (host : Host κ) (held : Heap) : Prop :=
  ∀ f as bs s t pairs, pairs.Sound s.nextRef t.nextRef → (∀ v, held v → pairs v v) →
    List.Forall₂ (Value.Alike pairs) as bs →
      ∃ more : Pairing, more.Extends pairs ∧
        more.Sound (host.call f as s).2.nextRef (host.call f bs t).2.nextRef ∧
        Value.Alike more (host.call f as s).1 (host.call f bs t).1

theorem Pure.consistent {host : Host κ} {held : Heap} (pure : host.Pure held) :
    host.Consistent fun _ => held := by
  intro f args s heap covers fits
  have same : List.Forall₂ (Value.Alike heap.diagonal) args args :=
    List.forall₂_same.mpr fun v hv => (fits v hv).alike fun _ h => ⟨rfl, h⟩
  obtain ⟨more, grown, sound, alike⟩ := pure f args args s s heap.diagonal
    covers.sound.diagonal (fun v hv => ⟨rfl, covers.held v hv⟩) same
  refine ⟨fun v => more v v, fun v hv => grown v v ⟨rfl, hv⟩, ⟨sound.heap, ?_⟩,
    alike.fits rfl⟩
  exact fun v hv => grown v v ⟨rfl, covers.held v hv⟩

end Host

/-! ## New lists -/

theorem Value.ref?_of_shares {a b : Value} (h : a.Shares b) :
    ∃ r, a.ref? = some r ∧ b.ref? = some r := by
  cases a <;> cases b <;> first | exact ⟨_, rfl, congrArg some h.symm⟩ | cases h

/-- The lists under the next references make a sound pairing larger. -/
theorem Pairing.Sound.newList {pairs : Pairing} {n m : Ref} (h : pairs.Sound n m)
    (as bs : List Value) :
    Pairing.Sound (fun a b => pairs a b ∨ a = .list n as ∧ b = .list m bs) (n + 1) (m + 1) where
  faithful := by
    rintro a b c d (hab | ⟨rfl, rfl⟩) (hcd | ⟨rfl, rfl⟩) shared
    · exact h.faithful a b c d hab hcd shared
    · exfalso
      rcases shared with shared | shared
      · obtain ⟨r, left, right⟩ := Value.ref?_of_shares shared
        cases right
        exact Nat.lt_irrefl _ (h.below_left a b _ hab left)
      · obtain ⟨r, left, right⟩ := Value.ref?_of_shares shared
        cases right
        exact Nat.lt_irrefl _ (h.below_right a b _ hab left)
    · exfalso
      rcases shared with shared | shared
      · obtain ⟨r, left, right⟩ := Value.ref?_of_shares shared
        cases left
        exact Nat.lt_irrefl _ (h.below_left c d _ hcd right)
      · obtain ⟨r, left, right⟩ := Value.ref?_of_shares shared
        cases left
        exact Nat.lt_irrefl _ (h.below_right c d _ hcd right)
    · exact ⟨rfl, rfl⟩
  below_left := by
    rintro a b r (hab | ⟨rfl, rfl⟩) hr
    · exact Nat.lt_succ_of_lt (h.below_left a b r hab hr)
    · cases hr
      exact Nat.lt_succ_self _
  below_right := by
    rintro a b r (hab | ⟨rfl, rfl⟩) hr
    · exact Nat.lt_succ_of_lt (h.below_right a b r hab hr)
    · cases hr
      exact Nat.lt_succ_self _

theorem Value.Alike.newList {pairs : Pairing} {n m : Ref} {as bs : List Value}
    (h : List.Forall₂ (Value.Alike pairs) as bs) :
    Value.Alike (fun a b => pairs a b ∨ a = .list n as ∧ b = .list m bs) (.list n as)
      (.list m bs) := by
  refine .list (.inr ⟨rfl, rfl⟩) h.length_eq ?_
  intro p hp
  exact ((List.forall₂_iff_zip.mp h).2 hp).mono fun _ _ hab => .inl hab

namespace Host

variable {host : Host κ}

/-- Two stages, each with its own references. -/
def Pure.coupling {held : Heap} (pure : host.Pure held) : Coupling host.calls where
  holds pairs s t := pairs.Sound s.nextRef t.nextRef ∧ ∀ v, held v → pairs v v
  faithful := fun _ _ _ h => h.1.faithful
  call := by
    intro f pairs s t as bs h same
    obtain ⟨more, grown, sound, alike⟩ := pure f as bs s t pairs h.1 h.2 same
    exact ⟨more, grown, ⟨sound, fun v hv => grown v v (h.2 v hv)⟩, alike⟩
  newList := by
    intro pairs s t as bs h same
    exact ⟨_, fun _ _ hab => .inl hab, ⟨h.1.newList as bs, fun v hv => .inl (h.2 v hv)⟩,
      Value.Alike.newList same⟩

theorem eq_of_alike_diagonal {heap : Heap} {a b : Value} (h : Value.Alike heap.diagonal a b) :
    a = b := by
  cases h with
  | scalar => rfl
  | list paired => exact paired.1
  | map paired => exact paired.1

theorem eq_of_all_alike_diagonal {heap : Heap} {as bs : List Value}
    (h : List.Forall₂ (Value.Alike heap.diagonal) as bs) : as = bs := by
  induction h with
  | nil => rfl
  | cons head _ ih => rw [eq_of_alike_diagonal head, ih]

theorem fits_of_alike_diagonal {heap : Heap} {a : Value}
    (h : Value.Alike heap.diagonal a a) : a.Fits heap :=
  (h.fits rfl).mono fun _ hv => hv.2

/-- One stage beside itself: the pairing is the diagonal of a heap. -/
def Consistent.coupling {held : κ → Heap} (consistent : host.Consistent held) :
    Coupling host.calls where
  holds pairs s t := s = t ∧ ∃ heap : Heap, pairs = heap.diagonal ∧ heap.Covers held s
  faithful := by
    rintro pairs s t ⟨_, heap, rfl, covers⟩
    exact covers.sound.diagonal.faithful
  call := by
    rintro f _ s _ as bs ⟨rfl, heap, rfl, covers⟩ same
    cases eq_of_all_alike_diagonal same
    have fits : ∀ v ∈ as, v.Fits heap := fun v hv =>
      fits_of_alike_diagonal (List.forall₂_same.mp same v hv)
    obtain ⟨more, grown, covers', fits'⟩ := consistent f as s heap covers fits
    exact ⟨more.diagonal, fun a b h => ⟨h.1, grown a h.2⟩, ⟨rfl, more, rfl, covers'⟩,
      fits'.alike fun v hv => ⟨rfl, hv⟩⟩
  newList := by
    rintro _ s _ as bs ⟨rfl, heap, rfl, covers⟩ same
    cases eq_of_all_alike_diagonal same
    have grown := covers.sound.diagonal.newList as as
    let more : Heap := fun v => heap v ∨ v = .list s.nextRef as
    refine ⟨more.diagonal, fun a b h => ⟨h.1, .inl h.2⟩, ⟨rfl, more, rfl, ?_, ?_⟩, ?_⟩
    · refine ⟨fun a b ha hb shared => ?_, fun a r ha hr => ?_⟩
      · refine (grown.faithful a a b b ?_ ?_ (.inl shared)).1
        · exact ha.imp (fun h => ⟨rfl, h⟩) fun h => ⟨h, h⟩
        · exact hb.imp (fun h => ⟨rfl, h⟩) fun h => ⟨h, h⟩
      · exact grown.below_left a a r (ha.imp (fun h => ⟨rfl, h⟩) fun h => ⟨h, h⟩) hr
    · exact fun v hv => .inl (covers.held v hv)
    · refine (Value.Alike.newList same).mono ?_
      rintro a b (⟨rfl, h⟩ | ⟨rfl, rfl⟩)
      · exact ⟨rfl, .inl h⟩
      · exact ⟨rfl, .inr rfl⟩

/-! ## Running one computation, or one computation twice -/

variable {α : Type}

/-- What a computation that goes along with itself makes of a heap. -/
theorem Consistent.run {held : κ → Heap} (consistent : host.Consistent held) {heap : Heap}
    {related : Pairing → α → α → Prop} {m : Eval (Stage κ) α}
    (together : consistent.coupling.Together heap.diagonal related m m) {s s' : Stage κ} {a : α}
    (covers : heap.Covers held s) (run : m s = .ok a s') :
    ∃ more : Heap, more.Extends heap ∧ more.Covers held s' ∧ related more.diagonal a a := by
  obtain ⟨_, grown, ⟨_, more, rfl, covers'⟩, rel⟩ :=
    together heap.diagonal s s (.refl _) ⟨rfl, heap, rfl, covers⟩ a s' a s' run run
  exact ⟨more, fun v hv => (grown v v ⟨rfl, hv⟩).2, covers', rel⟩

end Host

theorem Value.Fits.and {heap heap' : Heap} {v : Value} (h : v.Fits heap) (h' : v.Fits heap') :
    v.Fits fun w => heap w ∧ heap' w := by
  induction h with
  | scalar v h => exact .scalar v h
  | list held _ ih =>
    cases h' with
    | scalar _ h => cases h
    | list held' inside' => exact .list ⟨held, held'⟩ fun v hv => ih v hv (inside' v hv)
  | map held _ ih =>
    cases h' with
    | scalar _ h => cases h
    | map held' inside' => exact .map ⟨held, held'⟩ fun e he => ih e he (inside' e he)

theorem Value.Fits.diagonal {heap : Heap} {v : Value} (h : v.Fits heap) :
    Value.Alike heap.diagonal v v :=
  h.alike fun _ hv => ⟨rfl, hv⟩

/-- Everything that the scope names is on the heap. -/
def Scope.Fits (heap : Heap) (scope : Scope) : Prop := ∀ name, (scope.read name).Fits heap

theorem Scope.Fits.mono {heap more : Heap} {scope : Scope} (h : scope.Fits heap)
    (le : more.Extends heap) : scope.Fits more := fun name => (h name).mono le

theorem Table.mem_of_mem_insert {α : Type} {name : String} {value : α} {table : Table α}
    {entry : String × α} (h : entry ∈ table.insert name value) :
    entry = (name, value) ∨ entry ∈ table := by
  induction table with
  | nil => exact .inl (List.mem_singleton.mp h)
  | cons head rest ih =>
    obtain ⟨other, held⟩ := head
    simp only [Table.insert] at h
    split at h
    · exact List.mem_cons.mp h
    · split at h
      · rcases List.mem_cons.mp h with h | h
        · exact .inl h
        · exact .inr (List.mem_cons_of_mem _ h)
      · rcases List.mem_cons.mp h with h | h
        · exact .inr (h ▸ List.mem_cons_self)
        · exact (ih h).imp id (List.mem_cons_of_mem _)

theorem Table.mem_of_mem_ofEntries {α : Type} {entries : List (String × α)} {entry : String × α}
    (h : entry ∈ Table.ofEntries entries) : entry ∈ entries := by
  suffices gen : ∀ table : Table α,
      entry ∈ entries.foldl (fun table e => table.insert e.1 e.2) table →
        entry ∈ entries ∨ entry ∈ table from (gen [] h).resolve_right List.not_mem_nil
  clear h
  induction entries with
  | nil => exact fun table h => .inr h
  | cons head rest ih =>
    intro table h
    rcases ih _ h with h | h
    · exact .inl (List.mem_cons_of_mem _ h)
    · rcases Table.mem_of_mem_insert h with rfl | h
      · exact .inl List.mem_cons_self
      · exact .inr h

theorem mem_of_lookup {α β : Type} [BEq α] [LawfulBEq α] {a : α} {b : β} {l : List (α × β)}
    (h : l.lookup a = some b) : (a, b) ∈ l := by
  obtain ⟨front, back, rfl, _⟩ := List.lookup_eq_some_iff.mp h
  exact List.mem_append_right _ List.mem_cons_self

/-- The part of a scope under some names has nothing that the scope does not have. -/
theorem Scope.read_narrow_cases (scope : Scope) (names : List String) (name : String) :
    (scope.narrow names).read name = .undefined ∨
      (scope.narrow names).read name = scope.read name := by
  unfold Scope.read
  cases found : (scope.narrow names).get? name with
  | none => exact .inl rfl
  | some v =>
    have entry := Table.mem_of_mem_ofEntries (mem_of_lookup found)
    obtain ⟨other, _, same⟩ := List.mem_filterMap.mp entry
    obtain ⟨w, present, same⟩ := Option.map_eq_some_iff.mp same
    cases same
    rw [present]
    exact .inr rfl

theorem Scope.Fits.narrow {heap : Heap} {scope : Scope} (h : scope.Fits heap)
    (names : List String) : (scope.narrow names).Fits heap := by
  intro name
  rcases scope.read_narrow_cases names name with same | same
  · rw [same]
    exact .scalar _ rfl
  · rw [same]
    exact h name

/-- Everything in the value of a binding is on the heap. -/
def Computed.Fits (heap : Heap) (c : Computed) : Prop := ∀ v ∈ c.toArgs, v.Fits heap

theorem Computed.Fits.mono {heap more : Heap} {c : Computed} (h : c.Fits heap)
    (le : more.Extends heap) : c.Fits more := fun v hv => (h v hv).mono le

theorem Computed.Alike.fits {heap : Heap} {c : Computed} (h : Computed.Alike heap.diagonal c c) :
    c.Fits heap := by
  cases h with
  | value h =>
    intro v hv
    cases List.mem_singleton.mp hv
    exact Host.fits_of_alike_diagonal h
  | args h => exact fun v hv => Host.fits_of_alike_diagonal (List.forall₂_same.mp h v hv)

namespace Host

variable {host : Host κ} {held : κ → Heap} {heap : Heap} {s s' : Stage κ} {scope : Scope}

theorem Consistent.computeAll (consistent : host.Consistent held) {names : List String}
    {bindings : List Binding} {values : List (Binding × Computed)} (covers : heap.Covers held s)
    (fits : scope.Fits heap)
    (run : Template.computeAll host (scope.narrow names).read bindings s = .ok values s') :
    ∃ more : Heap, more.Extends heap ∧ more.Covers held s' ∧ ∀ p ∈ values, p.2.Fits more := by
  have together := (Template.computeAll_inStep consistent.coupling
    (fun name => (fits.narrow names name).diagonal) bindings).together
  obtain ⟨more, grown, covers', rel⟩ := consistent.run together covers run
  refine ⟨more, grown, covers', ?_⟩
  exact fun p hp => ((List.forall₂_same.mp rel) p hp).2.fits

theorem Consistent.holds (consistent : host.Consistent held) {condition : Condition} {b : Bool}
    (covers : heap.Covers held s) (fits : scope.Fits heap)
    (run : condition.holds host.calls scope s = .ok b s') :
    ∃ more : Heap, more.Extends heap ∧ more.Covers held s' := by
  have together := (condition.holds_inStep consistent.coupling fun name =>
    (fits name).diagonal).together
  obtain ⟨more, grown, covers', _⟩ := consistent.run together covers run
  exact ⟨more, grown, covers'⟩

/-- Two stages on which the same values are known start out coupled. -/
theorem Pure.coupled {kept : Heap} (pure : host.Pure kept) {heap' : Heap} {t : Stage κ}
    (covers : heap.Covers (fun _ => kept) s) (covers' : heap'.Covers (fun _ => kept) t) :
    pure.coupling.holds (Heap.diagonal fun v => heap v ∧ heap' v) s t := by
  refine ⟨⟨?_, ?_, ?_⟩, ?_⟩
  · rintro a b c d ⟨rfl, ha⟩ ⟨rfl, hc⟩ shared
    have same : a = c := covers.sound.single a c ha.1 hc.1 (shared.elim id id)
    exact ⟨same, same⟩
  · rintro a b r ⟨rfl, ha⟩ hr
    exact covers.sound.below a r ha.1 hr
  · rintro a b r ⟨rfl, ha⟩ hr
    exact covers'.sound.below a r ha.2 hr
  · exact fun v hv => ⟨rfl, covers.held v hv, covers'.held v hv⟩

theorem Pure.computeAll {kept : Heap} (pure : host.Pure kept) {heap' : Heap} {t t' : Stage κ}
    {names : List String} {bindings : List Binding} {values values' : List (Binding × Computed)}
    (covers : heap.Covers (fun _ => kept) s) (covers' : heap'.Covers (fun _ => kept) t)
    (fits : scope.Fits heap) (fits' : scope.Fits heap')
    (run : Template.computeAll host (scope.narrow names).read bindings s = .ok values s')
    (run' : Template.computeAll host (scope.narrow names).read bindings t = .ok values' t') :
    ∃ pairs, ComputedAlike pairs values values' := by
  have together := (Template.computeAll_inStep pure.coupling
    (fun name => ((fits.narrow names name).and (fits'.narrow names name)).diagonal) bindings).together
  obtain ⟨pairs, _, _, alike⟩ :=
    together _ s t (.refl _) (pure.coupled covers covers') values s' values' t' run run'
  exact ⟨pairs, alike⟩

theorem Pure.holds {kept : Heap} (pure : host.Pure kept) {heap' : Heap} {t t' : Stage κ}
    {condition : Condition} {b b' : Bool}
    (covers : heap.Covers (fun _ => kept) s) (covers' : heap'.Covers (fun _ => kept) t)
    (fits : scope.Fits heap) (fits' : scope.Fits heap')
    (run : condition.holds host.calls scope s = .ok b s')
    (run' : condition.holds host.calls scope t = .ok b' t') : b = b' := by
  have together := (condition.holds_inStep pure.coupling
    (fun name => ((fits name).and (fits' name)).diagonal)).together
  obtain ⟨_, _, _, same⟩ :=
    together _ s t (.refl _) (pure.coupled covers covers') b s' b' t' run run'
  exact same

/-! ## The document during evaluation -/

variable {α β : Type}

/-- The state in which a computation ends. -/
def ending {ε σ : Type} : EStateM.Result ε σ α → σ
  | .ok _ s | .error _ s => s

/-- The document is the same afterwards, whatever the outcome. -/
def Leaves (m : Eval (Stage κ) α) : Prop := ∀ s, (ending (m s)).document = s.document

theorem leaves_pure (a : α) : Leaves (pure a : Eval (Stage κ) α) := fun _ => rfl

theorem leaves_throw (e : EvalError) : Leaves (throw e : Eval (Stage κ) α) := fun _ => rfl

theorem Leaves.bind {m : Eval (Stage κ) α} {f : α → Eval (Stage κ) β} (h : Leaves m)
    (next : ∀ a, Leaves (f a)) : Leaves (m >>= f) := by
  intro s
  change (ending (EStateM.bind m f s)).document = s.document
  have first := h s
  unfold EStateM.bind
  split
  · rename_i a t run
    rw [run] at first
    exact (next a t).trans first
  · rename_i e t run
    rw [run] at first
    exact first

end Host

section

open Host

variable {host : Host κ} {env : String → Value}

mutual

theorem Expr.eval_leaves (quiet : host.Quiet) : ∀ e : Expr, Leaves (e.eval host.calls env)
  | .literal l => by rw [Expr.eval]; exact leaves_pure _
  | .ident name => by rw [Expr.eval]; exact leaves_pure _
  | .member e name => by
    rw [Expr.eval]
    refine (Expr.eval_leaves quiet e).bind fun base => ?_
    dsimp only
    split
    · exact leaves_throw _
    · exact leaves_pure _
  | .element e key => by
    rw [Expr.eval]
    refine (Expr.eval_leaves quiet e).bind fun base => ?_
    refine (Expr.eval_leaves quiet key).bind fun k => ?_
    dsimp only
    split
    · exact leaves_throw _
    · exact leaves_pure _
  | .call callee args => by
    rw [Expr.eval]
    refine (Expr.eval_leaves quiet callee).bind fun target => ?_
    split
    · refine (Expr.evalAll_leaves quiet args).bind fun vs => ?_
      exact fun s => quiet _ vs s
    · exact leaves_throw _
  | .list items => by
    rw [Expr.eval]
    exact (Expr.evalAll_leaves quiet items).bind fun vs => fun s => rfl
  | .unary op e => by
    rw [Expr.eval]
    exact (Expr.eval_leaves quiet e).bind fun a => leaves_pure _
  | .binary op left right => by
    have first := Expr.eval_leaves quiet left
    have second := Expr.eval_leaves quiet right
    cases op
    case and =>
      rw [Expr.eval]
      refine first.bind fun a => ?_
      split
      · exact second
      · exact leaves_pure _
    case or =>
      rw [Expr.eval]
      refine first.bind fun a => ?_
      split
      · exact leaves_pure _
      · exact second
    all_goals
      simp only [Expr.eval]
      exact first.bind fun a => second.bind fun b => leaves_pure _
  | .conditional test yes no => by
    rw [Expr.eval]
    refine (Expr.eval_leaves quiet test).bind fun a => ?_
    split
    · exact Expr.eval_leaves quiet yes
    · exact Expr.eval_leaves quiet no

theorem Expr.evalAll_leaves (quiet : host.Quiet) :
    ∀ es : List Expr, Leaves (Expr.evalAll host.calls env es)
  | [] => by rw [Expr.evalAll]; exact leaves_pure _
  | e :: rest => by
    rw [Expr.evalAll]
    exact (Expr.eval_leaves quiet e).bind fun v =>
      (Expr.evalAll_leaves quiet rest).bind fun vs => leaves_pure _

end

theorem Interpolation.eval_leaves (quiet : host.Quiet) (i : Interpolation) :
    Leaves (i.eval host.calls env) := by
  have rest (parts : List (Span × String)) :
      Leaves (Interpolation.evalRest host.calls env parts) := by
    induction parts with
    | nil => exact leaves_pure _
    | cons head parts ih =>
      exact (head.1.expr.eval_leaves quiet).bind fun v => ih.bind fun tail => leaves_pure _
  unfold Interpolation.eval
  split
  · exact Expr.eval_leaves quiet _
  · exact (rest i.rest).bind fun tail => leaves_pure _

theorem Binding.compute_leaves (quiet : host.Quiet) (b : Binding) :
    Leaves (b.compute host.calls env) := by
  have action : Leaves (b.action.compute host.calls env) := by
    cases b.action with
    | setText content => exact (content.eval_leaves quiet).bind fun v => leaves_pure _
    | replaceClass content => exact (content.eval_leaves quiet).bind fun v => leaves_pure _
    | setAttribute name content => exact (content.eval_leaves quiet).bind fun v => leaves_pure _
    | applyDirective name d e => exact (e.eval_leaves quiet).bind fun v => leaves_pure _
    | setEventData event args =>
      exact (Expr.evalAll_leaves quiet args).bind fun vs => leaves_pure _
  cases found : b.action with
  | applyDirective name directive e =>
    intro s
    have same := action s
    simp only [Binding.compute, found] at same ⊢
    split
    · rename_i run
      rw [run] at same
      exact same
    · rename_i run
      rw [run] at same
      exact same
  | _ =>
    simp only [Binding.compute, found]
    rw [found] at action
    exact action

theorem Template.computeAll_leaves (quiet : host.Quiet) (bindings : List Binding) :
    Leaves (Template.computeAll host env bindings) := by
  induction bindings with
  | nil => exact leaves_pure _
  | cons b rest ih =>
    exact (b.compute_leaves quiet).bind fun v => ih.bind fun vs => leaves_pure _

theorem Condition.check_leaves (quiet : host.Quiet) (scope : Scope) (condition : Condition) :
    Leaves (condition.check host scope) := by
  have holds : Leaves (condition.holds host.calls scope) := by
    cases condition with
    | always => exact leaves_pure _
    | ident name => exact leaves_pure _
    | predicate params body => exact (body.eval_leaves quiet).bind fun v => leaves_pure _
    | expression e => exact (e.eval_leaves quiet).bind fun v => leaves_pure _
  intro s
  have same := holds s
  unfold Condition.check
  split
  · rename_i run
    rw [run] at same
    exact same
  · rename_i run
    rw [run] at same
    exact same

end
end LiveTemplate
