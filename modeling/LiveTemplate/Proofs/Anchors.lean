import LiveTemplate.Proofs.Readers

/-!
# LiveTemplate.Proofs.Anchors

Anchors as names. No two bindings of a template have the same anchor, so that a snapshot has one
entry for each binding, with the value that the pass computed for it. And no two anchors print the
same, whatever attributes, events and directives are called: the path has only slashes and digits,
and the mark behind it starts with neither.

  * `Path.text_injective`          paths by their text
  * `Anchor.text_injective`        anchors by theirs
  * `Template.snapshot_faithful`   the main result
-/

namespace LiveTemplate

/-! ## Printed paths -/

/-- Two texts that part where a class of characters ends part in the same place. -/
theorem parts_alike {p : Char → Bool} {front front' back back' : List Char}
    (inside : ∀ c ∈ front, p c = true) (inside' : ∀ c ∈ front', p c = true)
    (ends : back.takeWhile p = []) (ends' : back'.takeWhile p = [])
    (same : front ++ back = front' ++ back') : front = front' ∧ back = back' := by
  have fronts := congrArg (List.takeWhile p) same
  rw [List.takeWhile_append_of_pos inside, List.takeWhile_append_of_pos inside', ends, ends',
    List.append_nil, List.append_nil] at fronts
  subst fronts
  exact ⟨rfl, List.append_cancel_left same⟩

namespace Path

/-- A position, as it stands in a printed path. -/
def step (index : UInt32) : List Char := '/' :: Nat.toDigits 10 index.toNat

def steps (indexes : List UInt32) : List Char := indexes.flatMap step

theorem toList_text (path : Path) :
    path.text.toList = if path.isRoot then ['/'] else steps path.indexes := by
  have one (i : UInt32) : (s!"/{i.toNat}").toList = step i := by
    simp [step, toString, Nat.repr]
  unfold text
  split
  · rfl
  · rw [String.join_eq, String.toList_ofList, List.map_map, steps, List.flatMap_def]
    congr 1
    exact List.map_congr_left fun i _ => one i

theorem takeWhile_steps (indexes : List UInt32) : (steps indexes).takeWhile Char.isDigit = [] := by
  cases indexes <;> rfl

theorem isDigit_of_mem {n : Nat} {c : Char} (mem : c ∈ Nat.toDigits 10 n) : c.isDigit = true :=
  Nat.isDigit_of_mem_toDigits (by decide) (by decide) mem

theorem toDigits_injective {m n : Nat} (same : Nat.toDigits 10 m = Nat.toDigits 10 n) : m = n :=
  Nat.repr_injective (congrArg String.ofList same)

/-- Each position ends where the next slash is. -/
theorem steps_injective : ∀ {is js : List UInt32}, steps is = steps js → is = js
  | [], [], _ => rfl
  | [], _ :: _, same => by cases same
  | _ :: _, [], same => by cases same
  | i :: is, j :: js, same => by
    obtain ⟨first, rest⟩ := parts_alike (fun _ => isDigit_of_mem) (fun _ => isDigit_of_mem)
      (takeWhile_steps is) (takeWhile_steps js) (List.cons_eq_cons.mp same).2
    rw [UInt32.toNat_inj.mp (toDigits_injective first), steps_injective rest]

/-- Only the root prints as a slash alone. -/
theorem text_injective : Function.Injective text := by
  rintro ⟨is⟩ ⟨js⟩ same
  have same := congrArg String.toList same
  rw [toList_text, toList_text] at same
  have longer (i : UInt32) (is : List UInt32) : ['/'] ≠ steps (i :: is) := by
    intro same
    have none := (List.append_eq_nil_iff.mp (List.cons_eq_cons.mp same).2.symm).1
    exact Nat.toDigits_ne_nil none
  cases is with
  | nil =>
    cases js with
    | nil => rfl
    | cons j js => exact absurd same (longer j js)
  | cons i is =>
    cases js with
    | nil => exact absurd same.symm (longer i is)
    | cons j js => exact congrArg Path.mk (steps_injective same)

/-- Slashes and digits. -/
def isPrinted (c : Char) : Bool := c == '/' || c.isDigit

theorem isPrinted_of_mem {path : Path} {c : Char} (mem : c ∈ path.text.toList) :
    isPrinted c = true := by
  rw [toList_text] at mem
  split at mem
  · rw [List.mem_singleton.mp mem]
    rfl
  · obtain ⟨i, -, mem⟩ := List.mem_flatMap.mp mem
    rcases List.mem_cons.mp mem with rfl | mem
    · rfl
    · exact Bool.or_eq_true_iff.mpr (.inr (isDigit_of_mem mem))

end Path

/-! ## Printed anchors -/

theorem Facet.takeWhile_mark (facet : Facet) :
    facet.mark.toList.takeWhile Path.isPrinted = [] := by
  cases facet with
  | text => decide
  | _ name => rw [mark, String.toList_append]; rfl

theorem Facet.mark_injective : Function.Injective mark := by
  rintro (_ | name | name | name) (_ | name' | name' | name') same <;>
    have same := congrArg String.toList same <;>
    simp [mark, String.toList_inj] at same ⊢ <;> exact same

theorem Anchor.text_injective : Function.Injective text := by
  rintro ⟨path, facet⟩ ⟨path', facet'⟩ same
  have same := congrArg String.toList same
  rw [text, text, String.toList_append, String.toList_append] at same
  obtain ⟨front, back⟩ := parts_alike (fun _ => Path.isPrinted_of_mem)
    (fun _ => Path.isPrinted_of_mem) facet.takeWhile_mark facet'.takeWhile_mark same
  obtain rfl : path = path' := Path.text_injective (String.toList_injective front)
  obtain rfl : facet = facet' := Facet.mark_injective (String.toList_injective back)
  rfl

/-- Looking up the printed anchor is looking up the anchor. -/
theorem Snapshot.getByName?_text (snapshot : Snapshot) (anchor : Anchor) :
    snapshot.getByName? anchor.text = snapshot.get? anchor := by
  unfold getByName? get?
  induction snapshot.values with
  | nil => rfl
  | cons entry rest ih =>
    obtain ⟨other, computed⟩ := entry
    rw [List.find?_cons, List.lookup_cons]
    dsimp only
    by_cases same : other = anchor
    · rw [same, decide_eq_true rfl, beq_self_eq_true]
      rfl
    · rw [decide_eq_false fun text => same (Anchor.text_injective text),
        beq_false_of_ne (Ne.symm same)]
      exact ih

/-! ## Snapshots -/

namespace Template

variable {κ : Type} {host : Host κ}

/-- The value of a binding is computed where the bindings before it have left the stage. -/
theorem computeAll_append {env : String → Value} {front back : List Binding} {b : Binding}
    {s s' : Stage κ} {values : List (Binding × Computed)}
    (run : computeAll host env (front ++ b :: back) s = .ok values s') :
    ∃ earlier u value u', computeAll host env front s = .ok earlier u ∧
      b.compute host.calls env u = .ok value u' ∧ (b, value) ∈ values := by
  induction front generalizing s values with
  | nil =>
    obtain ⟨c, s₁, first, run⟩ := ok_of_bind run
    obtain ⟨more, s₂, -, run⟩ := ok_of_bind run
    cases run
    exact ⟨[], s, c, s₁, rfl, first, List.mem_cons_self⟩
  | cons a front ih =>
    obtain ⟨c, s₁, first, run⟩ := ok_of_bind run
    obtain ⟨more, s₂, others, run⟩ := ok_of_bind run
    cases run
    obtain ⟨earlier, u, value, u', before, computed, mem⟩ := ih others
    refine ⟨(a, c) :: earlier, u, value, u', ?_, computed, List.mem_cons_of_mem _ mem⟩
    rw [computeAll, bind_of_ok first, bind_of_ok before]
    rfl

/-- The anchors of the bindings are distinct, and they are the keys of every snapshot, each with the
value that the pass computed for its binding: the one that comes of computing the binding behind all
those before it. Printed anchors are distinct too, so looking one up by its text is the same. -/
theorem snapshot_faithful {t : Template} (compiled : t.Compiled (fun _ _ => True) fun _ => True) :
    (t.bindings.map Binding.anchor).Nodup ∧
    (∀ (host : Host κ) (scope : Scope) (root : NodeId) (previous : Option Snapshot)
      (s s' : Stage κ) (snapshot : Snapshot),
      t.update host scope root previous s = .ok snapshot s' →
        snapshot.values.map Prod.fst = t.bindings.map Binding.anchor ∧
        ∀ front b back, t.bindings = front ++ b :: back → ∃ earlier u value u',
          computeAll host (scope.narrow t.vars).read front s = .ok earlier u ∧
          b.compute host.calls (scope.narrow t.vars).read u = .ok value u' ∧
          snapshot.get? b.anchor = some value) ∧
    Function.Injective Anchor.text ∧
    ∀ (snapshot : Snapshot) (a : Anchor), snapshot.getByName? a.text = snapshot.get? a := by
  have each : t.Each (Fine False False) :=
    Compiled.each compiled (fun loose => loose.elim) fun _ _ => False.elim
  have distinct := (Template.each_iff.mp each).1.tidy.distinct
  refine ⟨distinct, fun host scope root previous s s' snapshot run => ?_, Anchor.text_injective,
    Snapshot.getByName?_text⟩
  obtain ⟨values, mid, computed, -, rfl⟩ := update_ok run
  have bound := (computeAll_values computed).1
  refine ⟨?_, fun front b back split => ?_⟩
  · rw [← bound, snapshotOf, List.map_map, List.map_map]
    rfl
  · rw [split] at computed
    obtain ⟨earlier, u, value, u', before, here, mem⟩ := computeAll_append computed
    exact ⟨earlier, u, value, u', before, here, get?_snapshotOf _ distinct bound mem⟩

/-- With the directives that every registry starts with, nothing else is needed. -/
theorem compiled_of_standard {t : Template} {m : Markup} {id next : TemplateId}
    (run : compile .standard id m = .ok (t, next)) :
    t.Compiled (fun _ _ => True) fun _ => True := by
  refine .intro (fun _ _ _ => trivial) (fun name t found => ?_) (fun tag t found => ?_) trivial run
  · cases Registry.standard_builtIn found
  · cases found

/-- The text below the root of `Sample.mixed`, by its printed anchor. -/
theorem snapshot_faithful_mixed : ∃ t next root children start first s,
    compile .standard 0 Sample.mixed = .ok (t, next) ∧
      t.create Sample.echo (Sample.scope "a" "x" true) Sample.blank = .ok (root, children) start ∧
      t.update Sample.echo (Sample.scope "a" "x" true) root none start = .ok first s ∧
      first.values.map Prod.fst = t.bindings.map Binding.anchor ∧
      first.getByName? "/0#text" = first.get? ⟨⟨[0]⟩, .text⟩ := by
  have told : Sample.writesThree = true := by decide +kernel
  unfold Sample.writesThree at told
  split at told
  · cases told
  case h_2 t next compiled =>
  split at told
  · cases told
  case h_2 root children start created =>
  split at told
  · cases told
  case h_2 first s once =>
  obtain ⟨-, keyed, -, named⟩ := snapshot_faithful (compiled_of_standard compiled)
  have keys := (keyed _ _ _ _ _ _ _ once).1
  exact ⟨t, next, root, children, start, first, s, compiled, created, once, keys,
    named first ⟨⟨[0]⟩, .text⟩⟩

end Template
end LiveTemplate
