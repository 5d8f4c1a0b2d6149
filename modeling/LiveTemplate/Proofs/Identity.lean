import LiveTemplate.Proofs.Readers

/-!
# LiveTemplate.Proofs.Identity

Leaving out a value that is identical to the last one does not show. Identical values are written
alike: they have the same text, the same truth and the same type, and they are loosely equal. The
one thing that sets them apart, the sign of zero, is seen by none of these.

  * `Value.Interchangeable`       what is the same for identical values
  * `Value.identical_comm`, `Value.looselyEqual_comm`   which of two values comes first
  * `Binding.write_identical`     what is written for either of them
  * `identical_interchangeable`   the main result
-/

namespace LiveTemplate

namespace Value

theorem identical_comm (a b : Value) : a.identical b = b.identical a := by
  cases a <;> cases b <;> first | exact Number.beq_comm _ _ | exact BEq.comm | rfl

/-- Whether two values are compared by number does not depend on which comes first. -/
theorem looselyEqual_comm (a b : Value) : a.looselyEqual b = b.looselyEqual a := by
  have same := identical_comm a b
  have number := Number.beq_comm a.toNumber b.toNumber
  cases a <;> cases b <;> first | exact number | exact same | rfl

theorem typeName_of_identical {a b : Value} (h : a.identical b = true) :
    a.typeName = b.typeName := by
  cases a <;> cases b <;> first | rfl | cases h

/-- Values of one type are compared by identity, or they are both nullish. -/
theorem looselyEqual_of_identical {a b : Value} (h : a.identical b = true) :
    a.looselyEqual b = true := by
  cases a <;> cases b <;> first | exact h | cases h

/-- What a write can see of a value is the same for both. -/
structure Interchangeable (a b : Value) : Prop where
  text : a.text = b.text
  truth : a.isTruthy = b.isTruthy
  kind : a.typeName = b.typeName
  equal : a.looselyEqual b = true

theorem interchangeable_of_identical {a b : Value} (shared : a.Shares b → a = b)
    (h : a.identical b = true) : a.Interchangeable b where
  text := (close_of_shared shared h).text
  truth := (close_of_shared shared h).isTruthy
  kind := typeName_of_identical h
  equal := looselyEqual_of_identical h

end Value

namespace Computed

/-- Values are compared with values, and arguments with arguments one by one. -/
theorem identical_iff {c d : Computed} : c.identical d = true ↔
    c.asValue?.isSome = d.asValue?.isSome ∧
      List.Forall₂ (fun v w => v.identical w = true) c.toArgs d.toArgs := by
  cases c <;> cases d <;>
    simp [identical, asValue?, toArgs, List.forall₂_iff_zip, List.all_eq_true]

theorem identical_comm (c d : Computed) : c.identical d = d.identical c := by
  have flip {c d : Computed} (h : c.identical d = true) : d.identical c = true := by
    obtain ⟨form, each⟩ := identical_iff.mp h
    refine identical_iff.mpr ⟨form.symm, each.flip.imp fun v w same => ?_⟩
    rwa [Value.identical_comm]
  exact Bool.eq_iff_iff.mpr ⟨flip, flip⟩

theorem interchangeable_of_identical {heap : Heap}
    (single : ∀ v w, heap v → heap w → v.Shares w → v = w) {c d : Computed} (fc : c.Fits heap)
    (fd : d.Fits heap) (h : c.identical d = true) :
    List.Forall₂ Value.Interchangeable c.toArgs d.toArgs := by
  obtain ⟨length, each⟩ := List.forall₂_iff_zip.mp (identical_iff.mp h).2
  refine List.forall₂_iff_zip.mpr ⟨length, fun {v w} mem => ?_⟩
  obtain ⟨hv, hw⟩ := List.of_mem_zip mem
  exact Value.interchangeable_of_identical ((fc v hv).eq_of_shares single (fd w hw)) (each mem)

theorem text_of_interchangeable {c d : Computed} (form : c.asValue?.isSome = d.asValue?.isSome)
    (each : List.Forall₂ Value.Interchangeable c.toArgs d.toArgs) : c.text = d.text := by
  have texts : c.toArgs.map Value.text = d.toArgs.map Value.text := by
    refine List.forall₂_eq_eq_eq ▸ ?_
    rw [List.forall₂_map_left_iff, List.forall₂_map_right_iff]
    exact each.imp fun _ _ h => h.text
  cases c <;> cases d
  case value.value v w => exact List.head_eq_of_cons_eq texts
  case args.args vs ws => exact congrArg (fun ts => "(" ++ ", ".intercalate ts ++ ")") texts
  all_goals cases form

end Computed

/-- An action that keeps no value writes the same for both. -/
theorem Binding.write_identical {κ : Type} (host : Host κ) (id : NodeId) {c d : Computed}
    (form : c.asValue?.isSome = d.asValue?.isSome)
    (each : List.Forall₂ Value.Interchangeable c.toArgs d.toArgs) {action : Action}
    (own : action.isHosted = false) (passing : ∀ event args, action ≠ .setEventData event args)
    (s : Stage κ) : write host id c action s = write host id d action s := by
  have text := Computed.text_of_interchangeable form each
  cases action with
  | setText | replaceClass | setAttribute => simp only [write, text]
  | setEventData event args => exact absurd rfl (passing event args)
  | applyDirective name directive e =>
    cases directive with
    | host => cases own
    | toggle =>
      cases c <;> cases d
      case value.value v w =>
        cases each with
        | cons same _ => simp only [write, Computed.asValue?, same.truth]
      case args.args => rfl
      all_goals cases form

/-- Skipping a value that is identical to the last one does not show. Identity and loose equality do
not depend on which value comes first, and only NaN is not identical to itself. As long as a
reference names one list or map, identical values have the same text, truth and type and are
loosely equal. For arguments all this holds one by one. So the text, the class, the attribute and
the visibility that are written come out the same, and the arguments that an event keeps differ in
nothing of the above. -/
theorem identical_interchangeable {heap : Heap}
    (single : ∀ v w, heap v → heap w → v.Shares w → v = w) :
    (∀ a b : Value, a.identical b = b.identical a ∧ a.looselyEqual b = b.looselyEqual a) ∧
    (∀ a : Value, a.identical a = !a.isNaN) ∧
    (∀ a b : Value, a.Fits heap → b.Fits heap → a.identical b = true → a.Interchangeable b) ∧
    (∀ c d : Computed, c.identical d = d.identical c) ∧
    (∀ c : Computed, c.identical c = !c.hasNaN) ∧
    ∀ c d : Computed, c.Fits heap → d.Fits heap → c.identical d = true →
      c.text = d.text ∧ List.Forall₂ Value.Interchangeable c.toArgs d.toArgs ∧
      ∀ (κ : Type) (host : Host κ) (id : NodeId) (action : Action) (s : Stage κ),
        action.isHosted = false → (∀ event args, action ≠ .setEventData event args) →
          Binding.write host id c action s = Binding.write host id d action s := by
  refine ⟨fun a b => ⟨Value.identical_comm a b, Value.looselyEqual_comm a b⟩, Value.identical_self,
    fun a b fa fb h => ?_, Computed.identical_comm, Computed.identical_self, fun c d fc fd h => ?_⟩
  · exact Value.interchangeable_of_identical (fa.eq_of_shares single fb) h
  · have form := (Computed.identical_iff.mp h).1
    have each := Computed.interchangeable_of_identical single fc fd h
    refine ⟨Computed.text_of_interchangeable form each, each, ?_⟩
    intro κ host id action s own passing
    exact Binding.write_identical host id form each own passing s

/-- The two zeros and a list that is passed twice. -/
theorem identical_interchangeable_zeros :
    let shared : Value := .list 0 [.number Number.nan, .null]
    let c : Computed := .args [.number 0, shared]
    let d : Computed := .args [.number (-0.0), shared]
    c.identical d = true ∧ c.text = d.text ∧ c.text = "(0, NaN,)" := by
  intro shared c d
  have scalar {x : Float} : Value.Fits (· = shared) (.number x) := .scalar _ rfl
  have held : Value.Fits (· = shared) shared := by
    refine .list rfl fun v mem => ?_
    rcases List.mem_pair.mp mem with rfl | rfl
    · exact scalar
    · exact .scalar _ rfl
  have fits {x : Float} : (Computed.args [.number x, shared]).Fits (· = shared) := by
    intro v mem
    rcases List.mem_pair.mp mem with rfl | rfl
    · exact scalar
    · exact held
  have same : c.identical d = true := by decide
  have single : ∀ v w, v = shared → w = shared → v.Shares w → v = w := by
    rintro v w rfl rfl _
    rfl
  obtain ⟨-, -, -, -, -, arguments⟩ := identical_interchangeable single
  exact ⟨same, (arguments c d fits fits same).1, by decide +kernel⟩

end LiveTemplate
