import LiveTemplate.Proofs.Operations
import LiveTemplate.Template.Build

/-!
# LiveTemplate.Proofs.Plans

Positions in a plan. A position is the way from the root, as indexes among the children; every
fact about a built plan is stated by position.

  * `Plan.at?`     the part of a plan at a position
  * `Plan.marks`   the anchors with their positions, in the order in which building finds them
  * `Plan.holes`   the extension points with theirs
-/

namespace LiveTemplate
namespace Plan

def kids : Plan → List Plan
  | .element _ _ _ kids _ => kids
  | _ => []

def anchor? : Plan → Option Nat
  | .element _ _ _ _ anchor | .text _ anchor => anchor
  | _ => none

def wirings : Plan → List Wiring
  | .element _ _ handlers _ _ => handlers
  | _ => []

mutual

/-- The handlers of all nodes, in the order in which building wires them. -/
def allWirings : Plan → List Wiring
  | .element _ _ handlers kids _ => handlers ++ wiringsOf kids
  | .text _ _ | .comment _ | .placeholder _ => []

def wiringsOf : List Plan → List Wiring
  | [] => []
  | plan :: rest => plan.allWirings ++ wiringsOf rest

end

/-- The extension point that a part stands in for. -/
def hole? : Plan → Option Nat
  | .placeholder index => some index
  | _ => none

/-- What the node of a plan holds before any binding is written. -/
def content : Plan → Content
  | .element tag attributes _ _ _ =>
    attributes.foldl (fun c (name, value) => c.withAttribute name value) (.element tag [] [])
  | .text content _ => .text content
  | .comment content => .comment content
  | .placeholder _ => .comment ""

mutual

/-- The part at a position. -/
def at? : Plan → List Nat → Option Plan
  | plan, [] => some plan
  | .element _ _ _ kids _, i :: q => atKid? kids i q
  | _, _ :: _ => none

def atKid? : List Plan → Nat → List Nat → Option Plan
  | [], _, _ => none
  | kid :: _, 0, q => kid.at? q
  | _ :: rest, i + 1, q => atKid? rest i q

end

/-- The position under the next child. -/
def bump : List Nat → List Nat
  | [] => []
  | i :: q => (i + 1) :: q

mutual

/-- The parts with a key, by position, the one built last in front. -/
def collect (key : Plan → Option Nat) : Plan → List (Nat × List Nat)
  | plan@(.element _ _ _ kids _) => (key plan).toList.map (·, []) ++ collectKids key kids
  | plan => (key plan).toList.map (·, [])

def collectKids (key : Plan → Option Nat) : List Plan → List (Nat × List Nat)
  | [] => []
  | kid :: rest =>
    (collectKids key rest).map (fun m => (m.1, bump m.2)) ++
      (kid.collect key).map (fun m => (m.1, 0 :: m.2))

end

/-- The anchors with their positions. -/
def marks (plan : Plan) : List (Nat × List Nat) := plan.collect anchor?

/-- The extension points with their positions. -/
def holes (plan : Plan) : List (Nat × List Nat) := plan.collect hole?

@[simp] theorem at?_nil (plan : Plan) : plan.at? [] = some plan := by
  cases plan <;> rfl

theorem atKid?_eq (kids : List Plan) (i : Nat) (q : List Nat) :
    atKid? kids i q = kids[i]?.bind (·.at? q) := by
  induction kids generalizing i with
  | nil => rfl
  | cons kid rest ih =>
    cases i with
    | zero => rfl
    | succ i => exact ih i

theorem at?_cons (plan : Plan) (i : Nat) (q : List Nat) :
    plan.at? (i :: q) = plan.kids[i]?.bind (·.at? q) := by
  cases plan with
  | element tag attributes handlers kids anchor => exact atKid?_eq kids i q
  | _ => rfl

theorem at?_append (plan : Plan) (q r : List Nat) :
    plan.at? (q ++ r) = (plan.at? q).bind (·.at? r) := by
  induction q generalizing plan with
  | nil => simp
  | cons i q ih =>
    rw [List.cons_append, at?_cons, at?_cons]
    cases plan.kids[i]? with
    | none => rfl
    | some kid => exact ih kid

/-- A child of the part at a position. -/
theorem at?_snoc {plan p : Plan} {q : List Nat} (h : plan.at? q = some p) (i : Nat) :
    plan.at? (q ++ [i]) = p.kids[i]? := by
  rw [at?_append, h, Option.bind_some, at?_cons]
  cases p.kids[i]? <;> simp

/-! ## Parts with a key -/

theorem mem_own {key : Plan → Option Nat} {plan : Plan} {k : Nat} {q : List Nat} :
    (k, q) ∈ (key plan).toList.map (·, ([] : List Nat)) ↔ q = [] ∧ key plan = some k := by
  cases key plan with
  | none => simp
  | some l => simp [eq_comm, and_comm]

theorem mem_collect_leaf {key : Plan → Option Nat} {plan : Plan} {k : Nat} {q : List Nat}
    (own : plan.collect key = (key plan).toList.map (·, []))
    (leaf : ∀ i r, plan.at? (i :: r) = none) :
    (k, q) ∈ plan.collect key ↔ ∃ p, plan.at? q = some p ∧ key p = some k := by
  rw [own, mem_own]
  constructor
  · rintro ⟨rfl, h⟩
    exact ⟨plan, at?_nil plan, h⟩
  · rintro ⟨p, found, h⟩
    cases q with
    | nil => rw [at?_nil] at found; cases found; exact ⟨rfl, h⟩
    | cons i r => rw [leaf] at found; cases found

mutual

theorem mem_collect {key : Plan → Option Nat} : ∀ {plan : Plan} {k : Nat} {q : List Nat},
    (k, q) ∈ plan.collect key ↔ ∃ p, plan.at? q = some p ∧ key p = some k
  | .element tag attributes handlers kids anchor, k, q => by
    rw [collect, List.mem_append, mem_own, mem_collectKids]
    constructor
    · rintro (⟨rfl, own⟩ | ⟨i, r, p, rfl, found, own⟩)
      · exact ⟨_, at?_nil _, own⟩
      · exact ⟨p, found, own⟩
    · rintro ⟨p, found, own⟩
      cases q with
      | nil => rw [at?_nil] at found; cases found; exact .inl ⟨rfl, own⟩
      | cons i r => exact .inr ⟨i, r, p, rfl, found, own⟩
  | .text content anchor, k, q => mem_collect_leaf rfl fun i r => rfl
  | .comment content, k, q => mem_collect_leaf rfl fun i r => rfl
  | .placeholder index, k, q => mem_collect_leaf rfl fun i r => rfl

theorem mem_collectKids {key : Plan → Option Nat} : ∀ {kids : List Plan} {k : Nat} {q : List Nat},
    (k, q) ∈ collectKids key kids ↔
      ∃ i r p, q = i :: r ∧ atKid? kids i r = some p ∧ key p = some k
  | [], k, q => by
    refine ⟨fun h => (List.not_mem_nil h).elim, ?_⟩
    rintro ⟨i, r, p, _, found, _⟩
    cases found
  | kid :: rest, k, q => by
    rw [collectKids, List.mem_append, List.mem_map, List.mem_map]
    constructor
    · rintro (⟨⟨s, r⟩, later, same⟩ | ⟨⟨s, r⟩, here, same⟩)
      · obtain ⟨i, r, p, rfl, found, own⟩ := mem_collectKids.mp later
        cases same
        exact ⟨i + 1, r, p, rfl, found, own⟩
      · obtain ⟨p, found, own⟩ := mem_collect.mp here
        cases same
        exact ⟨0, r, p, rfl, found, own⟩
    · rintro ⟨i, r, p, rfl, found, own⟩
      cases i with
      | zero => exact .inr ⟨(k, r), mem_collect.mpr ⟨p, found, own⟩, rfl⟩
      | succ i =>
        exact .inl ⟨(k, i :: r), mem_collectKids.mpr ⟨i, r, p, rfl, found, own⟩, rfl⟩

end

theorem mem_marks {plan : Plan} {slot : Nat} {q : List Nat} :
    (slot, q) ∈ plan.marks ↔ ∃ p, plan.at? q = some p ∧ p.anchor? = some slot :=
  mem_collect

theorem mem_holes {plan : Plan} {index : Nat} {q : List Nat} :
    (index, q) ∈ plan.holes ↔ plan.at? q = some (.placeholder index) := by
  unfold holes
  rw [mem_collect]
  constructor
  · rintro ⟨p, found, own⟩
    cases p <;> cases own
    exact found
  · exact fun found => ⟨_, found, rfl⟩

end Plan
end LiveTemplate
