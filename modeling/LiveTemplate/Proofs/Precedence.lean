import LiveTemplate.Proofs.Tokens

/-!
# LiveTemplate.Proofs.Precedence

How a chain of operands and operators is grouped. Of all the trees that read, from left to right,
like the chain, one keeps to the levels of the operators and has signs on operands only, and that
tree is what the chain stands for.

  * `Chain.Operand`, `Chain.written`   a chain as it is written, operands with their signs
  * `Chain.Grouping`                   trees over what is written
  * `Grouping.eq_of_pieces`            at most one of them keeps to the levels
  * `Chain.resolve_groups`             the expression of a chain is one that does
  * `Chain.readExpr_spelled`           what is read is such a chain
-/

namespace LiveTemplate
namespace Chain

/-- What a chain is written with. The expression may be one in parentheses. -/
inductive Piece where
  | sign (op : UnaryOp)
  | base (e : Expr)
  | joint (op : BinaryOp)

/-- An operand with the signs before it. -/
structure Operand where
  signs : List UnaryOp
  base : Expr

namespace Operand

def expr (o : Operand) : Expr := o.signs.foldr .unary o.base

def pieces (o : Operand) : List Piece := o.signs.map .sign ++ [.base o.base]

end Operand

/-- An operand, and then again and again an operator with an operand. -/
def written (first : Operand) (rest : List (BinaryOp × Operand)) : List Piece :=
  first.pieces ++ rest.flatMap fun p => .joint p.1 :: p.2.pieces

/-- The chain that operands and operators make. -/
def ofOperands (first : Operand) (rest : List (BinaryOp × Operand)) : Chain :=
  ⟨first.expr, rest.map fun p => (p.1, p.2.expr)⟩

/-- A tree over pieces. -/
inductive Grouping where
  | base (e : Expr)
  | signed (op : UnaryOp) (g : Grouping)
  | joined (op : BinaryOp) (left right : Grouping)

namespace Grouping

/-- The tree read from left to right. -/
def pieces : Grouping → List Piece
  | .base e => [.base e]
  | .signed op g => .sign op :: g.pieces
  | .joined op left right => left.pieces ++ .joint op :: right.pieces

def expr : Grouping → Expr
  | .base e => e
  | .signed op g => .unary op g.expr
  | .joined op left right => .binary op left.expr right.expr

/-- The operator on top, unless that is a sign. -/
def joint? : Grouping → Option BinaryOp
  | .joined op _ _ => some op
  | _ => none

/-- Signs stand on operands and other signs. Left of an operator nothing binds looser than it, and
right of it everything binds tighter. -/
def Proper : Grouping → Prop
  | .base _ => True
  | .signed _ g => g.joint? = none ∧ g.Proper
  | .joined op left right =>
    (∀ o ∈ left.joint?, op.level ≤ o.level) ∧ (∀ o ∈ right.joint?, op.level < o.level) ∧
      left.Proper ∧ right.Proper

/-! ## One tree at most -/

/-- The operator on top binds loosest. -/
theorem level_le {g : Grouping} (proper : g.Proper) {k : Nat}
    (top : ∀ o ∈ g.joint?, k ≤ o.level) {op : BinaryOp} (mem : .joint op ∈ g.pieces) :
    k ≤ op.level := by
  induction g generalizing k with
  | base e => simp [pieces] at mem
  | signed sign g ih =>
    obtain ⟨bare, proper⟩ := proper
    refine ih proper (by simp [bare]) ?_
    simpa [pieces] using mem
  | joined o left right ihl ihr =>
    obtain ⟨hl, hr, properl, properr⟩ := proper
    have here : k ≤ o.level := top o rfl
    simp only [pieces, List.mem_append, List.mem_cons, Piece.joint.injEq] at mem
    rcases mem with mem | rfl | mem
    · exact ihl properl (fun o' h => Nat.le_trans here (hl o' h)) mem
    · exact here
    · exact ihr properr (fun o' h => Nat.le_trans here (Nat.le_of_lt (hr o' h))) mem

/-- A tree with no binary operator on top has none at all. -/
theorem not_joint_mem {g : Grouping} (proper : g.Proper) (bare : g.joint? = none) (op : BinaryOp) :
    .joint op ∉ g.pieces := fun mem => by
  have := level_le proper (k := op.level + 1) (by simp [bare]) mem
  omega

/-- Of two operators that each bind no tighter than what is left of them and looser than what is
right of them, neither stands before the other. -/
theorem nil_of_between {ls rs rs' between : List Piece} {op op' : BinaryOp}
    (same : .joint op :: rs = between ++ .joint op' :: rs')
    (right : ∀ o, .joint o ∈ rs → op.level < o.level)
    (left' : ∀ o, .joint o ∈ ls ++ between → op'.level ≤ o.level) : between = [] := by
  cases between with
  | nil => rfl
  | cons p between =>
    simp only [List.cons_append, List.cons.injEq] at same
    obtain ⟨rfl, rfl⟩ := same
    have tighter := right op' (by simp)
    have looser := left' op (by simp)
    omega

/-- The place of the operator on top: the last of the loosest. -/
theorem split_eq {ls ls' rs rs' : List Piece} {op op' : BinaryOp}
    (same : ls ++ .joint op :: rs = ls' ++ .joint op' :: rs')
    (left : ∀ o, .joint o ∈ ls → op.level ≤ o.level)
    (right : ∀ o, .joint o ∈ rs → op.level < o.level)
    (left' : ∀ o, .joint o ∈ ls' → op'.level ≤ o.level)
    (right' : ∀ o, .joint o ∈ rs' → op'.level < o.level) :
    ls = ls' ∧ op = op' ∧ rs = rs' := by
  rcases List.append_eq_append_iff.mp same with ⟨between, rfl, rest⟩ | ⟨between, rfl, rest⟩
  · obtain rfl := nil_of_between rest right left'
    simpa using rest
  · obtain rfl := nil_of_between rest right' left
    simpa [eq_comm] using rest

/-- Trees that keep to the levels and read alike are the same. -/
theorem eq_of_pieces {g g' : Grouping} (proper : g.Proper) (proper' : g'.Proper)
    (same : g.pieces = g'.pieces) : g = g' := by
  induction g generalizing g' with
  | base e =>
    cases g' with
    | base e' => simpa [pieces] using same
    | signed op' a' => simp [pieces] at same
    | joined op' l' r' =>
      have mem : Piece.joint op' ∈ (base e).pieces := by rw [same]; simp [pieces]
      simp [pieces] at mem
  | signed op a ih =>
    cases g' with
    | base e' => simp [pieces] at same
    | signed op' a' =>
      simp only [pieces, List.cons.injEq, Piece.sign.injEq] at same
      rw [same.1, ih proper.2 proper'.2 same.2]
    | joined op' l' r' =>
      have mem : Piece.joint op' ∈ (signed op a).pieces := by rw [same]; simp [pieces]
      exact absurd mem (not_joint_mem proper rfl op')
  | joined op l r ihl ihr =>
    have mem : Piece.joint op ∈ g'.pieces := by rw [← same]; simp [pieces]
    cases g' with
    | base e' => exact absurd mem (not_joint_mem proper' rfl op)
    | signed op' a' => exact absurd mem (not_joint_mem proper' rfl op)
    | joined op' l' r' =>
      obtain ⟨hl, hr, properl, properr⟩ := proper
      obtain ⟨hl', hr', properl', properr'⟩ := proper'
      obtain ⟨lefts, rfl, rights⟩ := split_eq same
        (fun o mem => level_le properl hl mem) (fun o mem => level_le properr hr mem)
        (fun o mem => level_le properl' hl' mem) fun o mem => level_le properr' hr' mem
      rw [ihl properl properl' lefts, ihr properr properr' rights]

end Grouping

/-! ## The tree that a chain stands for -/

open Grouping

/-- Left operands as trees, with their waiting operators, the innermost first. -/
abbrev Waiting := List (Grouping × BinaryOp)

namespace Waiting

def pending (w : Waiting) : Pending := w.map fun p => (p.1.expr, p.2)

/-- What was read before the operand that comes next. -/
def pieces : Waiting → List Piece
  | [] => []
  | (g, op) :: outer => pieces outer ++ g.pieces ++ [.joint op]

/-- Inner operators bind tighter than outer ones, and each can take its left operand. -/
def Rising : Waiting → Prop
  | [] => True
  | (g, op) :: outer =>
    (∀ p ∈ outer.head?, p.2.level < op.level) ∧ g.Proper ∧ (∀ o ∈ g.joint?, op.level ≤ o.level) ∧
      Rising outer

end Waiting

/-- Giving `right` to the waiting operators of a level keeps what is read. The operator that is on
top afterwards has at least that level, and those that still wait have a lower one. -/
theorem close_groups {level : Nat} {w : Waiting} (rising : w.Rising) {g : Grouping}
    (proper : g.Proper) (fits : ∀ o ∈ g.joint?, level ≤ o.level)
    (inner : ∀ o ∈ g.joint?, ∀ p ∈ w.head?, p.2.level < o.level) :
    ∃ (w' : Waiting) (g' : Grouping), close level w.pending g.expr = (w'.pending, g'.expr) ∧
      w'.pieces ++ g'.pieces = w.pieces ++ g.pieces ∧ w'.Rising ∧ g'.Proper ∧
      (∀ o ∈ g'.joint?, level ≤ o.level) ∧ ∀ p ∈ w'.head?, p.2.level < level := by
  induction w generalizing g with
  | nil =>
    refine ⟨[], g, rfl, rfl, trivial, proper, fits, fun p mem => ?_⟩
    cases mem
  | cons p outer ih =>
    obtain ⟨left, op⟩ := p
    obtain ⟨lower, properl, above, rising'⟩ := rising
    by_cases loose : level ≤ op.level
    · have grown : (Grouping.joined op left g).Proper :=
        ⟨above, fun o mem => inner o mem (left, op) rfl, properl, proper⟩
      obtain ⟨w', g', run, same, rest⟩ := @ih rising' (.joined op left g) grown
        (fun o mem => by cases mem; exact loose) (fun o mem => by cases mem; exact lower)
      refine ⟨w', g', ?_, ?_, rest⟩
      · rw [← run]
        exact if_pos loose
      · rw [same]
        simp [Waiting.pieces, Grouping.pieces]
    · refine ⟨(left, op) :: outer, g, if_neg loose, rfl, ⟨lower, properl, above, rising'⟩, proper,
        fits, fun p mem => ?_⟩
      cases mem
      exact Nat.lt_of_not_le loose

/-- An operand as a tree. -/
def Operand.grouping (o : Operand) : Grouping := o.signs.foldr .signed (.base o.base)

namespace Operand

theorem expr_grouping (o : Operand) : o.grouping.expr = o.expr := by
  obtain ⟨signs, e⟩ := o
  induction signs with
  | nil => rfl
  | cons op signs ih => exact congrArg (Expr.unary op) ih

theorem pieces_grouping (o : Operand) : o.grouping.pieces = o.pieces := by
  obtain ⟨signs, e⟩ := o
  induction signs with
  | nil => rfl
  | cons op signs ih => exact congrArg (Piece.sign op :: ·) ih

theorem joint?_grouping (o : Operand) : o.grouping.joint? = none := by
  obtain ⟨_ | _, _⟩ := o <;> rfl

theorem proper_grouping (o : Operand) : o.grouping.Proper := by
  obtain ⟨signs, e⟩ := o
  induction signs with
  | nil => trivial
  | cons op signs ih => exact ⟨joint?_grouping ⟨signs, e⟩, ih⟩

end Operand

theorem resolveFrom_groups {w : Waiting} (rising : w.Rising) (last : Operand)
    (rest : List (BinaryOp × Operand)) :
    ∃ g : Grouping,
      resolveFrom w.pending last.expr (rest.map fun p => (p.1, p.2.expr)) = g.expr ∧ g.Proper ∧
      g.pieces = w.pieces ++ written last rest := by
  have bare {P : BinaryOp → Prop} : ∀ o ∈ last.grouping.joint?, P o := by
    simp [last.joint?_grouping]
  induction rest generalizing w last with
  | nil =>
    obtain ⟨w', g, run, same, _, proper, _, low⟩ :=
      @close_groups 0 w rising last.grouping last.proper_grouping bare bare
    -- Every operator has level zero at least, so none is left waiting.
    obtain rfl : w' = [] := by
      cases w' with
      | nil => rfl
      | cons p w' => exact absurd (low p rfl) (Nat.not_lt_zero _)
    refine ⟨g, ?_, proper, ?_⟩
    · rw [List.map_nil, resolveFrom, ← last.expr_grouping, run]
    · simpa [Waiting.pieces, written, last.pieces_grouping] using same
  | cons p rest ih =>
    obtain ⟨op, next⟩ := p
    obtain ⟨w', g, run, same, rising', proper, high, low⟩ :=
      @close_groups op.level w rising last.grouping last.proper_grouping bare bare
    obtain ⟨g', result, proper', reads⟩ := @ih ((g, op) :: w') ⟨low, proper, high, rising'⟩ next
      (by simp [next.joint?_grouping])
    refine ⟨g', ?_, proper', ?_⟩
    · rw [List.map_cons, resolveFrom, ← last.expr_grouping, run]
      exact result
    · rw [last.pieces_grouping] at same
      rw [reads, Waiting.pieces, same]
      simp [written]

/-- The tree that keeps to the levels is what the chain stands for. -/
theorem resolve_groups (first : Operand) (rest : List (BinaryOp × Operand)) :
    ∃ g : Grouping, (∀ g' : Grouping, g'.pieces = written first rest ∧ g'.Proper ↔ g' = g) ∧
      (ofOperands first rest).resolve = g.expr := by
  obtain ⟨g, run, proper, reads⟩ := resolveFrom_groups (w := []) trivial first rest
  refine ⟨g, fun g' => ⟨fun ⟨same, proper'⟩ => ?_, ?_⟩, run⟩
  · exact eq_of_pieces proper' proper (same.trans reads.symm)
  · rintro rfl
    exact ⟨reads, proper⟩

/-! ## Texts -/

open LiveTemplate.Expr (skipSpace readPrimary readAccesses readInfix? readOperand readOperations
  readExpr)

/-- The text `cs` holds an operand in front of `behind`: signs, and then a primary expression with
its accesses. -/
inductive Operand.Spelled : List Char → Operand → List Char → Prop
  | base {n : Nat} {cs mid behind : List Char} {primary e : Expr}
      (unsigned : ∀ op : UnaryOp, (skipSpace cs).head? ≠ some op.symbol)
      (read : readPrimary n (skipSpace cs) = .ok (primary, mid))
      (accesses : readAccesses n primary mid = .ok (e, behind)) : Spelled cs ⟨[], e⟩ behind
  | sign {cs more behind : List Char} {signs : List UnaryOp} {e : Expr} (op : UnaryOp)
      (front : skipSpace cs = op.symbol :: more) (rest : Spelled more ⟨signs, e⟩ behind) :
      Spelled cs ⟨op :: signs, e⟩ behind

/-- The text holds operators with operands in front of `behind`, where no operator follows. -/
inductive Spelled : List Char → List (BinaryOp × Operand) → List Char → Prop
  | stop {cs : List Char} (none : readInfix? (skipSpace cs) = none) : Spelled cs [] cs
  | next {cs more mid behind : List Char} {op : BinaryOp} {o : Operand}
      {rest : List (BinaryOp × Operand)} (joint : readInfix? (skipSpace cs) = some (op, more))
      (operand : o.Spelled more mid) (others : Spelled mid rest behind) :
      Spelled cs ((op, o) :: rest) behind

theorem readOperand_spelled {n : Nat} {cs behind : List Char} {e : Expr}
    (read : readOperand n cs = .ok (e, behind)) :
    ∃ o : Operand, o.Spelled cs behind ∧ o.expr = e := by
  induction n generalizing cs e with
  | zero => cases read
  | succ n ih =>
    rw [readOperand] at read
    split at read
    case h_1 more front =>
      obtain ⟨⟨inner, _⟩, deeper, same⟩ := exists_of_bind_eq_ok read
      cases same
      obtain ⟨o, spelled, rfl⟩ := ih deeper
      exact ⟨⟨.not :: o.signs, o.base⟩, .sign .not front spelled, rfl⟩
    case h_2 more front =>
      obtain ⟨⟨inner, _⟩, deeper, same⟩ := exists_of_bind_eq_ok read
      cases same
      obtain ⟨o, spelled, rfl⟩ := ih deeper
      exact ⟨⟨.neg :: o.signs, o.base⟩, .sign .neg front spelled, rfl⟩
    case h_3 noNot noNeg =>
      obtain ⟨⟨primary, mid⟩, read, accesses⟩ := exists_of_bind_eq_ok read
      refine ⟨⟨[], e⟩, .base (fun op head => ?_) read accesses, rfl⟩
      obtain ⟨more, front⟩ := List.head?_eq_some_iff.mp head
      cases op with
      | not => exact noNot more front
      | neg => exact noNeg more front

theorem readOperations_spelled {n : Nat} {cs behind : List Char} {rest : List (BinaryOp × Expr)}
    (read : readOperations n cs = .ok (rest, behind)) :
    ∃ os, Spelled cs os behind ∧ (os.map fun p => (p.1, p.2.expr)) = rest := by
  induction n generalizing cs rest with
  | zero => cases read
  | succ n ih =>
    rw [readOperations] at read
    split at read
    case h_1 none =>
      cases read
      exact ⟨[], .stop none, rfl⟩
    case h_2 op more joint =>
      obtain ⟨⟨e, mid⟩, operand, read⟩ := exists_of_bind_eq_ok read
      obtain ⟨⟨others, _⟩, deeper, same⟩ := exists_of_bind_eq_ok read
      cases same
      obtain ⟨o, spelled, rfl⟩ := readOperand_spelled operand
      obtain ⟨os, others, rfl⟩ := ih deeper
      exact ⟨(op, o) :: os, .next joint spelled others, rfl⟩

/-- An expression is read as a chain, perhaps with the two branches of a conditional behind it. -/
theorem readExpr_spelled {n : Nat} {cs after : List Char} {e : Expr}
    (read : readExpr n cs = .ok (e, after)) :
    ∃ first rest mid behind, Operand.Spelled cs first mid ∧ Spelled mid rest behind ∧
      (e = (ofOperands first rest).resolve ∨
        ∃ yes no, e = .conditional (ofOperands first rest).resolve yes no) := by
  cases n with
  | zero => cases read
  | succ n =>
    rw [readExpr] at read
    obtain ⟨⟨_, mid⟩, operand, read⟩ := exists_of_bind_eq_ok read
    obtain ⟨⟨_, behind⟩, operations, read⟩ := exists_of_bind_eq_ok read
    obtain ⟨first, spelled, rfl⟩ := readOperand_spelled operand
    obtain ⟨rest, others, rfl⟩ := readOperations_spelled operations
    refine ⟨first, rest, mid, behind, spelled, others, ?_⟩
    dsimp only at read
    split at read
    · obtain ⟨⟨yes, _⟩, _, read⟩ := exists_of_bind_eq_ok read
      obtain ⟨_, _, read⟩ := exists_of_bind_eq_ok read
      obtain ⟨⟨no, _⟩, _, read⟩ := exists_of_bind_eq_ok read
      cases read
      exact .inr ⟨yes, no, rfl⟩
    · cases read
      exact .inl rfl

/-- Operators group by their levels, those of one level to the left, and signs bind tightest. For
every chain, of any length, one tree reads like it and keeps to that, and the chain is resolved to
this tree. Whatever is read as an expression is written as such a chain and resolved from it. -/
theorem resolve_unique_grouping :
    (∀ (first : Operand) (rest : List (BinaryOp × Operand)), ∃ g : Grouping,
      (∀ g' : Grouping, g'.pieces = written first rest ∧ g'.Proper ↔ g' = g) ∧
        (ofOperands first rest).resolve = g.expr) ∧
    ∀ {n : Nat} {cs after : List Char} {e : Expr}, readExpr n cs = .ok (e, after) →
      ∃ first rest mid behind, Operand.Spelled cs first mid ∧ Spelled mid rest behind ∧
        (e = (ofOperands first rest).resolve ∨
          ∃ yes no, e = .conditional (ofOperands first rest).resolve yes no) :=
  ⟨resolve_groups, readExpr_spelled⟩

example (a b c d : Expr) :
    (ofOperands ⟨[.not, .neg], a⟩ [(.add, ⟨[], b⟩), (.mul, ⟨[.neg], c⟩), (.sub, ⟨[], d⟩)]).resolve =
      .binary .sub (.binary .add (.unary .not (.unary .neg a)) (.binary .mul b (.unary .neg c)))
        d := rfl

end Chain
end LiveTemplate
