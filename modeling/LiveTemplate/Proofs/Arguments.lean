import LiveTemplate.Proofs.Recognition
import LiveTemplate.Template.Analysis

/-!
# LiveTemplate.Proofs.Arguments

Lists of arguments. The result of a derivation tells how its text was written, as far as no
parentheses stand around it: a list in brackets, a call as a name with its arguments.

  * `Derives.items_of_list`     a list
  * `Derives.items_of_call`     a call of a name
  * `argument_readers_agree`    arguments alone, in brackets, and behind a name are read alike
-/

namespace LiveTemplate

/-! ## What an expression was derived from -/

namespace Chain

theorem close_binary (outer : Pending) (op : BinaryOp) (left right : Expr) :
    ∃ op' left' right', (close 0 outer (.binary op left right)).2 = .binary op' left' right' := by
  induction outer generalizing op left right with
  | nil => exact ⟨op, left, right, rfl⟩
  | cons waiting outer ih =>
    rw [close, if_pos (Nat.zero_le _)]
    exact ih ..

theorem resolveFrom_binary {pending : Pending} (waiting : pending ≠ []) (last : Expr)
    (rest : List (BinaryOp × Expr)) :
    ∃ op left right, resolveFrom pending last rest = .binary op left right := by
  induction rest generalizing pending last with
  | nil =>
    obtain ⟨⟨left, op⟩, outer, rfl⟩ := List.exists_cons_of_ne_nil waiting
    rw [resolveFrom, close, if_pos (Nat.zero_le _)]
    exact close_binary ..
  | cons next rest ih =>
    rw [resolveFrom]
    exact ih (by simp) _

/-- A chain is its one operand, or a binary expression. -/
theorem resolve_cases (first : Expr) (rest : List (BinaryOp × Expr)) :
    rest = [] ∨ ∃ op left right, resolve ⟨first, rest⟩ = .binary op left right := by
  cases rest with
  | nil => exact .inl rfl
  | cons next rest =>
    rw [resolve, resolveFrom]
    exact .inr (resolveFrom_binary (by simp) _ _)

end Chain

namespace Expr

/-- An expression that is neither binary nor conditional fills its text as an operand. -/
theorem Derives.operand_of_expr {e : Expr} {w : List Char} (h : Derives (.expr e) w)
    (binary : ∀ op left right, e ≠ .binary op left right)
    (conditional : ∀ test yes no, e ≠ .conditional test yes no) : Derives (.operand e) w := by
  cases h with
  | @chain first rest w v operand operations =>
    rcases Chain.resolve_cases first rest with rfl | ⟨op, left, right, same⟩
    · cases operations
      rw [List.append_nil]
      exact operand
    · exact absurd same (binary op left right)
  | conditional => exact absurd rfl (conditional _ _ _)

/-- The accesses outermost in an expression. -/
def spine : Expr → Nat
  | .member e _ => e.spine + 1
  | .element e _ => e.spine + 1
  | .call e _ => e.spine + 1
  | _ => 0

/-- Each access adds one to the base. -/
theorem Derives.spine_le {base e : Expr} {v : List Char} (h : Derives (.accesses base e) v) :
    base.spine ≤ e.spine ∧ (e.spine ≤ base.spine → e = base ∧ v = []) := by
  generalize same : Phrase.accesses base e = p at h
  induction h generalizing base e with
  | noAccess =>
    cases same
    simp
  | member gap gap' word accesses ih =>
    cases same
    have grown := (ih rfl).1
    rw [spine] at grown
    exact ⟨by omega, fun le => absurd le (by omega)⟩
  | element gap inner gap' accesses ihKey ih =>
    cases same
    have grown := (ih rfl).1
    rw [spine] at grown
    exact ⟨by omega, fun le => absurd le (by omega)⟩
  | call gap inner gap' accesses ihArgs ih =>
    cases same
    have grown := (ih rfl).1
    rw [spine] at grown
    exact ⟨by omega, fun le => absurd le (by omega)⟩
  | _ => cases same

theorem ofWord_cases (word : String) :
    ofWord word = .ident word ∨ ∃ l, ofWord word = .literal l := by
  unfold ofWord
  split_ifs <;> simp

/-- An operand without a sign is a primary expression with its accesses. -/
theorem Derives.accessed_of_operand {e : Expr} {c : Char} {rest : List Char}
    (h : Derives (.operand e) (c :: rest)) (solid : isSpace c = false)
    (unsigned : e.isUnary = false) :
    ∃ base w v, c :: rest = w ++ v ∧ Derives (.primary base) w ∧ Derives (.accesses base e) v := by
  generalize same : c :: rest = w at h
  cases h with
  | unary => cases unsigned
  | @accessed base e b w v gap primary accesses =>
    cases b with
    | nil => exact ⟨base, w, v, rfl, primary, accesses⟩
    | cons d b =>
      cases same
      rw [gap _ (by simp)] at solid
      cases solid

/-- What a primary expression is, if no parentheses stand around it. -/
theorem Derives.primary_cases {e : Expr} {c : Char} {rest : List Char}
    (h : Derives (.primary e) (c :: rest)) (bare : c ≠ '(') :
    (∃ l, e = .literal l) ∨
      (e = .ident (String.ofList (c :: rest)) ∧ isIdentifier (c :: rest) = true) ∨
      ∃ es w b, e = .list es ∧ c :: rest = '[' :: (w ++ (b ++ [']'])) ∧ Gap b ∧
        Derives (.items es) w := by
  generalize text : c :: rest = w at h
  cases h with
  | number => exact .inl ⟨_, rfl⟩
  | string => exact .inl ⟨_, rfl⟩
  | word identifier =>
    rcases ofWord_cases (String.ofList w) with same | literal
    · exact .inr (.inl ⟨same, identifier⟩)
    · exact .inl literal
  | parens =>
    cases text
    exact absurd rfl bare
  | @list es w b inner gap => exact .inr (.inr ⟨es, w, b, rfl, rfl, gap, inner⟩)

/-- Without parentheses around it, a list was written as one. -/
theorem Derives.items_of_list {es : List Expr} {rest : List Char}
    (h : Derives (.expr (.list es)) ('[' :: rest)) :
    ∃ w b, rest = w ++ (b ++ [']']) ∧ Gap b ∧ Derives (.items es) w := by
  have operand := h.operand_of_expr (by simp) (by simp)
  obtain ⟨base, w, v, same, primary, accesses⟩ := operand.accessed_of_operand rfl rfl
  obtain ⟨rfl, rfl⟩ := accesses.spine_le.2 (Nat.zero_le _)
  rw [List.append_nil] at same
  rw [← same] at primary
  obtain ⟨l, target⟩ | ⟨target, -⟩ | ⟨es, w, b, target, text, gap, inner⟩ :=
    primary.primary_cases (by decide)
  · cases target
  · cases target
  · cases target
    cases text
    exact ⟨w, b, rfl, gap, inner⟩

/-- Without parentheses around the name, a call of a name was written as one. -/
theorem Derives.items_of_call {name : String} {args : List Expr} {c : Char} {rest : List Char}
    (h : Derives (.expr (.call (.ident name) args)) (c :: rest)) (solid : isSpace c = false)
    (bare : c ≠ '(') :
    ∃ b w d, c :: rest = name.toList ++ (b ++ '(' :: (w ++ (d ++ [')']))) ∧ Gap b ∧ Gap d ∧
      Derives (.items args) w ∧ isIdentifier name.toList = true := by
  have operand := h.operand_of_expr (by simp) (by simp)
  obtain ⟨base, w, v, same, primary, accesses⟩ := operand.accessed_of_operand solid rfl
  obtain ⟨x, more, rfl, -⟩ := primary.primary_head
  obtain ⟨rfl, same⟩ := List.cons.inj same
  have known := primary.primary_cases bare
  -- A second access would make the callee an access itself.
  generalize target : Expr.call (.ident name) args = e at accesses
  have short : e.spine = 1 := by rw [← target]; rfl
  cases accesses with
  | noAccess =>
    subst target
    simp at known
  | member gap gap' word accesses =>
    have grown := accesses.spine_le
    rw [spine, short] at grown
    obtain ⟨rfl, -⟩ := grown.2 (by omega)
    cases target
  | element gap inner gap' accesses =>
    have grown := accesses.spine_le
    rw [spine, short] at grown
    obtain ⟨rfl, -⟩ := grown.2 (by omega)
    cases target
  | @call _ _ args' b w d v gap inner gap' accesses =>
    have grown := accesses.spine_le
    rw [spine, short] at grown
    obtain ⟨rfl, rfl⟩ := grown.2 (by omega)
    cases target
    obtain ⟨l, known⟩ | ⟨known, identifier⟩ | ⟨es, w, b, known, -⟩ := known
    · cases known
    · cases known
      refine ⟨b, w, d, ?_, gap, gap', inner, ?_⟩
      · rw [String.toList_ofList, same, List.cons_append]
      · rwa [String.toList_ofList]
    · cases known

/-! ## Three ways to read a list of arguments -/

theorem gap_eq_nil {c : Char} {w v b : List Char} (solid : isSpace c = false) (gap : Gap b)
    (same : w ++ [c] = v ++ b) : b = [] := by
  rcases List.eq_nil_or_concat b with rfl | ⟨b, d, rfl⟩
  · rfl
  · rw [List.concat_eq_append, ← List.append_assoc] at same
    obtain ⟨-, same⟩ := List.append_inj' same rfl
    cases same
    rw [gap c (by simp)] at solid
    cases solid

/-- A text whose last character is no blank is an expression as a whole. -/
theorem derives_of_begins {e : Expr} {w : List Char} {c : Char}
    (h : (Phrase.expr e).Begins (w ++ [c]) []) (solid : isSpace c = false) :
    Derives (.expr e) (w ++ [c]) := by
  obtain ⟨v, b, same, gap, derived⟩ := h
  rw [List.append_nil] at same
  rw [gap_eq_nil solid gap same, List.append_nil] at same
  rwa [same]

theorem Derives.begins {p : Phrase} {w : List Char} (h : Derives p w) : p.Begins w [] :=
  ⟨w, [], by simp, .nil, h⟩

/-- A primary expression with its accesses is an expression. -/
theorem Derives.expr_of_primary {base e : Expr} {w v : List Char}
    (primary : Derives (.primary base) w) (accesses : Derives (.accesses base e) v) :
    Derives (.expr e) (w ++ v) := by
  have chain := Derives.chain (.accessed .nil primary accesses) .noOperations
  rw [List.append_nil] at chain
  exact chain

theorem parseArguments_iff_list {source : String} {es : List Expr} :
    parseArguments source = .ok es ↔ parse ("[" ++ source ++ "]") = .ok (.list es) := by
  have text : ("[" ++ source ++ "]").toList = '[' :: source.toList ++ [']'] := by simp
  rw [parseArguments_eq_ok_iff, parse_eq_ok_iff, text]
  constructor
  · rintro ⟨w, b, same, gap, derived⟩
    have whole := Derives.expr_of_primary (.list derived gap) .noAccess
    rw [same]
    simpa using whole.begins
  · intro h
    obtain ⟨w, b, same, gap, derived⟩ := (derives_of_begins h rfl).items_of_list
    rw [← List.append_assoc] at same
    refine ⟨w, b, ?_, gap, derived⟩
    simpa using List.append_cancel_right same

theorem parseArguments_iff_call {source name : String} {es : List Expr}
    (word : isVariableName name = true) :
    parseArguments source = .ok es ↔
      parse (name ++ "(" ++ source ++ ")") = .ok (.call (.ident name) es) := by
  have text : (name ++ "(" ++ source ++ ")").toList =
      name.toList ++ '(' :: source.toList ++ [')'] := by simp
  have identifier := identifier_of_variable word
  rw [parseArguments_eq_ok_iff, parse_eq_ok_iff, text]
  constructor
  · rintro ⟨w, b, same, gap, derived⟩
    have base : Derives (.primary (.ident name)) name.toList := by
      have named := Derives.word identifier
      rwa [String.ofList_toList, ofWord_of_variable word] at named
    have whole := base.expr_of_primary (.call .nil derived gap .noAccess)
    rw [same]
    simpa using whole.begins
  · intro h
    have whole := derives_of_begins h rfl
    obtain ⟨c, rest, letters, start, -⟩ := letters_of_identifier identifier
    simp only [letters, List.cons_append, List.append_assoc] at whole
    obtain ⟨b, w, d, same, gap, gap', derived, -⟩ :=
      whole.items_of_call (isSpace_of_isIdentStart start) (ne_of_isIdentStart start rfl)
    rw [letters, List.cons_append, List.cons_inj_right, List.append_cancel_left_eq] at same
    cases b with
    | nil =>
      rw [List.nil_append, List.cons_inj_right, ← List.append_assoc] at same
      exact ⟨w, d, by simpa using List.append_cancel_right same, gap', derived⟩
    | cons x b =>
      obtain ⟨rfl, -⟩ := List.cons.inj same
      cases gap '(' (by simp)

/-- Three readers of arguments agree: a list of arguments alone, one in brackets, and one behind
the name of a function. -/
theorem argument_readers_agree (source : String) (es : List Expr) :
    (parseArguments source = .ok es ↔ parse ("[" ++ source ++ "]") = .ok (.list es)) ∧
      (parseArguments source = .ok es ↔
        parse ("f(" ++ source ++ ")") = .ok (.call (.ident "f") es)) :=
  ⟨parseArguments_iff_list, @parseArguments_iff_call source "f" es rfl⟩

end Expr
end LiveTemplate
