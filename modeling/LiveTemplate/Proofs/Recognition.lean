import LiveTemplate.Proofs.Grammar

/-!
# LiveTemplate.Proofs.Recognition

The reader reads back every text that the grammar derives, so a text is read as an expression
exactly if it is derived as one. What follows a phrase must not continue it; how much is asked of
that text depends on the kind of phrase, and so does the number of steps.

  * `Phrase.Recognised`       the phrase is read whole, whatever ends it
  * `Derives.recognised`      every derivation is
  * `parse_eq_ok_iff`         whole texts
  * `parseArguments_eq_ok_iff`
-/

namespace LiveTemplate
namespace Expr

/-! ## What may follow a phrase -/

theorem isIdentChar_of_isSpace {c : Char} (h : isSpace c = true) : isIdentChar c = false := by
  simp only [isSpace, Bool.or_eq_true, decide_eq_true_eq] at h
  rcases h with ((rfl | rfl) | rfl) | rfl <;> rfl

theorem apart_of_space {c : Char} (h : isSpace c = true) (cs : List Char) : Apart (c :: cs) := by
  refine .cons (isIdentChar_of_isSpace h) ?_ cs
  rintro rfl
  cases h

theorem Apart.after_gap {b cs : List Char} (gap : Gap b) (h : Apart cs) : Apart (b ++ cs) := by
  cases b with
  | nil => exact h
  | cons c b => exact apart_of_space (gap c (by simp)) _

theorem Settled.after_gap {b cs : List Char} (gap : Gap b) (h : Settled cs) : Settled (b ++ cs) :=
  ⟨h.toApart.after_gap gap, by rw [skipSpace_gap gap]; exact h.access⟩

theorem Closed.after_gap {b cs : List Char} (gap : Gap b) (h : Closed cs) : Closed (b ++ cs) :=
  ⟨h.toSettled.after_gap gap, by rw [skipSpace_gap gap]; exact h.operator, by
    rw [skipSpace_gap gap]; exact h.test⟩

theorem closed_gap {b : List Char} (gap : Gap b) : Closed b := by
  rw [← List.append_nil b]
  exact closed_nil.after_gap gap

theorem settled_mark {c : Char} (word : isIdentChar c = false) (space : isSpace c = false)
    (access : c ∉ ['.', '[', '(']) (cs : List Char) : Settled (c :: cs) := by
  refine ⟨.cons word (fun point => access (by simp [point])) cs, ?_⟩
  rw [skipSpace_cons space]
  simpa using access

theorem closed_mark_colon (cs : List Char) : Closed (':' :: cs) := by
  refine ⟨settled_mark rfl rfl (by decide) cs, ?_, ?_⟩ <;> rw [skipSpace_cons rfl]
  · rfl
  · simp

/-! ## The first character of a phrase -/

/-- A character that a primary expression may be written from. -/
def isFirst (c : Char) : Bool := isOpening c || c = '\''

theorem ne_of_isFirst {c d : Char} (h : isFirst c = true) (other : isFirst d = false) : c ≠ d := by
  rintro rfl
  rw [h] at other
  cases other

theorem isSpace_of_isFirst {c : Char} (h : isFirst c = true) : isSpace c = false := by
  simp [isSpace, ne_of_isFirst h (d := ' ') rfl, ne_of_isFirst h (d := '\t') rfl,
    ne_of_isFirst h (d := '\r') rfl, ne_of_isFirst h (d := '\n') rfl]

theorem Derives.primary_head {e : Expr} {w : List Char} (h : Derives (.primary e) w) :
    ∃ c rest, w = c :: rest ∧ isFirst c = true := by
  cases h with
  | number numeral spells =>
    obtain ⟨c, rest, same, digit⟩ := numeral_head numeral
    exact ⟨c, rest, same, by simp [isFirst, isOpening_of_isDigit digit]⟩
  | string mark quoted =>
    refine ⟨_, _, rfl, ?_⟩
    simp only [List.mem_cons, List.not_mem_nil, or_false] at mark
    rcases mark with rfl | rfl <;> rfl
  | word identifier =>
    obtain ⟨c, rest, same, start, -⟩ := letters_of_identifier identifier
    exact ⟨c, rest, same, by simp [isFirst, isOpening_of_isIdentStart start]⟩
  | parens inner gap => exact ⟨_, _, rfl, rfl⟩
  | list inner gap => exact ⟨_, _, rfl, rfl⟩

/-- A sign, or a character that a primary expression may be written from. -/
def isFront (c : Char) : Bool := isFirst c || c = '!' || c = '-'

theorem ne_of_isFront {c d : Char} (h : isFront c = true) (other : isFront d = false) : c ≠ d := by
  rintro rfl
  rw [h] at other
  cases other

theorem isSpace_of_isFront {c : Char} (h : isFront c = true) : isSpace c = false := by
  simp [isSpace, ne_of_isFront h (d := ' ') rfl, ne_of_isFront h (d := '\t') rfl,
    ne_of_isFront h (d := '\r') rfl, ne_of_isFront h (d := '\n') rfl]

/-- An operand starts, after blanks, with a sign or with a primary expression. -/
theorem Derives.operand_head {e : Expr} {w : List Char} (h : Derives (.operand e) w) :
    ∃ b c rest, Gap b ∧ w = b ++ c :: rest ∧ isFront c = true ∧
      Derives (.operand e) (c :: rest) := by
  cases h with
  | @unary op e b w gap operand =>
    refine ⟨b, _, w, gap, rfl, ?_, .unary .nil operand⟩
    cases op <;> rfl
  | @accessed base e b w v gap primary accesses =>
    obtain ⟨c, rest, rfl, first⟩ := primary.primary_head
    exact ⟨b, c, _, gap, rfl, by simp [isFront, first], .accessed .nil primary accesses⟩

/-- And so does an expression. -/
theorem Derives.expr_head {e : Expr} {w : List Char} (h : Derives (.expr e) w) :
    ∃ b c rest, Gap b ∧ w = b ++ c :: rest ∧ isFront c = true ∧ Derives (.expr e) (c :: rest) := by
  cases h with
  | chain operand operations =>
    obtain ⟨b, c, rest, gap, rfl, front, bare⟩ := operand.operand_head
    exact ⟨b, c, _, gap, List.append_assoc .., front, .chain bare operations⟩
  | conditional operand operations before second between third =>
    obtain ⟨b, c, rest, gap, rfl, front, bare⟩ := operand.operand_head
    exact ⟨b, c, _, gap, List.append_assoc .., front,
      .conditional bare operations before second between third⟩

/-! ## Phrases that continue another -/

theorem Derives.apart {base e : Expr} {v t : List Char} (h : Derives (.accesses base e) v)
    (apart : Apart t) : Apart (v ++ t) := by
  cases h with
  | noAccess => exact apart
  | @member _ _ name b c v gap gap' word accesses =>
    obtain ⟨d, more, same, start, -⟩ := letters_of_identifier (identifier_of_variable word)
    rw [List.append_assoc, List.cons_append]
    refine Apart.after_gap gap ⟨by simp [isIdentChar], fun x rest eq => ?_⟩
    cases c with
    | nil =>
      rw [same] at eq
      cases eq
      simpa using not_isDigit_of_isIdentStart start
    | cons x c =>
      cases eq
      exact isDigit_eq_false (isIdentChar_of_isSpace (gap' _ (by simp)))
  | element gap inner gap' accesses =>
    rw [List.append_assoc]
    exact Apart.after_gap gap (.cons rfl (by decide) _)
  | call gap inner gap' accesses =>
    rw [List.append_assoc]
    exact Apart.after_gap gap (.cons rfl (by decide) _)

theorem settled_symbol (op : BinaryOp) (cs : List Char) : Settled (op.symbol ++ cs) := by
  cases op <;> exact settled_mark rfl rfl (by decide) _

theorem Derives.settled {os : List (BinaryOp × Expr)} {v t : List Char}
    (h : Derives (.operations os) v) (settled : Settled t) : Settled (v ++ t) := by
  cases h with
  | noOperations => exact settled
  | operation gap operand operations =>
    rw [List.append_assoc, List.append_assoc]
    exact (settled_symbol _ _).after_gap gap

theorem Derives.closed {es : List Expr} {v t : List Char} (h : Derives (.moreItems es) v)
    (closed : Closed t) : Closed (v ++ t) := by
  cases h with
  | noMore => exact closed
  | more gap first more =>
    rw [List.append_assoc]
    exact (closed_mark (by simp) _).after_gap gap

/-! ## Tokens -/

theorem readString?_quoted {quote : Char} {w s : List Char} (h : Quoted quote w s)
    (escape : quote ≠ '\\') (t : List Char) :
    readString? quote (w ++ quote :: t) = some (s, t) := by
  induction h with
  | nil =>
    rw [List.nil_append, readString?, if_pos rfl]
    intro c rest same
    exact absurd same escape
  | plain inside bare rest ih =>
    rw [List.cons_append, readString?, if_neg inside, if_neg bare, ih]
    · rfl
    · intro c rest same
      exact absurd same bare
  | escape rest ih =>
    rw [List.cons_append, List.cons_append, readString?, ih]
    rfl

theorem readInfix?_append (op : BinaryOp) {cs : List Char} (h : cs.head? ≠ some '=') :
    readInfix? (op.symbol ++ cs) = some (op, cs) := by
  cases cs with
  | nil => cases op <;> rfl
  | cons c cs =>
    have other : c ≠ '=' := by simpa using h
    cases op <;> simp [BinaryOp.symbol, readInfix?, other]

/-! ## Reading phrases -/

/-- The text is read whole as the phrase, whatever comes behind it and does not continue it. An
expression and its items take the blanks that follow; a primary expression is entered after three
other readers at most, which is where the steps beyond four for each character come from. -/
def Phrase.Recognised : Phrase → List Char → Prop
  | .expr e, w => ∀ n t, Closed t → 4 * w.length + 2 ≤ n →
      readExpr n (w ++ t) = .ok (e, skipSpace t)
  | .operand e, w => ∀ n t, Settled t → 4 * w.length + 1 ≤ n →
      readOperand n (w ++ t) = .ok (e, t)
  | .operations os, w => ∀ n t, Settled t → readInfix? (skipSpace t) = none →
      4 * w.length + 1 ≤ n → readOperations n (w ++ t) = .ok (os, t)
  | .primary e, w => ∀ n t, Apart t → 4 * w.length ≤ n → readPrimary n (w ++ t) = .ok (e, t)
  | .accesses base e, w => ∀ n t, Settled t → 4 * w.length + 1 ≤ n →
      readAccesses n base (w ++ t) = .ok (e, t)
  | .items es, w => ∀ n close b t, close ∈ [')', ']'] → Gap b → 4 * w.length + 3 ≤ n →
      readItems n close (w ++ (b ++ close :: t)) = .ok (es, t)
  | .moreItems es, w => ∀ n t, Closed t → (skipSpace t).head? ≠ some ',' → 4 * w.length + 1 ≤ n →
      readMoreItems n (skipSpace (w ++ t)) = .ok (es, skipSpace t)

/-- Where reading is entered with steps left, it takes one of them. -/
theorem exists_succ {k n : Nat} (h : k + 1 ≤ n) : ∃ m, n = m + 1 ∧ k ≤ m :=
  ⟨n - 1, by omega, by omega⟩

theorem recognised_chain {first : Expr} {os : List (BinaryOp × Expr)} {w v : List Char}
    (derived : Derives (.operations os) v) (operand : (Phrase.operand first).Recognised w)
    (operations : (Phrase.operations os).Recognised v) :
    (Phrase.expr (Chain.resolve ⟨first, os⟩)).Recognised (w ++ v) := by
  intro n t closed enough
  rw [List.length_append] at enough
  obtain ⟨n, rfl, enough⟩ := exists_succ enough
  have front := operand n (v ++ t) (derived.settled closed.toSettled) (by omega)
  have behind := operations n t closed.toSettled closed.operator (by omega)
  have test := closed.test
  rw [List.append_assoc, readExpr]
  simp only [front, behind, bind, Except.bind]
  split
  · rename_i same
    simp [same] at test
  · rfl

theorem recognised_conditional {first yes no : Expr} {os : List (BinaryOp × Expr)}
    {w v b y c z : List Char} (derived : Derives (.operations os) v) (gap : Gap b) (gap' : Gap c)
    (operand : (Phrase.operand first).Recognised w)
    (operations : (Phrase.operations os).Recognised v)
    (second : (Phrase.expr yes).Recognised y) (third : (Phrase.expr no).Recognised z) :
    (Phrase.expr (.conditional (Chain.resolve ⟨first, os⟩) yes no)).Recognised
      (w ++ (v ++ (b ++ '?' :: (y ++ (c ++ ':' :: z))))) := by
  intro n t closed enough
  simp only [List.length_append, List.length_cons] at enough
  obtain ⟨n, rfl, enough⟩ := exists_succ enough
  have asked : Settled (b ++ '?' :: (y ++ (c ++ ':' :: (z ++ t)))) :=
    (settled_mark rfl rfl (by decide) _).after_gap gap
  have skipped : skipSpace (b ++ '?' :: (y ++ (c ++ ':' :: (z ++ t)))) =
      '?' :: (y ++ (c ++ ':' :: (z ++ t))) := by
    rw [skipSpace_gap gap, skipSpace_cons rfl]
  have front := operand n _ (derived.settled asked) (by omega)
  have behind := operations n _ asked (by rw [skipped]; rfl) (by omega)
  have chosen := second n (c ++ ':' :: (z ++ t)) ((closed_mark_colon _).after_gap gap') (by omega)
  rw [skipSpace_gap gap', skipSpace_cons rfl] at chosen
  have other := third n t closed (by omega)
  simp only [List.append_assoc, List.cons_append, readExpr, front, behind, bind, Except.bind,
    skipped, chosen, expect_mark (c := ':') rfl, other]
  rfl

theorem recognised_unary {op : UnaryOp} {e : Expr} {b w : List Char} (gap : Gap b)
    (operand : (Phrase.operand e).Recognised w) :
    (Phrase.operand (.unary op e)).Recognised (b ++ op.symbol :: w) := by
  intro n t settled enough
  simp only [List.length_append, List.length_cons] at enough
  obtain ⟨n, rfl, enough⟩ := exists_succ enough
  have inner := operand n t settled (by omega)
  rw [List.append_assoc, List.cons_append]
  cases op with
  | not =>
    rw [UnaryOp.symbol, readOperand, skipSpace_gap gap, skipSpace_cons rfl]
    simp only [inner, bind, Except.bind]
    rfl
  | neg =>
    rw [UnaryOp.symbol, readOperand, skipSpace_gap gap, skipSpace_cons rfl]
    simp only [inner, bind, Except.bind]
    rfl

theorem recognised_accessed {base e : Expr} {b w v : List Char} (gap : Gap b)
    (whole : Derives (.primary base) w) (derived : Derives (.accesses base e) v)
    (primary : (Phrase.primary base).Recognised w)
    (accesses : (Phrase.accesses base e).Recognised v) :
    (Phrase.operand e).Recognised (b ++ (w ++ v)) := by
  intro n t settled enough
  simp only [List.length_append] at enough
  obtain ⟨n, rfl, enough⟩ := exists_succ enough
  have front := primary n (v ++ t) (derived.apart settled.toApart) (by omega)
  obtain ⟨c, rest, rfl, first⟩ := whole.primary_head
  have behind := accesses n t settled (by simp at enough; omega)
  rw [List.append_assoc, List.append_assoc, readOperand, skipSpace_gap gap, List.cons_append,
    skipSpace_cons (isSpace_of_isFirst first)]
  split
  · rename_i same
    cases same
    cases first
  · rename_i same
    cases same
    cases first
  · simp only [bind, Except.bind]
    rw [← List.cons_append, front]
    exact behind

theorem recognised_operation {op : BinaryOp} {e : Expr} {os : List (BinaryOp × Expr)}
    {b w v : List Char} (gap : Gap b) (whole : Derives (.operand e) w)
    (derived : Derives (.operations os) v) (operand : (Phrase.operand e).Recognised w)
    (operations : (Phrase.operations os).Recognised v) :
    (Phrase.operations ((op, e) :: os)).Recognised (b ++ (op.symbol ++ (w ++ v))) := by
  intro n t settled stop enough
  have long : 0 < op.symbol.length := by cases op <;> decide
  simp only [List.length_append] at enough
  obtain ⟨n, rfl, enough⟩ := exists_succ enough
  have joint : readInfix? (skipSpace (b ++ (op.symbol ++ (w ++ (v ++ t))))) =
      some (op, w ++ (v ++ t)) := by
    have solid : skipSpace (op.symbol ++ (w ++ (v ++ t))) = op.symbol ++ (w ++ (v ++ t)) := by
      cases op <;> exact skipSpace_cons rfl _
    rw [skipSpace_gap gap, solid, readInfix?_append]
    obtain ⟨d, c, rest, blank, rfl, front, -⟩ := whole.operand_head
    cases d with
    | nil => simpa using ne_of_isFront front (d := '=') rfl
    | cons x d =>
      have space := blank x (by simp)
      simp only [List.cons_append, List.head?_cons, ne_eq, Option.some.injEq]
      rintro rfl
      cases space
  have front := operand n (v ++ t) (derived.settled settled) (by omega)
  have behind := operations n t settled stop (by omega)
  simp only [List.append_assoc, readOperations, joint, front, behind, bind, Except.bind]
  rfl

/-- A string ends at its closing quote, whatever follows. -/
theorem readPrimary_quoted {quote : Char} {w s : List Char} (mark : quote ∈ ['\'', '"'])
    (quoted : Quoted quote w s) (n : Nat) (t : List Char) :
    readPrimary (n + 1) (quote :: (w ++ ([quote] ++ t))) =
      .ok (.literal (.string (String.ofList s)), t) := by
  simp only [List.mem_cons, List.not_mem_nil, or_false] at mark
  have found := readString?_quoted quoted (by rcases mark with rfl | rfl <;> decide) t
  rw [List.singleton_append]
  rcases mark with rfl | rfl
  · rw [readPrimary, if_neg (by decide), if_pos (by decide), found]
    · rfl
    · decide
    · decide
  · rw [readPrimary, if_neg (by decide), if_pos (by decide), found]
    · rfl
    · decide
    · decide

theorem recognised_string {quote : Char} {w s : List Char} (mark : quote ∈ ['\'', '"'])
    (quoted : Quoted quote w s) :
    (Phrase.primary (.literal (.string (String.ofList s)))).Recognised
      (quote :: (w ++ [quote])) := by
  intro n t apart enough
  simp only [List.length_cons, List.length_append] at enough
  obtain ⟨n, rfl⟩ : ∃ k, n = k + 1 := ⟨n - 1, by omega⟩
  rw [List.cons_append, List.append_assoc]
  exact readPrimary_quoted mark quoted n t

theorem recognised_parens {e : Expr} {w b : List Char} (gap : Gap b)
    (inner : (Phrase.expr e).Recognised w) :
    (Phrase.primary e).Recognised ('(' :: (w ++ (b ++ [')']))) := by
  intro n t apart enough
  simp only [List.length_cons, List.length_append, List.length_nil] at enough
  obtain ⟨n, rfl⟩ : ∃ k, n = k + 1 := ⟨n - 1, by omega⟩
  have whole := inner n (b ++ ')' :: t) ((closed_mark (by simp) t).after_gap gap) (by omega)
  rw [skipSpace_gap gap, skipSpace_cons rfl] at whole
  simp only [List.cons_append, List.append_assoc, List.nil_append]
  exact readPrimary_parens whole

theorem recognised_list {es : List Expr} {w b : List Char} (gap : Gap b)
    (inner : (Phrase.items es).Recognised w) :
    (Phrase.primary (.list es)).Recognised ('[' :: (w ++ (b ++ [']']))) := by
  intro n t apart enough
  simp only [List.length_cons, List.length_append, List.length_nil] at enough
  obtain ⟨n, rfl⟩ : ∃ k, n = k + 1 := ⟨n - 1, by omega⟩
  simp only [List.cons_append, List.append_assoc, List.nil_append]
  exact readPrimary_list (inner n ']' b t (by simp) gap (by omega))

theorem recognised_member {base e : Expr} {name : String} {b c v : List Char} (gap : Gap b)
    (gap' : Gap c) (word : isVariableName name = true)
    (derived : Derives (.accesses (.member base name) e) v)
    (accesses : (Phrase.accesses (.member base name) e).Recognised v) :
    (Phrase.accesses base e).Recognised (b ++ '.' :: (c ++ (name.toList ++ v))) := by
  intro n t settled enough
  simp only [List.length_cons, List.length_append] at enough
  obtain ⟨n, rfl, enough⟩ := exists_succ enough
  have named : readName (c ++ (name.toList ++ (v ++ t))) = .ok (name, v ++ t) := by
    rw [readName, skipSpace_gap gap', ← readName]
    exact readName_variable word (derived.apart settled.toApart)
  have behind := accesses n t settled (by omega)
  simp only [List.append_assoc, List.cons_append]
  rw [readAccesses, skipSpace_gap gap, skipSpace_cons rfl]
  simp only [named, bind, Except.bind]
  exact behind

theorem recognised_element {base key e : Expr} {b w c v : List Char} (gap : Gap b) (gap' : Gap c)
    (inner : (Phrase.expr key).Recognised w)
    (accesses : (Phrase.accesses (.element base key) e).Recognised v) :
    (Phrase.accesses base e).Recognised (b ++ '[' :: (w ++ (c ++ ']' :: v))) := by
  intro n t settled enough
  simp only [List.length_cons, List.length_append] at enough
  obtain ⟨n, rfl, enough⟩ := exists_succ enough
  have whole := inner n (c ++ ']' :: (v ++ t)) ((closed_mark (by simp) _).after_gap gap') (by omega)
  rw [skipSpace_gap gap', skipSpace_cons rfl] at whole
  have behind := accesses n t settled (by omega)
  simp only [List.append_assoc, List.cons_append]
  rw [readAccesses, skipSpace_gap gap, skipSpace_cons rfl]
  simp only [whole, bind, Except.bind, expect_mark (c := ']') rfl]
  exact behind

theorem recognised_call {base e : Expr} {args : List Expr} {b w c v : List Char} (gap : Gap b)
    (gap' : Gap c) (inner : (Phrase.items args).Recognised w)
    (accesses : (Phrase.accesses (.call base args) e).Recognised v) :
    (Phrase.accesses base e).Recognised (b ++ '(' :: (w ++ (c ++ ')' :: v))) := by
  intro n t settled enough
  simp only [List.length_cons, List.length_append] at enough
  obtain ⟨n, rfl, enough⟩ := exists_succ enough
  have whole := inner n ')' c (v ++ t) (by simp) gap' (by omega)
  have behind := accesses n t settled (by omega)
  simp only [List.append_assoc, List.cons_append]
  rw [readAccesses, skipSpace_gap gap, skipSpace_cons rfl]
  simp only [whole, bind, Except.bind]
  exact behind

theorem closing_of_mem {close : Char} (mark : close ∈ [')', ']']) (cs : List Char) :
    isSpace close = false ∧ Closed (close :: cs) ∧ isFront close = false ∧ close ≠ ',' := by
  simp only [List.mem_cons, List.not_mem_nil, or_false] at mark
  rcases mark with rfl | rfl
  · exact ⟨rfl, closed_mark (by simp) cs, by decide⟩
  · exact ⟨rfl, closed_mark (by simp) cs, by decide⟩

theorem recognised_noItems : (Phrase.items []).Recognised [] := by
  intro n close b t mark gap enough
  obtain ⟨n, rfl, -⟩ := exists_succ enough
  obtain ⟨space, -⟩ := closing_of_mem mark t
  rw [List.nil_append, readItems, skipSpace_gap gap, skipSpace_cons space]
  simp only [if_true]
  rfl

theorem readExpr_gap {b : List Char} (gap : Gap b) (n : Nat) (cs : List Char) :
    readExpr (n + 2) (b ++ cs) = readExpr (n + 2) cs := by
  rw [readExpr, readOperand, skipSpace_gap gap, ← readOperand, ← readExpr]

theorem recognised_items {e : Expr} {es : List Expr} {w v : List Char}
    (whole : Derives (.expr e) w) (derived : Derives (.moreItems es) v)
    (first : (Phrase.expr e).Recognised w) (more : (Phrase.moreItems es).Recognised v) :
    (Phrase.items (e :: es)).Recognised (w ++ v) := by
  intro n close b t mark gap enough
  rw [List.length_append] at enough
  obtain ⟨n, rfl, enough⟩ := exists_succ enough
  obtain ⟨space, closed, other, comma⟩ := closing_of_mem mark t
  have ends := closed.after_gap gap
  have skipped : skipSpace (b ++ close :: t) = close :: t := by
    rw [skipSpace_gap gap, skipSpace_cons space]
  have front := first n (v ++ (b ++ close :: t)) (derived.closed ends) (by omega)
  have behind := more n (b ++ close :: t) ends (by simpa [skipped] using comma) (by omega)
  obtain ⟨d, c, rest, blank, rfl, start, -⟩ := whole.expr_head
  -- The blanks are dropped before the reader looks for the closing mark.
  obtain ⟨n, rfl⟩ : ∃ k, n = k + 2 := ⟨n - 2, by omega⟩
  rw [List.append_assoc, readExpr_gap blank, List.cons_append] at front
  simp only [List.append_assoc, List.cons_append]
  rw [readItems, skipSpace_gap blank, skipSpace_cons (isSpace_of_isFront start)]
  simp only [if_neg (ne_of_isFront start other), front, behind, bind, Except.bind, skipped,
    expect_mark space]
  rfl

theorem recognised_noMore : (Phrase.moreItems []).Recognised [] := by
  intro n t closed comma enough
  obtain ⟨n, rfl, -⟩ := exists_succ enough
  have again : skipSpace (skipSpace t) = skipSpace t := List.dropWhile_idempotent ..
  rw [List.nil_append, readMoreItems, again]
  split
  · rename_i same
    simp [same] at comma
  · rfl

theorem recognised_more {e : Expr} {es : List Expr} {b w v : List Char} (gap : Gap b)
    (derived : Derives (.moreItems es) v) (first : (Phrase.expr e).Recognised w)
    (more : (Phrase.moreItems es).Recognised v) :
    (Phrase.moreItems (e :: es)).Recognised (b ++ ',' :: (w ++ v)) := by
  intro n t closed comma enough
  simp only [List.length_append, List.length_cons] at enough
  obtain ⟨n, rfl, enough⟩ := exists_succ enough
  have front := first n (v ++ t) (derived.closed closed) (by omega)
  have behind := more n t closed comma (by omega)
  simp only [List.append_assoc, List.cons_append]
  rw [skipSpace_gap gap, skipSpace_cons rfl, readMoreItems, skipSpace_cons rfl]
  simp only [front, behind, bind, Except.bind]
  rfl

/-- Every text that the grammar derives is read as what it was derived for. -/
theorem Derives.recognised {p : Phrase} {w : List Char} (h : Derives p w) : p.Recognised w := by
  induction h with
  | chain operand operations ihFirst ihRest => exact recognised_chain operations ihFirst ihRest
  | conditional operand operations gap second gap' third ihFirst ihRest ihYes ihNo =>
    exact recognised_conditional operations gap gap' ihFirst ihRest ihYes ihNo
  | unary gap operand ih => exact recognised_unary gap ih
  | accessed gap primary accesses ih ih' => exact recognised_accessed gap primary accesses ih ih'
  | noOperations =>
    intro n t settled stop enough
    obtain ⟨n, rfl, -⟩ := exists_succ enough
    rw [List.nil_append, readOperations, stop]
    rfl
  | operation gap operand operations ih ih' =>
    exact recognised_operation gap operand operations ih ih'
  | number numeral spells =>
    intro n t apart enough
    obtain ⟨c, rest, rfl, -⟩ := numeral_head numeral
    rw [List.length_cons] at enough
    obtain ⟨n, rfl⟩ : ∃ k, n = k + 1 := ⟨n - 1, by omega⟩
    exact readPrimary_numeral numeral spells apart n
  | string mark quoted => exact recognised_string mark quoted
  | @word w identifier =>
    intro n t apart enough
    obtain ⟨c, rest, rfl, -⟩ := letters_of_identifier identifier
    rw [List.length_cons] at enough
    obtain ⟨n, rfl⟩ : ∃ k, n = k + 1 := ⟨n - 1, by omega⟩
    simpa using readPrimary_identifier (String.ofList (c :: rest)) (by simpa using identifier)
      apart n
  | parens inner gap ih => exact recognised_parens gap ih
  | list inner gap ih => exact recognised_list gap ih
  | noAccess =>
    intro n t settled enough
    obtain ⟨n, rfl, -⟩ := exists_succ enough
    exact readAccesses_settled settled n _
  | member gap gap' word accesses ih => exact recognised_member gap gap' word accesses ih
  | element gap inner gap' accesses ih ih' => exact recognised_element gap gap' ih ih'
  | call gap inner gap' accesses ih ih' => exact recognised_call gap gap' ih ih'
  | noItems => exact recognised_noItems
  | items first more ih ih' => exact recognised_items first more ih ih'
  | noMore => exact recognised_noMore
  | more gap first more ih ih' => exact recognised_more gap more ih ih'

/-! ## Whole texts -/

theorem skipSpace_eq_nil_iff {cs : List Char} : skipSpace cs = [] ↔ Gap cs := by
  rw [skipSpace, List.dropWhile_eq_nil_iff]
  rfl

theorem finish_eq_ok_iff {α : Type} {cs : List Char} {outcome : Except Stuck (α × List Char)}
    {a : α} : finish cs outcome = .ok a ↔ ∃ rest, outcome = .ok (a, rest) ∧ Gap rest := by
  rcases outcome with stuck | ⟨b, rest⟩
  · simp [finish]
  · simp only [Except.ok.injEq, Prod.mk.injEq]
    rw [finish]
    split
    · rename_i blank
      simp [skipSpace_eq_nil_iff.mp blank]
    · rename_i more solid
      constructor
      · intro h
        cases h
      · rintro ⟨_, ⟨-, rfl⟩, gap⟩
        exact absurd (skipSpace_eq_nil_iff.mpr gap) solid

/-- A text is read as an expression exactly if the grammar derives it as one, with blanks
behind. -/
theorem parse_eq_ok_iff {source : String} {e : Expr} :
    parse source = .ok e ↔ (Phrase.expr e).Begins source.toList [] := by
  rw [parse, finish_eq_ok_iff]
  constructor
  · rintro ⟨rest, read, gap⟩
    obtain ⟨w, b, same, gap', derived⟩ := (sound _).expr read
    exact ⟨w, b ++ rest, by simpa using same, gap'.append gap, derived⟩
  · rintro ⟨w, b, same, gap, derived⟩
    rw [List.append_nil] at same
    have read := derived.recognised (stepBound source.toList) b (closed_gap gap)
      (by rw [stepBound, same, List.length_append]; omega)
    rw [← same, skipSpace_eq_nil_iff.mpr gap] at read
    exact ⟨[], read, .nil⟩

theorem Derives.expr_not_gap {e : Expr} {w v : List Char} (h : Derives (.expr e) w) :
    ¬ Gap (w ++ v) := by
  obtain ⟨b, c, rest, -, rfl, front, -⟩ := h.expr_head
  intro gap
  have space := gap c (by simp)
  rw [isSpace_of_isFront front] at space
  cases space

/-- The same for expressions separated by commas. -/
theorem parseArguments_eq_ok_iff {source : String} {es : List Expr} :
    parseArguments source = .ok es ↔ (Phrase.items es).Begins source.toList [] := by
  rw [parseArguments]
  dsimp only
  split
  · rename_i blank
    have gap := skipSpace_eq_nil_iff.mp blank
    constructor
    · rintro ⟨⟩
      exact ⟨[], source.toList, by simp, gap, .noItems⟩
    · rintro ⟨w, b, same, -, derived⟩
      cases derived with
      | noItems => rfl
      | items first more =>
        rw [same, List.append_assoc] at gap
        exact absurd gap first.expr_not_gap
  · rename_i solid
    rw [finish_eq_ok_iff]
    constructor
    · rintro ⟨rest, read, gap⟩
      obtain ⟨⟨e, _⟩, readFirst, next⟩ := exists_of_bind_eq_ok read
      obtain ⟨⟨others, after⟩, readOthers, same⟩ := exists_of_bind_eq_ok next
      cases same
      obtain ⟨w, b, start, gap', first⟩ := (sound _).expr readFirst
      obtain ⟨v, c, more, gap'', others⟩ := begins_moreItems gap' ((sound _).moreItems readOthers)
      refine ⟨_, c ++ after, ?_, gap''.append gap, .items first others⟩
      rw [start, more]
      simp
    · rintro ⟨w, b, same, gap, derived⟩
      rw [List.append_nil] at same
      cases derived with
      | noItems => exact absurd (skipSpace_eq_nil_iff.mpr (same ▸ gap)) solid
      | @items e es w v first more =>
        have bound : stepBound source.toList = 4 * (w.length + v.length + b.length) + 4 := by
          rw [stepBound, same]
          simp only [List.length_append]
          omega
        have closed := closed_gap gap
        have readFirst := first.recognised (stepBound source.toList) (v ++ b)
          (more.closed closed) (by omega)
        have readOthers := more.recognised (stepBound source.toList) b closed
          (by simp [skipSpace_eq_nil_iff.mpr gap]) (by omega)
        rw [← List.append_assoc, ← same] at readFirst
        refine ⟨[], ?_, .nil⟩
        simp only [readFirst, readOthers, bind, Except.bind, skipSpace_eq_nil_iff.mpr gap]
        rfl

/-! ## Blanks around a text -/

/-- A character that an expression may end with. -/
def isLast (c : Char) : Bool := isIdentChar c || c = '\'' || c = '"' || c = ')' || c = ']'

/-- Nothing, or a text with such a character at its end. -/
def Ends (w : List Char) : Prop := ∀ c ∈ w.getLast?, isLast c = true

theorem ends_append {w v : List Char} (h : Ends w) (k : Ends v) : Ends (w ++ v) := by
  intro c mem
  rw [List.getLast?_append, Option.mem_def, Option.or_eq_some_iff] at mem
  rcases mem with mem | ⟨-, mem⟩
  · exact k c mem
  · exact h c mem

theorem ends_of_suffix {w v : List Char} (solid : v ≠ []) (suffix : v <:+ w) (h : Ends v) :
    Ends w := by
  obtain ⟨u, rfl⟩ := suffix
  intro c mem
  rw [List.getLast?_append_of_ne_nil u solid] at mem
  exact h c mem

theorem ends_of_forall {w : List Char} (h : ∀ c ∈ w, isIdentChar c = true) : Ends w := by
  intro c mem
  simp [isLast, h c (List.mem_of_getLast? mem)]

theorem ends_mark {c : Char} (h : isLast c = true) : Ends [c] := by
  intro d mem
  cases mem
  exact h

theorem isIdentChar_of_isDigit {c : Char} (h : c.isDigit = true) : isIdentChar c = true := by
  simp [isIdentChar, Char.isAlphanum, h]

theorem ends_numeral {w : List Char} (h : Number.Numeral w) : Ends w := by
  cases h with
  | whole solid each => exact ends_of_forall fun c mem => isIdentChar_of_isDigit (each c mem)
  | @point digits places solid more each fraction =>
    exact ends_of_suffix more ⟨digits ++ ['.'], by simp⟩
      (ends_of_forall fun c mem => isIdentChar_of_isDigit (fraction c mem))

theorem Derives.operand_ne_nil {e : Expr} {w : List Char} (h : Derives (.operand e) w) :
    w ≠ [] := by
  obtain ⟨b, c, rest, -, rfl, -⟩ := h.operand_head
  simp

theorem Derives.expr_ne_nil {e : Expr} {w : List Char} (h : Derives (.expr e) w) : w ≠ [] := by
  obtain ⟨b, c, rest, -, rfl, -⟩ := h.expr_head
  simp

/-- No phrase ends with a blank. -/
theorem Derives.ends {p : Phrase} {w : List Char} (h : Derives p w) : Ends w := by
  have nothing : Ends [] := by simp [Ends]
  induction h with
  | chain operand operations ihFirst ihRest => exact ends_append ihFirst ihRest
  | @conditional first yes no os w v b y c z operand operations gap second gap' third ihFirst ihRest
      ihYes ihNo =>
    exact ends_of_suffix third.expr_ne_nil ⟨w ++ v ++ b ++ '?' :: y ++ c ++ [':'], by simp⟩ ihNo
  | @unary op e b w gap operand ih =>
    exact ends_of_suffix operand.operand_ne_nil ⟨b ++ [op.symbol], by simp⟩ ih
  | @accessed base e b w v gap primary accesses ih ih' =>
    obtain ⟨c, rest, rfl, -⟩ := primary.primary_head
    exact ends_of_suffix (by simp) ⟨b, rfl⟩ (ends_append ih ih')
  | noOperations => exact nothing
  | @operation op e os b w v gap operand operations ih ih' =>
    exact ends_of_suffix (by simp [operand.operand_ne_nil]) ⟨b ++ op.symbol, by simp⟩
      (ends_append ih ih')
  | number numeral spells => exact ends_numeral numeral
  | @string quote w s mark quoted =>
    refine ends_of_suffix (v := [quote]) (by simp) ⟨quote :: w, by simp⟩ (ends_mark ?_)
    simp only [List.mem_cons, List.not_mem_nil, or_false] at mark
    rcases mark with rfl | rfl <;> rfl
  | word identifier =>
    obtain ⟨c, rest, rfl, -, each⟩ := letters_of_identifier identifier
    exact ends_of_forall each
  | @parens e w b inner gap ih =>
    exact ends_of_suffix (v := [')']) (by simp) ⟨'(' :: (w ++ b), by simp⟩ (ends_mark rfl)
  | @list es w b inner gap ih =>
    exact ends_of_suffix (v := [']']) (by simp) ⟨'[' :: (w ++ b), by simp⟩ (ends_mark rfl)
  | noAccess => exact nothing
  | @member base e name b c v gap gap' word accesses ih =>
    obtain ⟨d, rest, same, -, each⟩ := letters_of_identifier (identifier_of_variable word)
    exact ends_of_suffix (by simp [same]) ⟨b ++ '.' :: c, by simp⟩
      (ends_append (ends_of_forall each) ih)
  | @element base key e b w c v gap inner gap' accesses ih ih' =>
    exact ends_of_suffix (v := ']' :: v) (by simp) ⟨b ++ '[' :: (w ++ c), by simp⟩
      (ends_append (ends_mark rfl) ih')
  | @call base e args b w c v gap inner gap' accesses ih ih' =>
    exact ends_of_suffix (v := ')' :: v) (by simp) ⟨b ++ '(' :: (w ++ c), by simp⟩
      (ends_append (ends_mark rfl) ih')
  | noItems => exact nothing
  | items first more ih ih' => exact ends_append ih ih'
  | noMore => exact nothing
  | @more e es b w v gap first more ih ih' =>
    exact ends_of_suffix (by simp [first.expr_ne_nil]) ⟨b ++ [','], by simp⟩ (ends_append ih ih')

end Expr

/-! ## Trimming -/

namespace Text

/-- The text starts with something other than a blank. -/
def Starts (w : List Char) : Prop := ∃ c rest, w = c :: rest ∧ isBlank c = false

/-- And it ends with something other than a blank. -/
def Stops (w : List Char) : Prop := ∃ front c, w = front ++ [c] ∧ isBlank c = false

theorem Starts.append {w : List Char} (h : Starts w) (v : List Char) : Starts (w ++ v) := by
  obtain ⟨c, rest, rfl, solid⟩ := h
  exact ⟨c, rest ++ v, rfl, solid⟩

theorem Stops.append {v : List Char} (h : Stops v) (w : List Char) : Stops (w ++ v) := by
  obtain ⟨front, c, rfl, solid⟩ := h
  exact ⟨w ++ front, c, by simp, solid⟩

/-- Trimming takes the blanks around a text that neither starts nor ends with one. -/
theorem trimChars_surrounded {a w b : List Char} (before : ∀ c ∈ a, isBlank c = true)
    (starts : Starts w) (stops : Stops w) (behind : ∀ c ∈ b, isBlank c = true) :
    trimChars (a ++ (w ++ b)) = w := by
  have front : (a ++ (w ++ b)).dropWhile isBlank = w ++ b := by
    obtain ⟨c, rest, rfl, solid⟩ := starts
    rw [List.dropWhile_append_of_pos before]
    simp [solid]
  have back : (w ++ b).reverse.dropWhile isBlank = w.reverse := by
    obtain ⟨rest, c, rfl, solid⟩ := stops
    rw [List.reverse_append, List.dropWhile_append_of_pos (by simpa using behind)]
    simp [solid]
  rw [trimChars, front, back, List.reverse_reverse]

end Text

namespace Expr

/-- Blanks of any kind are neither in front nor at the end of an expression. -/
theorem ends_of_isBlank {c : Char} (h : Text.isBlank c = true) :
    isFront c = false ∧ isLast c = false := by
  have none : Text.blanks.all (fun c => !isFront c && !isLast c) = true := by decide
  have here := List.all_eq_true.mp none c (List.contains_iff_mem.mp h)
  simpa using here

theorem starts_of_isFront {c : Char} (front : isFront c = true) (rest : List Char) :
    Text.Starts (c :: rest) := by
  refine ⟨c, rest, rfl, ?_⟩
  by_contra blank
  rw [(ends_of_isBlank (by simpa using blank)).1] at front
  cases front

theorem Ends.stops {w : List Char} (solid : w ≠ []) (h : Ends w) : Text.Stops w := by
  rcases List.eq_nil_or_concat w with rfl | ⟨front, c, rfl⟩
  · exact absurd rfl solid
  · refine ⟨front, c, List.concat_eq_append, ?_⟩
    have last := h c (by simp)
    by_contra blank
    rw [(ends_of_isBlank (by simpa using blank)).2] at last
    cases last

theorem isBlank_of_isSpace {c : Char} (h : isSpace c = true) : Text.isBlank c = true := by
  simp only [isSpace, Bool.or_eq_true, decide_eq_true_eq] at h
  rcases h with ((rfl | rfl) | rfl) | rfl <;> rfl

theorem Gap.blank {b : List Char} (h : Gap b) : ∀ c ∈ b, Text.isBlank c = true :=
  fun c mem => isBlank_of_isSpace (h c mem)

theorem trimChars_identifier {a w b : List Char} (before : ∀ c ∈ a, Text.isBlank c = true)
    (h : isIdentifier w = true) (behind : ∀ c ∈ b, Text.isBlank c = true) :
    Text.trimChars (a ++ (w ++ b)) = w := by
  obtain ⟨c, rest, rfl, start, each⟩ := letters_of_identifier h
  refine Text.trimChars_surrounded before (starts_of_isFront ?_ rest)
    ((ends_of_forall each).stops (by simp)) behind
  simp [isFront, isFirst, isOpening_of_isIdentStart start]

/-- The blanks around the text of an expression, and the expression without them. -/
theorem surrounded_of_parse {source : String} {e : Expr} (h : parse source = .ok e) :
    ∃ a c rest b, source.toList = a ++ (c :: rest ++ b) ∧ Gap a ∧ Gap b ∧ isFront c = true ∧
      Derives (.expr e) (c :: rest) := by
  obtain ⟨w, b, same, gap, derived⟩ := parse_eq_ok_iff.mp h
  obtain ⟨a, c, rest, gap', rfl, front, bare⟩ := derived.expr_head
  exact ⟨a, c, rest, b, by rw [same]; simp, gap', gap, front, bare⟩

theorem trimChars_of_parse {source : String} {e : Expr} (h : parse source = .ok e) :
    ∃ c rest, Text.trimChars source.toList = c :: rest ∧ isFront c = true ∧
      Derives (.expr e) (c :: rest) := by
  obtain ⟨a, c, rest, b, same, gap, gap', front, derived⟩ := surrounded_of_parse h
  refine ⟨c, rest, ?_, front, derived⟩
  rw [same]
  exact Text.trimChars_surrounded gap.blank (starts_of_isFront front rest)
    (derived.ends.stops (by simp)) gap'.blank

end Expr
end LiveTemplate
