import LiveTemplate.Proofs.Tokens

/-!
# LiveTemplate.Proofs.Printing

A printed expression reads back as itself. Printing leaves the parentheses around operands to the
binary and conditional expressions, so an operand ends where the text after it says so; `Settled`
and `Closed` tell which texts do.

  * `Printable`      expressions whose words, numbers and strings the grammar can spell
  * `Reads`          an operand is read back whole
  * `Opens`          and so is the base of an access, with the accesses still to come
  * `parse_text`     the whole text
-/

namespace LiveTemplate

/-- Zero without a sign; both zeros are written alike. -/
def Number.unsigned (x : Float) : Float := if x = -0.0 then 0 else x

namespace Expr

/-! ## Expressions that can be spelled -/

def isUnary : Expr → Bool
  | .unary _ _ => true
  | _ => false

mutual

/-- The numbers that are written in an expression. -/
def numbers : Expr → List Float
  | .literal (.number x) => [x]
  | .literal _ => []
  | .ident _ => []
  | .member e _ => e.numbers
  | .element e key => e.numbers ++ key.numbers
  | .call callee args => callee.numbers ++ numbersOfAll args
  | .list items => numbersOfAll items
  | .unary _ e => e.numbers
  | .binary _ left right => left.numbers ++ right.numbers
  | .conditional test yes no => test.numbers ++ yes.numbers ++ no.numbers

def numbersOfAll : List Expr → List Float
  | [] => []
  | e :: rest => e.numbers ++ numbersOfAll rest

end

mutual

/-- The same expression with its zeros unsigned. -/
def unsigned : Expr → Expr
  | .literal (.number x) => .literal (.number (Number.unsigned x))
  | .literal l => .literal l
  | .ident name => .ident name
  | .member e name => .member e.unsigned name
  | .element e key => .element e.unsigned key.unsigned
  | .call callee args => .call callee.unsigned (unsignedAll args)
  | .list items => .list (unsignedAll items)
  | .unary op e => .unary op e.unsigned
  | .binary op left right => .binary op left.unsigned right.unsigned
  | .conditional test yes no => .conditional test.unsigned yes.unsigned no.unsigned

def unsignedAll : List Expr → List Expr
  | [] => []
  | e :: rest => e.unsigned :: unsignedAll rest

end

/-- Numbers are finite and not below zero; strings need no escape that reading does not know. -/
def Spelled : Literal → Prop
  | .number x => x.isFinite = true ∧ 0 ≤ x
  | .string s => ∀ c ∈ s.toList, IsPlain c
  | _ => True

instance : DecidablePred Spelled
  | .number x => inferInstanceAs (Decidable (x.isFinite = true ∧ 0 ≤ x))
  | .string s => List.decidableBAll IsPlain s.toList
  | .undefined => .isTrue trivial
  | .null => .isTrue trivial
  | .bool _ => .isTrue trivial

/-- Every name is a variable name and every literal can be spelled. What is accessed is no prefix
operation: printing puts it in no parentheses, so the access would go to its operand. -/
inductive Printable : Expr → Prop
  | literal {l : Literal} (spelled : Spelled l) : Printable (.literal l)
  | ident {name : String} (word : isVariableName name = true) : Printable (.ident name)
  | member {e : Expr} {name : String} (base : e.isUnary = false) (whole : Printable e)
      (word : isVariableName name = true) : Printable (.member e name)
  | element {e key : Expr} (base : e.isUnary = false) (whole : Printable e)
      (inner : Printable key) : Printable (.element e key)
  | call {e : Expr} {args : List Expr} (base : e.isUnary = false) (whole : Printable e)
      (each : ∀ a ∈ args, Printable a) : Printable (.call e args)
  | list {items : List Expr} (each : ∀ a ∈ items, Printable a) : Printable (.list items)
  | unary {op : UnaryOp} {e : Expr} (whole : Printable e) : Printable (.unary op e)
  | binary {op : BinaryOp} {left right : Expr} (first : Printable left)
      (second : Printable right) : Printable (.binary op left right)
  | conditional {test yes no : Expr} (first : Printable test) (second : Printable yes)
      (third : Printable no) : Printable (.conditional test yes no)

/-! ## Where operands and expressions end -/

/-- No access of the operand in front goes on in this text. -/
structure Settled (cs : List Char) : Prop extends Apart cs where
  access : ∀ c ∈ (skipSpace cs).head?, c ∉ ['.', '[', '(']

/-- The expression in front is at its end. -/
structure Closed (cs : List Char) : Prop extends Settled cs where
  operator : readInfix? (skipSpace cs) = none
  test : ∀ c ∈ (skipSpace cs).head?, c ≠ '?'

theorem closed_nil : Closed [] := by
  refine ⟨⟨.nil, ?_⟩, rfl, ?_⟩ <;> simp [skipSpace]

theorem closed_mark {c : Char} (mark : c ∈ [')', ']', ',']) (cs : List Char) :
    Closed (c :: cs) := by
  simp only [List.mem_cons, List.not_mem_nil, or_false] at mark
  rcases mark with rfl | rfl | rfl <;>
    exact ⟨⟨.cons (by decide) (by decide) cs, by simp [skipSpace, isSpace]⟩, rfl, by
      simp [skipSpace, isSpace]⟩

theorem closed_colon (cs : List Char) : Closed (' ' :: ':' :: cs) :=
  ⟨⟨.cons (by decide) (by decide) _, by simp [skipSpace, isSpace]⟩, rfl, by
    simp [skipSpace, isSpace]⟩

theorem settled_question (cs : List Char) : Settled (' ' :: '?' :: cs) :=
  ⟨.cons (by decide) (by decide) _, by simp [skipSpace, isSpace]⟩

theorem settled_operator (op : BinaryOp) (cs : List Char) : Settled (' ' :: (op.symbol ++ cs)) :=
  ⟨.cons (by decide) (by decide) _, by
    cases op <;> simp [skipSpace, isSpace, BinaryOp.symbol]⟩

/-! ## One reader after the other -/

theorem skipSpace_space (cs : List Char) : skipSpace (' ' :: cs) = skipSpace cs := by
  simp [skipSpace, isSpace]

theorem expect_mark {c : Char} (h : isSpace c = false) (cs : List Char) :
    expect c (c :: cs) = .ok cs := by
  simp [expect, skipSpace_cons h]

theorem readAccesses_settled {cs : List Char} (settled : Settled cs) (n : Nat) (e : Expr) :
    readAccesses (n + 1) e cs = .ok (e, cs) := by
  have access := settled.access
  rw [readAccesses]
  split
  · rename_i same
    simp [same] at access
  · rename_i same
    simp [same] at access
  · rename_i same
    simp [same] at access
  · rfl

theorem readOperations_closed {cs : List Char} (closed : Closed cs) (n : Nat) :
    readOperations (n + 1) cs = .ok ([], cs) := by
  rw [readOperations, closed.operator]
  rfl

/-- An operand followed by nothing is an expression. -/
theorem readExpr_operand {n : Nat} {cs rest : List Char} {e : Expr}
    (first : readOperand (n + 1) cs = .ok (e, rest)) (closed : Closed rest) :
    readExpr (n + 2) cs = .ok (e, skipSpace rest) := by
  have test := closed.test
  simp only [readExpr, first, readOperations_closed closed, bind, Except.bind]
  split
  · rename_i same
    simp [same] at test
  · rfl

theorem resolve_pair (op : BinaryOp) (left right : Expr) :
    Chain.resolve ⟨left, [(op, right)]⟩ = .binary op left right := by
  simp [Chain.resolve, Chain.resolveFrom, Chain.close]

theorem readInfix?_symbol (op : BinaryOp) (cs : List Char) :
    readInfix? (skipSpace (' ' :: (op.symbol ++ ' ' :: cs))) = some (op, ' ' :: cs) := by
  cases op <;> rfl

/-- Two operands with an operator between them. -/
theorem readExpr_pair {n : Nat} {cs more rest : List Char} {op : BinaryOp} {left right : Expr}
    (first : readOperand (n + 2) cs = .ok (left, ' ' :: (op.symbol ++ ' ' :: more)))
    (second : readOperand (n + 1) (' ' :: more) = .ok (right, rest)) (closed : Closed rest) :
    readExpr (n + 3) cs = .ok (.binary op left right, skipSpace rest) := by
  have test := closed.test
  have operations : readOperations (n + 2) (' ' :: (op.symbol ++ ' ' :: more)) =
      .ok ([(op, right)], rest) := by
    simp only [readOperations, readInfix?_symbol, second, bind, Except.bind,
      closed.operator]
    rfl
  simp only [readExpr, first, operations, bind, Except.bind, resolve_pair]
  split
  · rename_i same
    simp [same] at test
  · rfl

/-- A test and the two expressions that it chooses from. -/
theorem readExpr_choice {n : Nat} {cs more others rest : List Char} {test yes no : Expr}
    (first : readOperand (n + 1) cs = .ok (test, ' ' :: '?' :: more))
    (second : readExpr (n + 1) more = .ok (yes, ':' :: others))
    (third : readExpr (n + 1) others = .ok (no, rest)) :
    readExpr (n + 2) cs = .ok (.conditional test yes no, rest) := by
  have operations : readOperations (n + 1) (' ' :: '?' :: more) = .ok ([], ' ' :: '?' :: more) :=
    rfl
  have skipped : skipSpace (' ' :: '?' :: more) = '?' :: more := rfl
  rw [readExpr]
  simp only [first, operations, bind, Except.bind, skipped, second, expect_mark (c := ':') rfl,
    third]
  rfl

/-! ## The first character -/

/-- A character that a primary expression may start with. -/
def isOpening (c : Char) : Bool := c.isDigit || isIdentStart c || c = '"' || c = '(' || c = '['

theorem ne_of_isOpening {c d : Char} (h : isOpening c = true) (other : isOpening d = false) :
    c ≠ d := by
  rintro rfl
  rw [h] at other
  cases other

theorem isSpace_of_isOpening {c : Char} (h : isOpening c = true) : isSpace c = false := by
  simp [isSpace, ne_of_isOpening h (d := ' ') rfl, ne_of_isOpening h (d := '\t') rfl,
    ne_of_isOpening h (d := '\r') rfl, ne_of_isOpening h (d := '\n') rfl]

theorem isOpening_of_isDigit {c : Char} (h : c.isDigit = true) : isOpening c = true := by
  simp [isOpening, h]

theorem isOpening_of_isIdentStart {c : Char} (h : isIdentStart c = true) : isOpening c = true := by
  simp [isOpening, h]

theorem numeral_head {cs : List Char} (numeral : Number.Numeral cs) :
    ∃ c rest, cs = c :: rest ∧ c.isDigit = true := by
  cases numeral with
  | whole solid each =>
    obtain ⟨c, rest, rfl⟩ := List.exists_cons_of_ne_nil solid
    exact ⟨c, rest, rfl, each c (by simp)⟩
  | point solid more each fraction =>
    obtain ⟨c, rest, rfl⟩ := List.exists_cons_of_ne_nil solid
    exact ⟨c, _, rfl, each c (by simp)⟩

theorem chars_head {e : Expr} (h : Printable e) (base : e.isUnary = false) :
    ∃ c rest, e.chars = c :: rest ∧ isOpening c = true := by
  induction h with
  | @literal l spelled =>
    cases l with
    | undefined => exact ⟨'u', _, rfl, rfl⟩
    | null => exact ⟨'n', _, rfl, rfl⟩
    | bool b => cases b <;> exact ⟨_, _, rfl, rfl⟩
    | number x =>
      obtain ⟨c, rest, same, digit⟩ := numeral_head (Number.numeral_text spelled.1 spelled.2)
      exact ⟨c, rest, same, isOpening_of_isDigit digit⟩
    | string s => exact ⟨'"', _, by simp [chars, Literal.chars, Text.quote]; rfl, rfl⟩
  | ident word =>
    obtain ⟨c, rest, same, start, -⟩ := letters_of_identifier (identifier_of_variable word)
    exact ⟨c, rest, same, isOpening_of_isIdentStart start⟩
  | member inner whole word ih =>
    obtain ⟨c, rest, same, opening⟩ := ih inner
    exact ⟨c, _, by rw [chars, same]; rfl, opening⟩
  | element inner whole key ih _ =>
    obtain ⟨c, rest, same, opening⟩ := ih inner
    exact ⟨c, _, by rw [chars, same]; rfl, opening⟩
  | call inner whole each ih _ =>
    obtain ⟨c, rest, same, opening⟩ := ih inner
    exact ⟨c, _, by rw [chars, same]; rfl, opening⟩
  | list each => exact ⟨'[', _, by rw [chars]; rfl, rfl⟩
  | unary => cases base
  | binary => exact ⟨'(', _, by rw [chars]; rfl, rfl⟩
  | conditional => exact ⟨'(', _, by rw [chars]; rfl, rfl⟩

/-! ## Operands and bases -/

/-- Enough steps read the operand back, whatever settles it. -/
def Reads (e : Expr) : Prop :=
  ∀ (n : Nat) (cs : List Char), Settled cs → 4 * e.chars.length < n →
    readOperand n (e.chars ++ cs) = .ok (e.unsigned, cs)

/-- What has been read goes on as the accesses of this expression, at no more steps than it has
characters. -/
def Opens (e : Expr) : Prop :=
  ∀ (n : Nat) (cs : List Char), Apart cs → 4 * e.chars.length ≤ n →
    ∃ m, n ≤ m + e.chars.length ∧
      readOperand (n + 1) (e.chars ++ cs) = readAccesses m e.unsigned cs

theorem Opens.reads {e : Expr} (opens : Opens e) (solid : e.chars ≠ []) : Reads e := by
  intro n cs settled enough
  have long := List.length_pos_iff.mpr solid
  obtain ⟨n, rfl⟩ : ∃ k, n = k + 1 := ⟨n - 1, by omega⟩
  obtain ⟨m, bound, same⟩ := opens n cs settled.toApart (by omega)
  obtain ⟨m, rfl⟩ : ∃ k, m = k + 1 := ⟨m - 1, by omega⟩
  rw [same, readAccesses_settled settled]

theorem readOperand_opening {c : Char} (opening : isOpening c = true) (n : Nat) (cs : List Char) :
    readOperand (n + 1) (c :: cs) =
      (readPrimary n (c :: cs)).bind fun p => readAccesses n p.1 p.2 := by
  have skipped := skipSpace_cons (isSpace_of_isOpening opening) cs
  rw [readOperand, skipped]
  split
  · rename_i same
    cases same
    cases opening
  · rename_i same
    cases same
    cases opening
  · rfl

/-- A primary expression opens the accesses of itself. -/
theorem opens_of_primary {e : Expr} (printable : Printable e) (base : e.isUnary = false)
    (h : ∀ (n : Nat) (cs : List Char), Apart cs → 4 * e.chars.length ≤ n →
      readPrimary n (e.chars ++ cs) = .ok (e.unsigned, cs)) : Opens e := by
  intro n cs apart enough
  obtain ⟨c, rest, same, opening⟩ := chars_head printable base
  refine ⟨n, by omega, ?_⟩
  have whole := h n cs apart enough
  rw [same, List.cons_append] at whole ⊢
  rw [readOperand_opening opening, whole]
  rfl

theorem Reads.expr {e : Expr} (reads : Reads e) {n : Nat} {cs : List Char} (closed : Closed cs)
    (enough : 4 * e.chars.length + 1 < n) :
    readExpr n (e.chars ++ cs) = .ok (e.unsigned, skipSpace cs) := by
  obtain ⟨n, rfl⟩ : ∃ k, n = k + 2 := ⟨n - 2, by omega⟩
  exact readExpr_operand (reads (n + 1) cs closed.toSettled (by omega)) closed

theorem readOperand_space (n : Nat) (cs : List Char) :
    readOperand (n + 1) (' ' :: cs) = readOperand (n + 1) cs := by
  rw [readOperand, skipSpace_space, ← readOperand]

theorem readExpr_space (n : Nat) (cs : List Char) :
    readExpr (n + 2) (' ' :: cs) = readExpr (n + 2) cs := by
  rw [readExpr, readOperand_space, ← readExpr]

/-! ## Primary expressions -/

theorem ne_of_isIdentStart {c d : Char} (h : isIdentStart c = true)
    (other : isIdentStart d = false) : c ≠ d := by
  rintro rfl
  rw [h] at other
  cases other

theorem not_isDigit_of_isIdentStart {c : Char} (h : isIdentStart c = true) : ¬c.isDigit = true := by
  intro digit
  simp only [isIdentStart, Bool.or_eq_true, decide_eq_true_eq] at h
  rcases h with (letter | rfl) | rfl
  · simp only [Char.isAlpha, Char.isUpper, Char.isLower, Char.isDigit, Bool.or_eq_true,
      Bool.and_eq_true, decide_eq_true_eq, ge_iff_le, UInt32.le_iff_toNat_le] at letter digit
    revert letter digit
    simp
    omega
  · cases digit
  · cases digit

theorem readPrimary_identifier (word : String) (h : isIdentifier word.toList = true)
    {cs : List Char} (apart : Apart cs) (n : Nat) :
    readPrimary (n + 1) (word.toList ++ cs) = .ok (ofWord word, cs) := by
  obtain ⟨c, rest, same, start, each⟩ := letters_of_identifier h
  obtain ⟨taken, dropped⟩ := span_append each apart.word
  have quotes : ¬(decide (c = '\'') || decide (c = '"')) = true := by
    simp [ne_of_isIdentStart start (d := '\'') rfl, ne_of_isIdentStart start (d := '"') rfl]
  have whole : word.toList ++ cs = c :: (rest ++ cs) := by rw [same, List.cons_append]
  rw [whole, readPrimary, if_neg (not_isDigit_of_isIdentStart start), if_neg quotes, if_pos start,
    ← whole, taken, dropped, String.ofList_toList]
  · rfl
  · exact ne_of_isIdentStart start rfl
  · exact ne_of_isIdentStart start rfl

theorem readPrimary_numeral {ds : List Char} {x : Float} (numeral : Number.Numeral ds)
    (spells : Number.read? ds = some x) {cs : List Char} (apart : Apart cs) (n : Nat) :
    readPrimary (n + 1) (ds ++ cs) = .ok (.literal (.number x), cs) := by
  obtain ⟨c, rest, rfl, digit⟩ := numeral_head numeral
  have whole := readNumber_numeral numeral spells apart
  rw [List.cons_append] at whole ⊢
  rw [readPrimary, if_pos digit, whole]
  · rfl
  · rintro rfl
    cases digit
  · rintro rfl
    cases digit

theorem readPrimary_quote {s : List Char} (plain : ∀ c ∈ s, IsPlain c) (cs : List Char) (n : Nat) :
    readPrimary (n + 1) ('"' :: s.flatMap Text.quoteChar ++ '"' :: cs) =
      .ok (.literal (.string (String.ofList s)), cs) := by
  rw [List.cons_append, readPrimary, if_neg (by decide), if_pos (by decide),
    readString?_quote plain]
  · rfl
  · decide
  · decide

theorem readPrimary_parens {n : Nat} {cs rest : List Char} {e : Expr}
    (inner : readExpr n cs = .ok (e, ')' :: rest)) :
    readPrimary (n + 1) ('(' :: cs) = .ok (e, rest) := by
  simp only [readPrimary, inner, bind, Except.bind, expect_mark (c := ')') rfl]
  rfl

theorem readPrimary_list {n : Nat} {cs rest : List Char} {items : List Expr}
    (inner : readItems n ']' cs = .ok (items, rest)) :
    readPrimary (n + 1) ('[' :: cs) = .ok (.list items, rest) := by
  simp only [readPrimary, inner, bind, Except.bind]
  rfl

/-! ## Items -/

/-- The items after the first, each behind a comma and a space. -/
def tailChars (items : List Expr) : List Char := items.flatMap fun e => ',' :: ' ' :: e.chars

theorem charsOfAll_cons (e : Expr) (items : List Expr) :
    charsOfAll (e :: items) = e.chars ++ tailChars items := by
  induction items generalizing e with
  | nil => simp [charsOfAll, tailChars]
  | cons next items ih =>
    rw [charsOfAll, ih next]
    · simp [tailChars]
    · simp

/-- What follows an item closes it. -/
theorem closed_tailChars (items : List Expr) {close : Char} (mark : close ∈ [')', ']'])
    (cs : List Char) :
    Closed (tailChars items ++ close :: cs) ∧
      skipSpace (tailChars items ++ close :: cs) = tailChars items ++ close :: cs := by
  cases items with
  | nil =>
    simp only [List.mem_cons, List.not_mem_nil, or_false] at mark
    rcases mark with rfl | rfl
    · exact ⟨closed_mark (by simp) cs, skipSpace_cons rfl cs⟩
    · exact ⟨closed_mark (by simp) cs, skipSpace_cons rfl cs⟩
  | cons e items => exact ⟨closed_mark (by simp) _, skipSpace_cons rfl _⟩

theorem readMoreItems_tailChars {items : List Expr} (each : ∀ e ∈ items, Reads e) {close : Char}
    (mark : close ∈ [')', ']']) (cs : List Char) {n : Nat}
    (enough : 4 * (tailChars items).length < n) :
    readMoreItems n (tailChars items ++ close :: cs) = .ok (unsignedAll items, close :: cs) := by
  induction items generalizing n with
  | nil =>
    obtain ⟨n, rfl⟩ : ∃ k, n = k + 1 := ⟨n - 1, by omega⟩
    simp only [List.mem_cons, List.not_mem_nil, or_false] at mark
    rcases mark with rfl | rfl <;> rfl
  | cons e items ih =>
    simp only [tailChars, List.flatMap_cons, List.length_append, List.length_cons] at enough
    obtain ⟨n, rfl⟩ : ∃ k, n = k + 3 := ⟨n - 3, by omega⟩
    obtain ⟨closed, skipped⟩ := closed_tailChars items mark cs
    have first : readExpr (n + 2) (' ' :: (e.chars ++ (tailChars items ++ close :: cs))) =
        .ok (e.unsigned, tailChars items ++ close :: cs) := by
      rw [readExpr_space, (each e (by simp)).expr closed (by omega), skipped]
    have others : readMoreItems (n + 2) (tailChars items ++ close :: cs) =
        .ok (unsignedAll items, close :: cs) :=
      ih (fun e mem => each e (by simp [mem])) (by rw [tailChars]; omega)
    have written : tailChars (e :: items) ++ close :: cs =
        ',' :: ' ' :: (e.chars ++ (tailChars items ++ close :: cs)) := by
      simp [tailChars]
    rw [written, readMoreItems, skipSpace_cons rfl]
    simp only [first, others, bind, Except.bind]
    rfl

/-- A list of items is read up to the mark that closes it. -/
theorem readItems_charsOfAll {items : List Expr} (each : ∀ e ∈ items, Reads e)
    (heads : ∀ e ∈ items, ∃ c rest, e.chars = c :: rest ∧ isSpace c = false ∧ c ∉ [')', ']'])
    {close : Char} (mark : close ∈ [')', ']']) (cs : List Char) {n : Nat}
    (enough : 4 * (charsOfAll items).length + 2 < n) :
    readItems n close (charsOfAll items ++ close :: cs) = .ok (unsignedAll items, cs) := by
  have solid : isSpace close = false := by
    simp only [List.mem_cons, List.not_mem_nil, or_false] at mark
    rcases mark with rfl | rfl <;> rfl
  obtain ⟨n, rfl⟩ : ∃ k, n = k + 1 := ⟨n - 1, by omega⟩
  cases items with
  | nil =>
    rw [charsOfAll, List.nil_append, readItems, skipSpace_cons solid]
    simp only [if_true]
    rfl
  | cons e items =>
    rw [charsOfAll_cons, List.length_append] at enough
    obtain ⟨closed, skipped⟩ := closed_tailChars items mark cs
    have first : readExpr n (e.chars ++ (tailChars items ++ close :: cs)) =
        .ok (e.unsigned, tailChars items ++ close :: cs) := by
      rw [(each e (by simp)).expr closed (by omega), skipped]
    have others : readMoreItems n (tailChars items ++ close :: cs) =
        .ok (unsignedAll items, close :: cs) :=
      readMoreItems_tailChars (fun e mem => each e (by simp [mem])) mark cs (by omega)
    obtain ⟨c, rest, same, space, apart⟩ := heads e (by simp)
    have other : c ≠ close := fun eq => apart (eq ▸ mark)
    rw [same, List.cons_append] at first
    rw [charsOfAll_cons, List.append_assoc, same, List.cons_append, readItems, skipSpace_cons space]
    simp only [if_neg other, first, others, bind, Except.bind, expect_mark solid]
    rfl

/-! ## Every expression -/

theorem mem_numbersOfAll {x : Float} {e : Expr} {items : List Expr} (mem : e ∈ items)
    (written : x ∈ e.numbers) : x ∈ numbersOfAll items := by
  induction items with
  | nil => cases mem
  | cons first items ih =>
    rw [numbersOfAll, List.mem_append]
    rcases List.mem_cons.mp mem with rfl | mem
    · exact .inl written
    · exact .inr (ih mem)

theorem chars_head_closed {e : Expr} (h : Printable e) :
    ∃ c rest, e.chars = c :: rest ∧ isSpace c = false ∧ c ∉ [')', ']'] := by
  cases base : e.isUnary with
  | false =>
    obtain ⟨c, rest, same, opening⟩ := chars_head h base
    refine ⟨c, rest, same, isSpace_of_isOpening opening, ?_⟩
    simp [ne_of_isOpening opening (d := ')') rfl, ne_of_isOpening opening (d := ']') rfl]
  | true =>
    cases h with
    | @unary op e whole => cases op <;> exact ⟨_, e.chars, rfl, rfl, by decide⟩
    | _ => cases base

/-- The digits of a number are read back as that number. -/
def ReadsBack (x : Float) : Prop := x ≠ -0.0 → Number.read? (Number.text x).toList = some x

theorem read?_unsigned {x : Float} (h : ReadsBack x) :
    Number.read? (Number.text x).toList = some (Number.unsigned x) := by
  rw [Number.unsigned]
  by_cases zero : x = -0.0
  · rw [if_pos zero, zero]
    decide +kernel
  · rw [if_neg zero]
    exact h zero

theorem opens_literal {l : Literal} (spelled : Spelled l)
    (exact : ∀ x ∈ (literal l).numbers, ReadsBack x) : Opens (.literal l) := by
  refine opens_of_primary (.literal spelled) rfl fun n cs apart enough => ?_
  obtain ⟨c, rest, same, -⟩ := chars_head (.literal spelled) rfl
  obtain ⟨n, rfl⟩ : ∃ k, n = k + 1 := ⟨n - 1, by rw [same, List.length_cons] at enough; omega⟩
  cases l with
  | undefined => exact readPrimary_identifier "undefined" rfl apart n
  | null => exact readPrimary_identifier "null" rfl apart n
  | bool b =>
    cases b with
    | false => exact readPrimary_identifier "false" rfl apart n
    | true => exact readPrimary_identifier "true" rfl apart n
  | number x =>
    exact readPrimary_numeral (Number.numeral_text spelled.1 spelled.2)
      (read?_unsigned (exact x (by simp [numbers]))) apart n
  | string s =>
    have whole := readPrimary_quote spelled cs n
    rw [String.ofList_toList] at whole
    simpa [chars, Literal.chars, Text.quote, unsigned] using whole

theorem opens_ident {name : String} (word : isVariableName name = true) : Opens (.ident name) := by
  refine opens_of_primary (.ident word) rfl fun n cs apart enough => ?_
  obtain ⟨c, rest, same, -⟩ := letters_of_identifier (identifier_of_variable word)
  rw [chars] at enough ⊢
  obtain ⟨n, rfl⟩ : ∃ k, n = k + 1 := ⟨n - 1, by rw [same, List.length_cons] at enough; omega⟩
  rw [readPrimary_identifier name (identifier_of_variable word) apart, ofWord_of_variable word]
  rfl

theorem opens_member {e : Expr} {name : String} (opens : Opens e) (solid : e.chars ≠ [])
    (word : isVariableName name = true) : Opens (.member e name) := by
  intro n cs apart enough
  have long := List.length_pos_iff.mpr solid
  obtain ⟨c, rest, same, start, each⟩ := letters_of_identifier (identifier_of_variable word)
  have following : Apart ('.' :: (name.toList ++ cs)) := by
    refine ⟨by simp [isIdentChar], fun d more eq => ?_⟩
    rw [same] at eq
    cases eq
    simpa using not_isDigit_of_isIdentStart start
  rw [chars, List.length_append, List.length_cons] at enough ⊢
  obtain ⟨m, bound, read⟩ := opens n ('.' :: (name.toList ++ cs)) following (by omega)
  obtain ⟨m, rfl⟩ : ∃ k, m = k + 1 := ⟨m - 1, by omega⟩
  refine ⟨m, by omega, ?_⟩
  rw [List.append_assoc, List.cons_append, read, readAccesses, skipSpace_cons rfl]
  simp only [readName_variable word apart, bind, Except.bind]
  rfl

theorem opens_element {e key : Expr} (opens : Opens e) (solid : e.chars ≠ []) (inner : Reads key) :
    Opens (.element e key) := by
  intro n cs apart enough
  have long := List.length_pos_iff.mpr solid
  have following : Apart ('[' :: (key.chars ++ ']' :: cs)) := .cons rfl (by decide) _
  simp only [chars, List.length_append, List.length_cons, List.length_nil] at enough ⊢
  obtain ⟨m, bound, read⟩ := opens n _ following (by omega)
  obtain ⟨m, rfl⟩ : ∃ k, m = k + 1 := ⟨m - 1, by omega⟩
  have closed : Closed (']' :: cs) := closed_mark (by simp) cs
  have whole := inner.expr (n := m) closed (by omega)
  rw [skipSpace_cons rfl] at whole
  refine ⟨m, by omega, ?_⟩
  have written : e.chars ++ '[' :: key.chars ++ [']'] ++ cs =
      e.chars ++ '[' :: (key.chars ++ ']' :: cs) := by simp
  rw [written, read, readAccesses, skipSpace_cons rfl]
  simp only [whole, bind, Except.bind, expect_mark (c := ']') rfl]
  rfl

theorem opens_call {e : Expr} {args : List Expr} (opens : Opens e) (solid : e.chars ≠ [])
    (printable : ∀ a ∈ args, Printable a) (each : ∀ a ∈ args, Reads a) : Opens (.call e args) := by
  intro n cs apart enough
  have long := List.length_pos_iff.mpr solid
  have following : Apart ('(' :: (charsOfAll args ++ ')' :: cs)) := .cons rfl (by decide) _
  simp only [chars, List.length_append, List.length_cons, List.length_nil] at enough ⊢
  obtain ⟨m, bound, read⟩ := opens n _ following (by omega)
  obtain ⟨m, rfl⟩ : ∃ k, m = k + 1 := ⟨m - 1, by omega⟩
  have whole := readItems_charsOfAll each (fun a mem => chars_head_closed (printable a mem))
    (by simp : ')' ∈ [')', ']']) cs (n := m) (by omega)
  refine ⟨m, by omega, ?_⟩
  have written : e.chars ++ '(' :: charsOfAll args ++ [')'] ++ cs =
      e.chars ++ '(' :: (charsOfAll args ++ ')' :: cs) := by simp
  rw [written, read, readAccesses, skipSpace_cons rfl]
  simp only [whole, bind, Except.bind]
  rfl

theorem opens_list {items : List Expr} (printable : ∀ a ∈ items, Printable a)
    (each : ∀ a ∈ items, Reads a) : Opens (.list items) := by
  refine opens_of_primary (.list printable) rfl fun n cs apart enough => ?_
  simp only [chars, List.length_append, List.length_cons, List.length_nil] at enough
  obtain ⟨n, rfl⟩ : ∃ k, n = k + 1 := ⟨n - 1, by omega⟩
  have whole := readItems_charsOfAll each (fun a mem => chars_head_closed (printable a mem))
    (by simp : ']' ∈ [')', ']']) cs (n := n) (by omega)
  have written : (Expr.list items).chars ++ cs = '[' :: (charsOfAll items ++ ']' :: cs) := by
    simp [chars]
  rw [written, readPrimary_list whole, unsigned]

theorem opens_binary {op : BinaryOp} {left right : Expr}
    (printable : Printable (.binary op left right)) (first : Reads left) (second : Reads right) :
    Opens (.binary op left right) := by
  refine opens_of_primary printable rfl fun n cs apart enough => ?_
  simp only [chars, List.length_append, List.length_cons, List.length_nil] at enough
  obtain ⟨n, rfl⟩ : ∃ k, n = k + 4 := ⟨n - 4, by omega⟩
  have closed : Closed (')' :: cs) := closed_mark (by simp) cs
  have before := first (n + 2) (' ' :: (op.symbol ++ ' ' :: (right.chars ++ ')' :: cs)))
    (settled_operator op _) (by omega)
  have after : readOperand (n + 1) (' ' :: (right.chars ++ ')' :: cs)) =
      .ok (right.unsigned, ')' :: cs) := by
    rw [readOperand_space, second (n + 1) _ closed.toSettled (by omega)]
  have whole := readExpr_pair before after closed
  rw [skipSpace_cons rfl] at whole
  have written : (Expr.binary op left right).chars ++ cs =
      '(' :: (left.chars ++ ' ' :: (op.symbol ++ ' ' :: (right.chars ++ ')' :: cs))) := by
    simp [chars]
  rw [written, readPrimary_parens whole, unsigned]

theorem opens_conditional {test yes no : Expr} (printable : Printable (.conditional test yes no))
    (first : Reads test) (second : Reads yes) (third : Reads no) :
    Opens (.conditional test yes no) := by
  refine opens_of_primary printable rfl fun n cs apart enough => ?_
  simp only [chars, List.length_append, List.length_cons, List.length_nil] at enough
  obtain ⟨n, rfl⟩ : ∃ k, n = k + 4 := ⟨n - 4, by omega⟩
  have closed : Closed (')' :: cs) := closed_mark (by simp) cs
  have asked := first (n + 2)
    (' ' :: '?' :: ' ' :: (yes.chars ++ ' ' :: ':' :: ' ' :: (no.chars ++ ')' :: cs)))
    (settled_question _) (by omega)
  have chosen : readExpr (n + 2)
      (' ' :: (yes.chars ++ ' ' :: ':' :: ' ' :: (no.chars ++ ')' :: cs))) =
      .ok (yes.unsigned, ':' :: ' ' :: (no.chars ++ ')' :: cs)) := by
    rw [readExpr_space, second.expr (closed_colon _) (by omega), skipSpace_space,
      skipSpace_cons rfl]
  have other : readExpr (n + 2) (' ' :: (no.chars ++ ')' :: cs)) =
      .ok (no.unsigned, ')' :: cs) := by
    rw [readExpr_space, third.expr closed (by omega), skipSpace_cons rfl]
  have written : (Expr.conditional test yes no).chars ++ cs =
      '(' :: (test.chars ++
        ' ' :: '?' :: ' ' :: (yes.chars ++ ' ' :: ':' :: ' ' :: (no.chars ++ ')' :: cs))) := by
    simp [chars]
  rw [written, readPrimary_parens (readExpr_choice asked chosen other), unsigned]

theorem reads_unary {op : UnaryOp} {e : Expr} (inner : Reads e) : Reads (.unary op e) := by
  intro n cs settled enough
  simp only [chars, List.length_cons] at enough
  obtain ⟨n, rfl⟩ : ∃ k, n = k + 1 := ⟨n - 1, by omega⟩
  have whole := inner n cs settled (by omega)
  cases op with
  | not =>
    rw [chars, UnaryOp.symbol, List.cons_append, readOperand, skipSpace_cons rfl]
    simp only [whole, bind, Except.bind]
    rfl
  | neg =>
    rw [chars, UnaryOp.symbol, List.cons_append, readOperand, skipSpace_cons rfl]
    simp only [whole, bind, Except.bind]
    rfl

/-- Every printable expression is read back, as an operand and as the base of an access. -/
theorem reads_of_printable {e : Expr} (h : Printable e) (exact : ∀ x ∈ e.numbers, ReadsBack x) :
    Reads e ∧ (e.isUnary = false → Opens e) := by
  -- Bases are never unary, so their accesses are read by `Opens` and all else by `Reads`.
  have both {e : Expr} (h : Printable e) (opens : Opens e) :
      Reads e ∧ (e.isUnary = false → Opens e) := by
    obtain ⟨c, rest, same, -⟩ := chars_head_closed h
    exact ⟨opens.reads (by simp [same]), fun _ => opens⟩
  induction h with
  | literal spelled => exact both (.literal spelled) (opens_literal spelled exact)
  | ident word => exact both (.ident word) (opens_ident word)
  | member base whole word ih =>
    obtain ⟨c, rest, same, -⟩ := chars_head_closed whole
    exact both (.member base whole word)
      (opens_member ((ih exact).2 base) (by simp [same]) word)
  | element base whole inner ih ihKey =>
    simp only [numbers, List.mem_append] at exact
    obtain ⟨c, rest, same, -⟩ := chars_head_closed whole
    exact both (.element base whole inner)
      (opens_element ((ih fun x mem => exact x (.inl mem)).2 base) (by simp [same])
        (ihKey fun x mem => exact x (.inr mem)).1)
  | call base whole each ih ihArgs =>
    simp only [numbers, List.mem_append] at exact
    obtain ⟨c, rest, same, -⟩ := chars_head_closed whole
    have opens := (ih fun x mem => exact x (.inl mem)).2 base
    refine both (.call base whole each) (opens_call opens (by simp [same]) each fun a mem => ?_)
    exact (ihArgs a mem fun x written => exact x (.inr (mem_numbersOfAll mem written))).1
  | list each ih =>
    refine both (.list each) (opens_list each fun a mem => ?_)
    exact (ih a mem fun x written => exact x (mem_numbersOfAll mem written)).1
  | unary whole ih => exact ⟨reads_unary (ih exact).1, fun base => by cases base⟩
  | binary first second ihLeft ihRight =>
    simp only [numbers, List.mem_append] at exact
    exact both (.binary first second)
      (opens_binary (.binary first second) (ihLeft fun x mem => exact x (.inl mem)).1
        (ihRight fun x mem => exact x (.inr mem)).1)
  | conditional first second third ihTest ihYes ihNo =>
    simp only [numbers, List.mem_append] at exact
    exact both (.conditional first second third)
      (opens_conditional (.conditional first second third)
        (ihTest fun x mem => exact x (.inl (.inl mem))).1
        (ihYes fun x mem => exact x (.inl (.inr mem))).1
        (ihNo fun x mem => exact x (.inr mem)).1)

mutual

theorem unsigned_eq_self : ∀ (e : Expr), -0.0 ∉ e.numbers → e.unsigned = e
  | .literal (.number x), h => by
    have other : x ≠ -0.0 := fun same => h (by simp [numbers, same])
    rw [unsigned, Number.unsigned, if_neg other]
  | .literal .undefined, _ => rfl
  | .literal .null, _ => rfl
  | .literal (.bool _), _ => rfl
  | .literal (.string _), _ => rfl
  | .ident _, _ => rfl
  | .member e name, h => by rw [unsigned, unsigned_eq_self e h]
  | .element e key, h => by
    simp only [numbers, List.mem_append, not_or] at h
    rw [unsigned, unsigned_eq_self e h.1, unsigned_eq_self key h.2]
  | .call callee args, h => by
    simp only [numbers, List.mem_append, not_or] at h
    rw [unsigned, unsigned_eq_self callee h.1, unsignedAll_eq_self args h.2]
  | .list items, h => by rw [unsigned, unsignedAll_eq_self items h]
  | .unary op e, h => by rw [unsigned, unsigned_eq_self e h]
  | .binary op left right, h => by
    simp only [numbers, List.mem_append, not_or] at h
    rw [unsigned, unsigned_eq_self left h.1, unsigned_eq_self right h.2]
  | .conditional test yes no, h => by
    simp only [numbers, List.mem_append, not_or] at h
    rw [unsigned, unsigned_eq_self test h.1.1, unsigned_eq_self yes h.1.2, unsigned_eq_self no h.2]

theorem unsignedAll_eq_self : ∀ (items : List Expr), -0.0 ∉ numbersOfAll items →
    unsignedAll items = items
  | [], _ => rfl
  | e :: items, h => by
    simp only [numbersOfAll, List.mem_append, not_or] at h
    rw [unsignedAll, unsigned_eq_self e h.1, unsignedAll_eq_self items h.2]

end

/-- A printed expression reads back as the same expression. The sign of a negative zero is not
written, so it comes back as zero. -/
theorem parse_text {e : Expr} (printable : Printable e) (exact : ∀ x ∈ e.numbers, ReadsBack x) :
    parse e.text = .ok e.unsigned ∧ (-0.0 ∉ e.numbers → parse e.text = .ok e) := by
  have whole := (reads_of_printable printable exact).1.expr (n := stepBound e.chars) closed_nil
    (by rw [stepBound]; omega)
  rw [List.append_nil] at whole
  have parsed : parse e.text = .ok e.unsigned := by
    simp only [parse, text, String.toList_ofList, whole]
    rfl
  refine ⟨parsed, fun signed => ?_⟩
  rw [parsed, unsigned_eq_self e signed]

/-- Every constructor, with accesses of a name, of parentheses and below a prefix:
`((!a.b[1.5](["\"\n"], undefined) === -(0 <= $)) ? (7 - y)[x] : null)`. -/
theorem parse_text_nested :
    let call : Expr := .call (.element (.member (.ident "a") "b") (.literal (.number 1.5)))
      [.list [.literal (.string "\"\n")], .literal .undefined]
    let bound : Expr := .unary .neg (.binary .le (.literal (.number 0)) (.ident "$"))
    let e : Expr := .conditional (.binary .strictEq (.unary .not call) bound)
      (.element (.binary .sub (.literal (.number 7)) (.ident "y")) (.ident "x")) (.literal .null)
    e.Printable ∧ (∀ x ∈ e.numbers, ReadsBack x) ∧ -0.0 ∉ e.numbers ∧ parse e.text = .ok e := by
  intro call bound e
  have called : call.Printable := by
    refine .call rfl (.element rfl (.member rfl (.ident rfl) rfl) (.literal (by decide +kernel))) ?_
    simp only [List.mem_cons, List.not_mem_nil, or_false, forall_eq_or_imp, forall_eq]
    refine ⟨.list ?_, .literal trivial⟩
    simp only [List.mem_cons, List.not_mem_nil, or_false, forall_eq]
    exact .literal (by decide +kernel)
  have bounded : bound.Printable := .unary (.binary (.literal (by decide +kernel)) (.ident rfl))
  have printable : e.Printable :=
    .conditional (.binary (.unary called) bounded)
      (.element rfl (.binary (.literal (by decide +kernel)) (.ident rfl)) (.ident rfl))
      (.literal trivial)
  have exact : ∀ x ∈ e.numbers, ReadsBack x := by
    change ∀ x ∈ [1.5, 0, 7], ReadsBack x
    simp only [List.mem_cons, List.not_mem_nil, or_false, forall_eq_or_imp, forall_eq, ReadsBack]
    decide +kernel
  have plain : -0.0 ∉ e.numbers := by
    change -0.0 ∉ [1.5, 0, 7]
    simp only [List.mem_cons, List.not_mem_nil, or_false]
    decide +kernel
  exact ⟨printable, exact, plain, (parse_text printable exact).2 plain⟩

end Expr
end LiveTemplate
