import LiveTemplate.Proofs.Printing

/-!
# LiveTemplate.Proofs.Grammar

The grammar of expressions, as derivations, beside the reader. A derivation says which text a phrase
may be written as and nothing about how that text is read: it has no lookahead and no bound on
steps.

  * `Phrase`          what a piece of text stands for
  * `Derives`         the texts of a phrase, with the blanks that may stand before its tokens
  * `Sound`           whatever the reader takes, the grammar derives
  * `sound`           for every number of steps
-/

namespace LiveTemplate
namespace Expr

/-! ## Derivations -/

/-- Nothing, or blanks between two tokens. -/
def Gap (cs : List Char) : Prop := ∀ c ∈ cs, isSpace c = true

/-- The text between two quotes, and the string that it stands for. -/
inductive Quoted (quote : Char) : List Char → List Char → Prop
  | nil : Quoted quote [] []
  | plain {c : Char} {w s : List Char} (inside : c ≠ quote) (bare : c ≠ '\\')
      (rest : Quoted quote w s) : Quoted quote (c :: w) (c :: s)
  | escape {c : Char} {w s : List Char} (rest : Quoted quote w s) :
      Quoted quote ('\\' :: c :: w) (unescape c :: s)

/-- What a piece of text stands for. -/
inductive Phrase where
  | expr (e : Expr)
  | operand (e : Expr)
  /-- The operators and operands that continue a chain. -/
  | operations (rest : List (BinaryOp × Expr))
  | primary (e : Expr)
  /-- The accesses that make `e` of `base`. -/
  | accesses (base e : Expr)
  | items (es : List Expr)
  /-- Items that each stand behind a comma. -/
  | moreItems (es : List Expr)

/-- The text is a way to write the phrase. Blanks stand in front of tokens, so that a text with
blanks at its end is none. -/
inductive Derives : Phrase → List Char → Prop
  | chain {first : Expr} {rest : List (BinaryOp × Expr)} {w v : List Char}
      (operand : Derives (.operand first) w) (operations : Derives (.operations rest) v) :
      Derives (.expr (Chain.resolve ⟨first, rest⟩)) (w ++ v)
  | conditional {first yes no : Expr} {rest : List (BinaryOp × Expr)}
      {w v b y c z : List Char} (operand : Derives (.operand first) w)
      (operations : Derives (.operations rest) v) (gap : Gap b) (second : Derives (.expr yes) y)
      (gap' : Gap c) (third : Derives (.expr no) z) :
      Derives (.expr (.conditional (Chain.resolve ⟨first, rest⟩) yes no))
        (w ++ (v ++ (b ++ '?' :: (y ++ (c ++ ':' :: z)))))
  | unary {op : UnaryOp} {e : Expr} {b w : List Char} (gap : Gap b)
      (operand : Derives (.operand e) w) :
      Derives (.operand (.unary op e)) (b ++ op.symbol :: w)
  | accessed {base e : Expr} {b w v : List Char} (gap : Gap b)
      (primary : Derives (.primary base) w) (accesses : Derives (.accesses base e) v) :
      Derives (.operand e) (b ++ (w ++ v))
  | noOperations : Derives (.operations []) []
  | operation {op : BinaryOp} {e : Expr} {rest : List (BinaryOp × Expr)} {b w v : List Char}
      (gap : Gap b) (operand : Derives (.operand e) w) (operations : Derives (.operations rest) v) :
      Derives (.operations ((op, e) :: rest)) (b ++ (op.symbol ++ (w ++ v)))
  | number {x : Float} {w : List Char} (numeral : Number.Numeral w)
      (spells : Number.read? w = some x) : Derives (.primary (.literal (.number x))) w
  | string {quote : Char} {w s : List Char} (mark : quote ∈ ['\'', '"'])
      (quoted : Quoted quote w s) :
      Derives (.primary (.literal (.string (String.ofList s)))) (quote :: (w ++ [quote]))
  | word {w : List Char} (identifier : isIdentifier w = true) :
      Derives (.primary (ofWord (String.ofList w))) w
  | parens {e : Expr} {w b : List Char} (inner : Derives (.expr e) w) (gap : Gap b) :
      Derives (.primary e) ('(' :: (w ++ (b ++ [')'])))
  | list {es : List Expr} {w b : List Char} (inner : Derives (.items es) w) (gap : Gap b) :
      Derives (.primary (.list es)) ('[' :: (w ++ (b ++ [']'])))
  | noAccess {e : Expr} : Derives (.accesses e e) []
  | member {base e : Expr} {name : String} {b c v : List Char} (gap : Gap b) (gap' : Gap c)
      (word : isVariableName name = true) (accesses : Derives (.accesses (.member base name) e) v) :
      Derives (.accesses base e) (b ++ '.' :: (c ++ (name.toList ++ v)))
  | element {base key e : Expr} {b w c v : List Char} (gap : Gap b)
      (inner : Derives (.expr key) w) (gap' : Gap c)
      (accesses : Derives (.accesses (.element base key) e) v) :
      Derives (.accesses base e) (b ++ '[' :: (w ++ (c ++ ']' :: v)))
  | call {base e : Expr} {args : List Expr} {b w c v : List Char} (gap : Gap b)
      (inner : Derives (.items args) w) (gap' : Gap c)
      (accesses : Derives (.accesses (.call base args) e) v) :
      Derives (.accesses base e) (b ++ '(' :: (w ++ (c ++ ')' :: v)))
  | noItems : Derives (.items []) []
  | items {e : Expr} {es : List Expr} {w v : List Char} (first : Derives (.expr e) w)
      (more : Derives (.moreItems es) v) : Derives (.items (e :: es)) (w ++ v)
  | noMore : Derives (.moreItems []) []
  | more {e : Expr} {es : List Expr} {b w v : List Char} (gap : Gap b)
      (first : Derives (.expr e) w) (more : Derives (.moreItems es) v) :
      Derives (.moreItems (e :: es)) (b ++ ',' :: (w ++ v))

/-! ## Blanks -/

theorem Gap.nil : Gap [] := by simp [Gap]

theorem Gap.append {b c : List Char} (h : Gap b) (k : Gap c) : Gap (b ++ c) := by
  intro d mem
  rcases List.mem_append.mp mem with mem | mem
  · exact h d mem
  · exact k d mem

theorem skipSpace_gap {b : List Char} (gap : Gap b) (cs : List Char) :
    skipSpace (b ++ cs) = skipSpace cs := List.dropWhile_append_of_pos gap

/-- What is skipped is a gap. -/
theorem gap_of_skipSpace (cs : List Char) : ∃ b, Gap b ∧ cs = b ++ skipSpace cs :=
  ⟨cs.takeWhile isSpace, fun _ mem => List.mem_takeWhile_imp mem,
    List.takeWhile_append_dropWhile.symm⟩

/-- The text starts with the phrase and, after blanks, goes on with `rest`. -/
def Phrase.Begins (p : Phrase) (cs rest : List Char) : Prop :=
  ∃ w b, cs = w ++ (b ++ rest) ∧ Gap b ∧ Derives p w

/-- Blanks before the next item belong to its comma, or follow the last item. -/
theorem begins_moreItems {es : List Expr} {b cs rest : List Char} (gap : Gap b)
    (h : (Phrase.moreItems es).Begins cs rest) : (Phrase.moreItems es).Begins (b ++ cs) rest := by
  obtain ⟨w, c, rfl, after, derived⟩ := h
  cases derived with
  | noMore => exact ⟨[], b ++ c, by simp, gap.append after, .noMore⟩
  | @more e es d w v before first others =>
    exact ⟨_, c, by simp, after, .more (gap.append before) first others⟩

theorem Derives.operand_after_gap {e : Expr} {w b : List Char} (h : Derives (.operand e) w)
    (gap : Gap b) : Derives (.operand e) (b ++ w) := by
  cases h with
  | unary inner operand =>
    rw [← List.append_assoc]
    exact .unary (gap.append inner) operand
  | accessed inner primary accesses =>
    rw [← List.append_assoc]
    exact .accessed (gap.append inner) primary accesses

/-- Blanks before an expression belong to it. -/
theorem Derives.after_gap {e : Expr} {w b : List Char} (h : Derives (.expr e) w) (gap : Gap b) :
    Derives (.expr e) (b ++ w) := by
  cases h with
  | chain operand operations =>
    rw [← List.append_assoc]
    exact .chain (operand.operand_after_gap gap) operations
  | conditional operand operations before second between third =>
    rw [← List.append_assoc]
    exact .conditional (operand.operand_after_gap gap) operations before second between third

/-! ## Tokens -/

theorem derives_readString? {quote : Char} {cs s after : List Char}
    (h : readString? quote cs = some (s, after)) :
    ∃ w, cs = w ++ quote :: after ∧ Quoted quote w s := by
  fun_induction readString? quote cs generalizing s with
  | case1 => cases h
  | case2 c rest ih =>
    obtain ⟨⟨t, more⟩, found, same⟩ := Option.map_eq_some_iff.mp h
    cases same
    obtain ⟨w, rfl, quoted⟩ := ih found
    exact ⟨_, rfl, .escape quoted⟩
  | case3 rest plain =>
    cases h
    exact ⟨[], rfl, .nil⟩
  | case4 => cases h
  | case5 c rest plain other bare ih =>
    obtain ⟨⟨t, more⟩, found, same⟩ := Option.map_eq_some_iff.mp h
    cases same
    obtain ⟨w, rfl, quoted⟩ := ih found
    exact ⟨_, rfl, .plain other bare quoted⟩

theorem derives_readNumber {cs rest : List Char} {x : Float}
    (digits : cs.takeWhile Char.isDigit ≠ []) (h : readNumber cs = (x, rest)) :
    ∃ w, cs = w ++ rest ∧ Number.Numeral w ∧ Number.read? w = some x := by
  have each : ∀ c ∈ cs.takeWhile Char.isDigit, c.isDigit = true :=
    fun _ mem => List.mem_takeWhile_imp mem
  have whole : ∃ w, cs = w ++ cs.dropWhile Char.isDigit ∧ Number.Numeral w ∧
      Number.read? w = some (Number.ofDecimal (Number.ofDigits (cs.takeWhile Char.isDigit)) 0) := by
    refine ⟨_, List.takeWhile_append_dropWhile.symm, .whole digits each, ?_⟩
    have spelled := readMagnitude?_whole digits each
    rw [← List.append_nil (cs.takeWhile Char.isDigit)] at spelled ⊢
    simpa using read?_digits digits each spelled
  rw [readNumber] at h
  split at h
  · rename_i more point
    by_cases fraction : more.takeWhile Char.isDigit = []
    · rw [if_pos (by simp [fraction])] at h
      cases h
      rwa [point] at whole
    · rw [if_neg (by simp [fraction])] at h
      cases h
      have places : ∀ c ∈ more.takeWhile Char.isDigit, c.isDigit = true :=
        fun _ mem => List.mem_takeWhile_imp mem
      refine ⟨_, ?_, .point digits fraction each places,
        read?_digits digits each (readMagnitude?_point digits each places)⟩
      rw [List.append_assoc, List.cons_append, List.takeWhile_append_dropWhile, ← point,
        List.takeWhile_append_dropWhile]
  · cases h
    exact whole

theorem identifier_takeWhile {c : Char} (start : isIdentStart c = true) (cs : List Char) :
    isIdentifier ((c :: cs).takeWhile isIdentChar) = true := by
  have front : (c :: cs).takeWhile isIdentChar = c :: cs.takeWhile isIdentChar := by
    simp [isIdentChar_of_isIdentStart start]
  rw [front, isIdentifier, start, Bool.true_and, List.all_eq_true]
  exact fun _ mem => List.mem_takeWhile_imp mem

theorem derives_readName {cs rest : List Char} {name : String}
    (h : readName cs = .ok (name, rest)) :
    ∃ b, Gap b ∧ cs = b ++ (name.toList ++ rest) ∧ isVariableName name = true := by
  obtain ⟨b, gap, same⟩ := gap_of_skipSpace cs
  rw [readName] at h
  dsimp only at h
  split at h
  · rename_i c more front
    split at h
    · rename_i word
      simp only [Bool.and_eq_true] at word
      cases h
      refine ⟨b, gap, ?_, ?_⟩
      · rwa [String.toList_ofList, List.takeWhile_append_dropWhile]
      · rw [isVariableName, String.toList_ofList, word.2, front, identifier_takeWhile word.1]
        rfl
    · cases h
  · cases h

theorem derives_expect {mark : Char} {cs rest : List Char} (h : expect mark cs = .ok rest) :
    ∃ b, Gap b ∧ cs = b ++ mark :: rest := by
  obtain ⟨b, gap, same⟩ := gap_of_skipSpace cs
  rw [expect] at h
  split at h
  · rename_i c more front
    split at h
    · rename_i here
      cases h
      exact ⟨b, gap, by rwa [front, here] at same⟩
    · cases h
  · cases h

theorem symbol_of_readInfix? {cs rest : List Char} {op : BinaryOp}
    (h : readInfix? cs = some (op, rest)) : cs = op.symbol ++ rest := by
  unfold readInfix? at h
  split at h <;> cases h <;> rfl

/-! ## The reader stays inside the grammar -/

/-- Whatever the reader takes within `n` steps, the grammar derives. -/
structure Sound (n : Nat) : Prop where
  expr {cs rest : List Char} {e : Expr} (read : readExpr n cs = .ok (e, rest)) :
    (Phrase.expr e).Begins cs rest
  operand {cs rest : List Char} {e : Expr} (read : readOperand n cs = .ok (e, rest)) :
    ∃ w, cs = w ++ rest ∧ Derives (.operand e) w
  operations {cs rest : List Char} {os : List (BinaryOp × Expr)}
    (read : readOperations n cs = .ok (os, rest)) : ∃ w, cs = w ++ rest ∧ Derives (.operations os) w
  primary {cs rest : List Char} {e : Expr} (read : readPrimary n cs = .ok (e, rest)) :
    ∃ w, cs = w ++ rest ∧ Derives (.primary e) w
  accesses {cs rest : List Char} {base e : Expr}
    (read : readAccesses n base cs = .ok (e, rest)) :
    ∃ w, cs = w ++ rest ∧ Derives (.accesses base e) w
  items {close : Char} {cs rest : List Char} {es : List Expr}
    (read : readItems n close cs = .ok (es, rest)) : (Phrase.items es).Begins cs (close :: rest)
  moreItems {cs rest : List Char} {es : List Expr}
    (read : readMoreItems n cs = .ok (es, rest)) : (Phrase.moreItems es).Begins cs rest

namespace Sound

variable {n : Nat} {cs rest : List Char}

theorem readExpr_succ (h : Sound n) {e : Expr} (read : readExpr (n + 1) cs = .ok (e, rest)) :
    (Phrase.expr e).Begins cs rest := by
  rw [readExpr] at read
  obtain ⟨⟨first, mid⟩, readFirst, next⟩ := exists_of_bind_eq_ok read
  obtain ⟨⟨others, behind⟩, readOthers, last⟩ := exists_of_bind_eq_ok next
  obtain ⟨w, rfl, operand⟩ := h.operand readFirst
  obtain ⟨v, rfl, operations⟩ := h.operations readOthers
  obtain ⟨b, gap, skipped⟩ := gap_of_skipSpace behind
  dsimp only at last
  split at last
  · rename_i more question
    obtain ⟨⟨yes, _⟩, readYes, next⟩ := exists_of_bind_eq_ok last
    obtain ⟨_, colon, next'⟩ := exists_of_bind_eq_ok next
    obtain ⟨⟨no, _⟩, readNo, same⟩ := exists_of_bind_eq_ok next'
    cases same
    obtain ⟨y, c, rfl, inner, second⟩ := h.expr readYes
    obtain ⟨d, gap', rfl⟩ := derives_expect colon
    obtain ⟨z, after, rfl, outer, third⟩ := h.expr readNo
    refine ⟨_, after, ?_, outer,
      .conditional operand operations gap second (inner.append gap') third⟩
    rw [skipped, question]
    simp
  · cases last
    exact ⟨_, b, by rw [List.append_assoc, ← skipped], gap, .chain operand operations⟩

theorem readOperand_succ (h : Sound n) {e : Expr}
    (read : readOperand (n + 1) cs = .ok (e, rest)) :
    ∃ w, cs = w ++ rest ∧ Derives (.operand e) w := by
  obtain ⟨b, gap, skipped⟩ := gap_of_skipSpace cs
  rw [readOperand] at read
  split at read
  · rename_i more front
    obtain ⟨⟨inner, _⟩, readInner, same⟩ := exists_of_bind_eq_ok read
    cases same
    obtain ⟨w, rfl, operand⟩ := h.operand readInner
    exact ⟨_, by rw [skipped, front]; simp [UnaryOp.symbol], @Derives.unary .not _ _ _ gap operand⟩
  · rename_i more front
    obtain ⟨⟨inner, _⟩, readInner, same⟩ := exists_of_bind_eq_ok read
    cases same
    obtain ⟨w, rfl, operand⟩ := h.operand readInner
    exact ⟨_, by rw [skipped, front]; simp [UnaryOp.symbol], @Derives.unary .neg _ _ _ gap operand⟩
  · obtain ⟨⟨base, _⟩, readBase, next⟩ := exists_of_bind_eq_ok read
    obtain ⟨w, front, primary⟩ := h.primary readBase
    obtain ⟨v, rfl, accesses⟩ := h.accesses next
    exact ⟨_, by rw [skipped, front]; simp, .accessed gap primary accesses⟩

theorem readOperations_succ (h : Sound n) {os : List (BinaryOp × Expr)}
    (read : readOperations (n + 1) cs = .ok (os, rest)) :
    ∃ w, cs = w ++ rest ∧ Derives (.operations os) w := by
  obtain ⟨b, gap, skipped⟩ := gap_of_skipSpace cs
  rw [readOperations] at read
  split at read
  · cases read
    exact ⟨[], rfl, .noOperations⟩
  · rename_i op more joint
    obtain ⟨⟨e, _⟩, readFirst, next⟩ := exists_of_bind_eq_ok read
    obtain ⟨⟨others, _⟩, readOthers, same⟩ := exists_of_bind_eq_ok next
    cases same
    obtain ⟨w, rfl, operand⟩ := h.operand readFirst
    obtain ⟨v, rfl, operations⟩ := h.operations readOthers
    refine ⟨_, ?_, @Derives.operation op _ _ _ _ _ gap operand operations⟩
    rw [skipped, symbol_of_readInfix? joint]
    simp

theorem readPrimary_succ (h : Sound n) {e : Expr}
    (read : readPrimary (n + 1) cs = .ok (e, rest)) :
    ∃ w, cs = w ++ rest ∧ Derives (.primary e) w := by
  rw [readPrimary.eq_def] at read
  dsimp only at read
  split at read
  · cases read
  · obtain ⟨⟨inner, _⟩, readInner, next⟩ := exists_of_bind_eq_ok read
    obtain ⟨_, closing, same⟩ := exists_of_bind_eq_ok next
    cases same
    obtain ⟨w, b, rfl, gap, derived⟩ := h.expr readInner
    obtain ⟨c, gap', rfl⟩ := derives_expect closing
    exact ⟨_, by simp, .parens derived (gap.append gap')⟩
  · obtain ⟨⟨items, _⟩, readInner, same⟩ := exists_of_bind_eq_ok read
    cases same
    obtain ⟨w, b, rfl, gap, derived⟩ := h.items readInner
    exact ⟨_, by simp, .list derived gap⟩
  · rename_i c more _ _
    split at read
    · rename_i digit
      obtain ⟨w, same, numeral, spells⟩ :=
        @derives_readNumber (c :: more) _ _ (by simp [digit]) rfl
      cases read
      exact ⟨w, same, .number numeral spells⟩
    · split at read
      · rename_i quote
        split at read
        · rename_i s after found
          cases read
          obtain ⟨w, rfl, quoted⟩ := derives_readString? found
          exact ⟨_, by simp, .string (by simpa using quote) quoted⟩
        · cases read
      · split at read
        · rename_i start
          cases read
          exact ⟨_, List.takeWhile_append_dropWhile.symm, .word (identifier_takeWhile start more)⟩
        · cases read

theorem readAccesses_succ (h : Sound n) {base e : Expr}
    (read : readAccesses (n + 1) base cs = .ok (e, rest)) :
    ∃ w, cs = w ++ rest ∧ Derives (.accesses base e) w := by
  obtain ⟨b, gap, skipped⟩ := gap_of_skipSpace cs
  rw [readAccesses] at read
  split at read
  · rename_i more front
    obtain ⟨⟨name, _⟩, named, next⟩ := exists_of_bind_eq_ok read
    obtain ⟨c, gap', rfl, word⟩ := derives_readName named
    obtain ⟨v, rfl, accesses⟩ := h.accesses next
    exact ⟨_, by rw [skipped, front]; simp, .member gap gap' word accesses⟩
  · rename_i more front
    obtain ⟨⟨key, _⟩, readKey, next⟩ := exists_of_bind_eq_ok read
    obtain ⟨_, closing, next'⟩ := exists_of_bind_eq_ok next
    obtain ⟨w, c, rfl, gap', inner⟩ := h.expr readKey
    obtain ⟨d, gap'', rfl⟩ := derives_expect closing
    obtain ⟨v, rfl, accesses⟩ := h.accesses next'
    exact ⟨_, by rw [skipped, front]; simp, .element gap inner (gap'.append gap'') accesses⟩
  · rename_i more front
    obtain ⟨⟨args, _⟩, readArgs, next⟩ := exists_of_bind_eq_ok read
    obtain ⟨w, c, rfl, gap', inner⟩ := h.items readArgs
    obtain ⟨v, rfl, accesses⟩ := h.accesses next
    exact ⟨_, by rw [skipped, front]; simp, .call gap inner gap' accesses⟩
  · cases read
    exact ⟨[], rfl, .noAccess⟩

theorem readItems_succ (h : Sound n) {close : Char} {es : List Expr}
    (read : readItems (n + 1) close cs = .ok (es, rest)) :
    (Phrase.items es).Begins cs (close :: rest) := by
  obtain ⟨b, gap, skipped⟩ := gap_of_skipSpace cs
  rw [readItems] at read
  split at read
  · rename_i c more front
    split at read
    · rename_i closing
      cases read
      exact ⟨[], b, by rw [List.nil_append, skipped, front, closing], gap, .noItems⟩
    · obtain ⟨⟨e, _⟩, readFirst, next⟩ := exists_of_bind_eq_ok read
      obtain ⟨⟨others, _⟩, readOthers, next'⟩ := exists_of_bind_eq_ok next
      obtain ⟨_, closing, same⟩ := exists_of_bind_eq_ok next'
      cases same
      obtain ⟨w, d, start, gap', first⟩ := h.expr readFirst
      obtain ⟨v, after, more, outer, others⟩ :=
        begins_moreItems gap' (h.moreItems readOthers)
      obtain ⟨f, gap'', rfl⟩ := derives_expect closing
      refine ⟨_, after ++ f, ?_, outer.append gap'', .items (first.after_gap gap) others⟩
      rw [skipped, front, start, more]
      simp
  · cases read

theorem readMoreItems_succ (h : Sound n) {es : List Expr}
    (read : readMoreItems (n + 1) cs = .ok (es, rest)) :
    (Phrase.moreItems es).Begins cs rest := by
  obtain ⟨b, gap, skipped⟩ := gap_of_skipSpace cs
  rw [readMoreItems] at read
  split at read
  · rename_i more front
    obtain ⟨⟨e, _⟩, readFirst, next⟩ := exists_of_bind_eq_ok read
    obtain ⟨⟨others, _⟩, readOthers, same⟩ := exists_of_bind_eq_ok next
    cases same
    obtain ⟨w, d, rfl, gap', first⟩ := h.expr readFirst
    obtain ⟨v, after, split, outer, others⟩ := begins_moreItems gap' (h.moreItems readOthers)
    refine ⟨_, after, ?_, outer, .more gap first others⟩
    rw [skipped, front, split]
    simp
  · cases read
    exact ⟨[], [], rfl, .nil, .noMore⟩

end Sound

/-- Whatever the reader takes, the grammar derives. -/
theorem sound (n : Nat) : Sound n := by
  induction n with
  | zero => constructor <;> intros <;> contradiction
  | succ n ih =>
    exact ⟨ih.readExpr_succ, ih.readOperand_succ, ih.readOperations_succ, ih.readPrimary_succ,
      ih.readAccesses_succ, ih.readItems_succ, ih.readMoreItems_succ⟩

end Expr
end LiveTemplate
