import LiveTemplate.Proofs.Arguments
import LiveTemplate.Proofs.Encoding

/-!
# LiveTemplate.Proofs.Parentheses

Parentheses in the text of expressions, strings left out. The scan that finds the arguments of a
handler knows quotes, backslashes and parentheses and nothing else of the grammar; it stops where
the grammar does because every derived text is balanced.

  * `Outside`                    what a text shows outside its strings
  * `Balanced`, `Enclosed`       its parentheses match
  * `Tokens`, `Orderly`          and it is made of the tokens of expressions
  * `closeParen?_eq_some_iff`    the scan ends at the matching parenthesis
  * `Expr.Derives.orderly`       one case for each rule of the grammar
  * `handlers_split_as_read`     a call is split into its name and its arguments
-/

namespace LiveTemplate

/-! ## Text outside quotes -/

/-- `u` is what `w` shows outside its strings. -/
inductive Outside : List Char → List Char → Prop
  | nil : Outside [] []
  | char {c : Char} {w u : List Char} (bare : c ∉ ['\'', '"']) (rest : Outside w u) :
      Outside (c :: w) (c :: u)
  | string {quote : Char} {v s w u : List Char} (mark : quote ∈ ['\'', '"'])
      (quoted : Expr.Quoted quote v s) (rest : Outside w u) :
      Outside (quote :: (v ++ quote :: w)) u

theorem escape_of_mark {quote : Char} (mark : quote ∈ ['\'', '"']) : quote ≠ '\\' := by
  rintro rfl
  simp at mark

/-- The parentheses that were opened less those that were closed. -/
def depth (u : List Char) : Int := u.count '(' - u.count ')'

/-- Counted from `d` on, the depth nowhere falls below zero. -/
def Stays (d : Int) (u : List Char) : Prop := ∀ p, p <+: u → 0 ≤ d + depth p

namespace Outside

variable {w v u t : List Char}

theorem append (h : Outside w u) (k : Outside v t) : Outside (w ++ v) (u ++ t) := by
  induction h with
  | nil => exact k
  | char bare rest ih => exact .char bare ih
  | string mark quoted rest ih =>
    rw [List.cons_append, List.append_assoc, List.cons_append]
    exact .string mark quoted ih

theorem of_forall (bare : ∀ c ∈ w, c ∉ ['\'', '"']) : Outside w w := by
  induction w with
  | nil => exact .nil
  | cons c w ih => exact .char (bare c (by simp)) (ih fun d mem => bare d (by simp [mem]))

/-- Where a string ends is fixed by its start. -/
theorem quoted_unique {quote : Char} {v s v' s' x y : List Char} (mark : quote ∈ ['\'', '"'])
    (h : Expr.Quoted quote v s) (h' : Expr.Quoted quote v' s')
    (same : v ++ quote :: x = v' ++ quote :: y) : x = y := by
  have read := Expr.readString?_quoted h (escape_of_mark mark) x
  rw [same, Expr.readString?_quoted h' (escape_of_mark mark) y] at read
  cases read
  rfl

/-- What a text shows outside its strings, its front shows first. -/
theorem split (whole : Outside (w ++ v) u) (front : Outside w t) :
    ∃ u', u = t ++ u' ∧ Outside v u' := by
  induction front generalizing u with
  | nil => exact ⟨u, rfl, whole⟩
  | @char c w t bare rest ih =>
    generalize text : c :: w ++ v = whole' at whole
    cases whole with
    | nil => cases text
    | char _ later =>
      cases text
      obtain ⟨u', rfl, behind⟩ := ih later
      exact ⟨u', rfl, behind⟩
    | string mark =>
      obtain ⟨rfl, -⟩ := List.cons.inj text
      exact absurd mark bare
  | @string quote x s w t mark quoted rest ih =>
    generalize text : quote :: (x ++ quote :: w) ++ v = whole' at whole
    cases whole with
    | nil => cases text
    | char bare =>
      cases text
      exact absurd mark bare
    | string _ quoted' later =>
      simp only [List.cons_append, List.append_assoc, List.cons.injEq] at text
      obtain ⟨rfl, text⟩ := text
      rw [← quoted_unique mark quoted quoted' text] at later
      exact ih later

end Outside

theorem depth_append (u v : List Char) : depth (u ++ v) = depth u + depth v := by
  simp only [depth, List.count_append]
  omega

theorem depth_cons (c : Char) (u : List Char) : depth (c :: u) = depth [c] + depth u :=
  depth_append [c] u

theorem depth_of_ne {c : Char} (opening : c ≠ '(') (closing : c ≠ ')') : depth [c] = 0 := by
  simp [depth, opening, closing]

theorem stays_nil {d : Int} (h : 0 ≤ d) : Stays d [] := by
  intro p initial
  rw [List.prefix_nil.mp initial]
  simpa [depth] using h

theorem Stays.start {d : Int} {u : List Char} (h : Stays d u) : 0 ≤ d := by
  simpa [depth] using h [] List.nil_prefix

theorem stays_cons {d : Int} {c : Char} {u : List Char} :
    Stays d (c :: u) ↔ 0 ≤ d ∧ Stays (d + depth [c]) u := by
  constructor
  · intro h
    refine ⟨h.start, fun p initial => ?_⟩
    have here := h (c :: p) (List.cons_prefix_cons.mpr ⟨rfl, initial⟩)
    rw [depth_cons] at here
    omega
  · rintro ⟨start, later⟩ p initial
    rcases List.prefix_cons_iff.mp initial with rfl | ⟨q, rfl, inner⟩
    · simpa [depth] using start
    · have here := later q inner
      rw [depth_cons]
      omega

theorem stays_append {d : Int} {u v : List Char} (h : Stays d u) (k : Stays (d + depth u) v) :
    Stays d (u ++ v) := by
  induction u generalizing d with
  | nil => simpa [depth] using k
  | cons c u ih =>
    obtain ⟨start, later⟩ := stays_cons.mp h
    rw [depth_cons, ← Int.add_assoc] at k
    exact stays_cons.mpr ⟨start, ih later k⟩

/-! ## The scan for the closing parenthesis -/

/-- Outside quotes, one step of the scan counts one character. -/
theorem closeParen?_step {c : Char} (bare : c ∉ ['\'', '"']) {d : Nat}
    (stays : 0 ≤ d + depth [c]) (t : List Char) :
    closeParen? d none false (c :: t) =
      (closeParen? (d + depth [c]).toNat none false t).map
        fun found => (c :: found.1, found.2) := by
  have quote : ¬(decide (c = '\'') || decide (c = '"')) = true := by simpa using bare
  rw [closeParen?]
  simp only [if_neg quote]
  -- an opening parenthesis, a closing one that is not the last, or any other character
  by_cases opening : c = '('
  · subst opening
    have deeper : ((d : Int) + depth ['(']).toNat = d + 1 := rfl
    simp only [if_true, deeper]
  · rw [if_neg opening]
    by_cases closing : c = ')'
    · subst closing
      have lifted : depth [')'] = -1 := rfl
      rw [lifted] at stays ⊢
      have shallower : ((d : Int) + -1).toNat = d - 1 := by omega
      simp only [if_true, if_neg (show ¬d = 0 by omega), shallower]
    · rw [if_neg closing, depth_of_ne opening closing]
      simp

theorem closing_of_falls {c : Char} {d : Nat} (falls : ¬ 0 ≤ (d : Int) + depth [c]) :
    c = ')' ∧ d = 0 := by
  by_cases opening : c = '('
  · subst opening
    have deeper : depth ['('] = 1 := rfl
    omega
  · by_cases closing : c = ')'
    · subst closing
      have lifted : depth [')'] = -1 := rfl
      exact ⟨rfl, by omega⟩
    · have level := depth_of_ne opening closing
      omega

theorem closeParen?_closing (t : List Char) : closeParen? 0 none false (')' :: t) = some ([], t) :=
  rfl

theorem closeParen?_quote {quote : Char} (mark : quote ∈ ['\'', '"']) (d : Nat) (t : List Char) :
    closeParen? d none false (quote :: t) =
      (closeParen? d (some quote) false t).map fun found => (quote :: found.1, found.2) := by
  simp only [List.mem_cons, List.not_mem_nil, or_false] at mark
  rcases mark with rfl | rfl <;> rfl

/-- A string is scanned to the quote that ends it. -/
theorem closeParen?_quoted {quote : Char} {v s : List Char} (quoted : Expr.Quoted quote v s)
    (escape : quote ≠ '\\') (d : Nat) (t : List Char) :
    closeParen? d (some quote) false (v ++ quote :: t) =
      (closeParen? d none false t).map fun found => (v ++ quote :: found.1, found.2) := by
  induction quoted with
  | nil => simp [closeParen?, escape]
  | plain inside bare rest ih => simp [closeParen?, inside, bare, ih, Function.comp_def]
  | escape rest ih => simp [closeParen?, ih, Function.comp_def]

/-- The scan keeps count of the depth outside quotes. -/
theorem closeParen?_outside {w u : List Char} (h : Outside w u) {d : Nat} (stays : Stays d u)
    (t : List Char) :
    closeParen? d none false (w ++ t) =
      (closeParen? (d + depth u).toNat none false t).map fun found => (w ++ found.1, found.2) := by
  induction h generalizing d with
  | nil => simp [depth]
  | @char c w u bare rest ih =>
    obtain ⟨-, later⟩ := stays_cons.mp stays
    have start : 0 ≤ d + depth [c] := later.start
    have lifted : (((d : Int) + depth [c]).toNat : Int) = d + depth [c] := Int.toNat_of_nonneg start
    rw [List.cons_append, closeParen?_step bare start, ih (lifted.symm ▸ later), lifted,
      depth_cons c u, Int.add_assoc, Option.map_map]
    rfl
  | string mark quoted rest ih =>
    rw [List.cons_append, List.append_assoc, List.cons_append, closeParen?_quote mark,
      closeParen?_quoted quoted (escape_of_mark mark), ih stays, Option.map_map, Option.map_map]
    simp [Function.comp_def]

/-- Where the depth falls below zero, the scan has ended before. -/
theorem closeParen?_falls {w u : List Char} (h : Outside w u) {d : Nat} (falls : ¬ Stays d u)
    (t : List Char) :
    ∃ src after, closeParen? d none false (w ++ t) = some (src, after) ∧
      src.length < w.length := by
  induction h generalizing d with
  | nil => exact absurd (stays_nil (Int.natCast_nonneg d)) falls
  | @char c w u bare rest ih =>
    rw [stays_cons, not_and] at falls
    have falls := falls (Int.natCast_nonneg d)
    by_cases start : 0 ≤ d + depth [c]
    · have lifted : (((d : Int) + depth [c]).toNat : Int) = d + depth [c] :=
        Int.toNat_of_nonneg start
      obtain ⟨src, after, scan, shorter⟩ := ih (lifted.symm ▸ falls)
      exact ⟨c :: src, after, by rw [List.cons_append, closeParen?_step bare start, scan]; rfl,
        by simpa using shorter⟩
    · obtain ⟨rfl, rfl⟩ := closing_of_falls start
      exact ⟨[], w ++ t, rfl, by simp⟩
  | @string quote v s w u mark quoted rest ih =>
    obtain ⟨src, after, scan, shorter⟩ := ih falls
    refine ⟨quote :: (v ++ quote :: src), after, ?_, by simpa using shorter⟩
    rw [List.cons_append, List.append_assoc, List.cons_append, closeParen?_quote mark,
      closeParen?_quoted quoted (escape_of_mark mark), scan]
    rfl

/-- A scan that ends after an opening quote has passed the whole string. -/
theorem quoted_of_closeParen? {quote : Char} {d : Nat}
    {cs src after : List Char} (h : closeParen? d (some quote) false cs = some (src, after)) :
    ∃ v s rest tail, Expr.Quoted quote v s ∧ cs = v ++ quote :: rest ∧ src = v ++ quote :: tail ∧
      closeParen? d none false rest = some (tail, after) := by
  -- Behind a backslash, one more character is skipped before the string goes on.
  have both : ∀ (cs src : List Char),
      (closeParen? d (some quote) false cs = some (src, after) →
        ∃ v s rest tail, Expr.Quoted quote v s ∧ cs = v ++ quote :: rest ∧
          src = v ++ quote :: tail ∧ closeParen? d none false rest = some (tail, after)) ∧
      (closeParen? d (some quote) true cs = some (src, after) →
        ∃ c v s rest tail, Expr.Quoted quote v s ∧ cs = c :: (v ++ quote :: rest) ∧
          src = c :: (v ++ quote :: tail) ∧
          closeParen? d none false rest = some (tail, after)) := by
    intro cs
    induction cs with
    | nil => simp [closeParen?]
    | cons c cs ih =>
      intro src
      constructor
      · intro h
        rw [closeParen?] at h
        simp only [Bool.false_eq_true, if_false] at h
        split at h
        · rename_i slash
          subst slash
          obtain ⟨⟨inside, rest⟩, found, same⟩ := Option.map_eq_some_iff.mp h
          cases same
          obtain ⟨x, v, s, rest, tail, quoted, rfl, rfl, later⟩ := (ih inside).2 found
          exact ⟨_, _, rest, tail, .escape quoted, rfl, rfl, later⟩
        · rename_i slash
          split at h
          · rename_i ended
            obtain ⟨⟨inside, rest⟩, found, same⟩ := Option.map_eq_some_iff.mp h
            cases same
            exact ⟨[], [], cs, inside, .nil, by rw [ended]; rfl, by rw [ended]; rfl, found⟩
          · rename_i inner
            obtain ⟨⟨inside, rest⟩, found, same⟩ := Option.map_eq_some_iff.mp h
            cases same
            obtain ⟨v, s, rest, tail, quoted, rfl, rfl, later⟩ := (ih inside).1 found
            exact ⟨_, _, rest, tail, .plain inner slash quoted, rfl, rfl, later⟩
      · intro h
        rw [closeParen?] at h
        simp only [if_true] at h
        obtain ⟨⟨inside, rest⟩, found, same⟩ := Option.map_eq_some_iff.mp h
        cases same
        obtain ⟨v, s, rest, tail, quoted, rfl, rfl, later⟩ := (ih inside).1 found
        exact ⟨c, v, s, rest, tail, quoted, rfl, rfl, later⟩
  exact (both cs src).1 h

/-- What a scan has passed when it ends. -/
theorem outside_of_closeParen? {d : Nat} {cs src after : List Char}
    (h : closeParen? d none false cs = some (src, after)) :
    cs = src ++ ')' :: after ∧ ∃ u, Outside src u ∧ d + depth u = 0 ∧ Stays d u := by
  induction long : cs.length using Nat.strong_induction_on generalizing d cs src with
  | _ n ih =>
    cases cs with
    | nil => cases h
    | cons c cs =>
      rw [List.length_cons] at long
      -- a string is passed as a whole, so the induction is on the length and not on the text
      by_cases mark : c ∈ ['\'', '"']
      · rw [closeParen?_quote mark] at h
        obtain ⟨⟨inside, rest⟩, found, same⟩ := Option.map_eq_some_iff.mp h
        cases same
        obtain ⟨v, s, rest, tail, quoted, rfl, rfl, later⟩ :=
          quoted_of_closeParen? found
        rw [List.length_append, List.length_cons] at long
        obtain ⟨rfl, u, outside, even, stays⟩ := ih rest.length (by omega) later rfl
        exact ⟨by simp, u, .string mark quoted outside, even, stays⟩
      · by_cases start : 0 ≤ d + depth [c]
        · rw [closeParen?_step mark start] at h
          obtain ⟨⟨inside, rest⟩, found, same⟩ := Option.map_eq_some_iff.mp h
          cases same
          obtain ⟨rfl, u, outside, even, stays⟩ := ih cs.length (by omega) found rfl
          rw [Int.toNat_of_nonneg start] at even stays
          refine ⟨rfl, c :: u, .char mark outside, ?_, stays_cons.mpr ⟨by omega, stays⟩⟩
          rw [depth_cons, ← Int.add_assoc]
          exact even
        · obtain ⟨rfl, rfl⟩ := closing_of_falls start
          cases h
          exact ⟨rfl, [], .nil, rfl, stays_nil le_rfl⟩

/-! ## Balanced text -/

/-- As many parentheses close as open, and none closes before it opens. -/
structure Balanced (u : List Char) : Prop where
  even : depth u = 0
  stays : Stays 0 u

/-- The text between a parenthesis and the one that closes it: outside quotes it is balanced. -/
def Enclosed (src : List Char) : Prop := ∃ u, Outside src u ∧ Balanced u

theorem balanced_nil : Balanced [] := ⟨rfl, stays_nil le_rfl⟩

theorem balanced_append {u v : List Char} (h : Balanced u) (k : Balanced v) :
    Balanced (u ++ v) := by
  refine ⟨by rw [depth_append, h.even, k.even]; rfl, stays_append h.stays ?_⟩
  rw [h.even]
  exact k.stays

theorem balanced_cons {c : Char} (opening : c ≠ '(') (closing : c ≠ ')') {u : List Char}
    (h : Balanced u) : Balanced (c :: u) := by
  have flat := depth_of_ne opening closing
  refine ⟨by rw [depth_cons, flat, h.even]; rfl, stays_cons.mpr ⟨le_rfl, ?_⟩⟩
  rw [flat]
  exact h.stays

theorem balanced_of_forall {u : List Char} (h : ∀ c ∈ u, c ≠ '(' ∧ c ≠ ')') : Balanced u := by
  induction u with
  | nil => exact balanced_nil
  | cons c u ih =>
    obtain ⟨opening, closing⟩ := h c (by simp)
    exact balanced_cons opening closing (ih fun d mem => h d (by simp [mem]))

theorem balanced_parens {u : List Char} (h : Balanced u) : Balanced ('(' :: (u ++ [')'])) := by
  have opened : depth ['('] = 1 := rfl
  have closed : depth [')'] = -1 := rfl
  have deeper : Stays 1 u := fun p initial => by
    have here := h.stays p initial
    omega
  refine ⟨?_, stays_cons.mpr ⟨le_rfl, ?_⟩⟩
  · rw [depth_cons, depth_append, opened, closed, h.even]
    rfl
  · rw [opened]
    refine stays_append deeper (stays_cons.mpr ?_)
    rw [h.even, closed]
    exact ⟨by decide, stays_nil le_rfl⟩

/-- A scan finds the parenthesis that closes the one before it, and no other. -/
theorem closeParen?_eq_some_iff {cs src after : List Char} :
    closeParen? 0 none false cs = some (src, after) ↔
      cs = src ++ ')' :: after ∧ Enclosed src := by
  constructor
  · intro h
    obtain ⟨same, u, outside, even, stays⟩ := outside_of_closeParen? h
    exact ⟨same, u, outside, by simpa using even, stays⟩
  · rintro ⟨rfl, u, outside, level⟩
    rw [closeParen?_outside outside level.stays, level.even]
    simp [closeParen?_closing]

/-! ## Tokens outside quotes -/

/-- A character that stands for itself in the grammar. An equals sign stands in operators only. -/
def isPlain (c : Char) : Bool :=
  Expr.isIdentChar c || Expr.isSpace c || ['.', ',', '?', ':', '!', '-', '[', ']'].contains c

/-- Characters of the grammar, parentheses and operators one after the other. -/
inductive Tokens : List Char → Prop
  | nil : Tokens []
  | char {c : Char} {u : List Char} (plain : isPlain c = true) (rest : Tokens u) : Tokens (c :: u)
  | paren {c : Char} {u : List Char} (mark : c ∈ ['(', ')']) (rest : Tokens u) : Tokens (c :: u)
  | symbol {op : BinaryOp} {u : List Char} (rest : Tokens u) : Tokens (op.symbol ++ u)

/-- Behind a character that no operator holds, the tokens go on. -/
theorem Tokens.behind {v u : List Char} {c : Char} (h : Tokens (v ++ c :: u))
    (free : ∀ op : BinaryOp, c ∉ op.symbol) : Tokens u := by
  generalize text : v ++ c :: u = w at h
  induction h generalizing v with
  | nil => simp at text
  | char plain rest ih =>
    cases v with
    | nil =>
      cases text
      exact rest
    | cons d v => exact ih (List.cons.inj text).2
  | paren mark rest ih =>
    cases v with
    | nil =>
      cases text
      exact rest
    | cons d v => exact ih (List.cons.inj text).2
  | @symbol op w rest ih =>
    rcases List.append_eq_append_iff.mp text with ⟨x, inside, outside⟩ | ⟨x, inside, outside⟩
    · cases x with
      | nil => exact ih (v := []) outside
      | cons d x =>
        cases outside
        exact absurd (by rw [inside]; simp) (free op)
    · exact ih outside.symm

theorem not_tokens_arrow (u : List Char) : ¬ Tokens ('=' :: '>' :: u) := by
  intro h
  generalize text : '=' :: '>' :: u = w at h
  cases h with
  | nil => cases text
  | char plain =>
    cases text
    cases plain
  | paren mark =>
    cases text
    simp at mark
  | @symbol op => cases op <;> cases text

theorem tokens_append {u v : List Char} (h : Tokens u) (k : Tokens v) : Tokens (u ++ v) := by
  induction h with
  | nil => exact k
  | char plain rest ih => exact .char plain ih
  | paren mark rest ih => exact .paren mark ih
  | symbol rest ih =>
    rw [List.append_assoc]
    exact .symbol ih

/-- The text is made of tokens, and its parentheses are balanced. -/
def Orderly (w : List Char) : Prop := ∃ u, Outside w u ∧ Balanced u ∧ Tokens u

namespace Orderly

theorem nil : Orderly [] := ⟨[], .nil, balanced_nil, .nil⟩

theorem append {w v : List Char} (h : Orderly w) (k : Orderly v) : Orderly (w ++ v) := by
  obtain ⟨u, outside, level, tokens⟩ := h
  obtain ⟨t, outside', level', tokens'⟩ := k
  exact ⟨u ++ t, outside.append outside', balanced_append level level',
    tokens_append tokens tokens'⟩

theorem bare_of_isPlain {c : Char} (plain : isPlain c = true) :
    c ∉ ['\'', '"'] ∧ c ≠ '(' ∧ c ≠ ')' := by
  refine ⟨?_, ?_, ?_⟩
  · intro mark
    simp only [List.mem_cons, List.not_mem_nil, or_false] at mark
    rcases mark with rfl | rfl <;> cases plain
  · rintro rfl
    cases plain
  · rintro rfl
    cases plain

theorem cons {c : Char} (plain : isPlain c = true) {w : List Char} (h : Orderly w) :
    Orderly (c :: w) := by
  obtain ⟨bare, opening, closing⟩ := bare_of_isPlain plain
  obtain ⟨u, outside, level, tokens⟩ := h
  exact ⟨c :: u, .char bare outside, balanced_cons opening closing level, .char plain tokens⟩

theorem of_forall {w : List Char} (h : ∀ c ∈ w, isPlain c = true) : Orderly w := by
  induction w with
  | nil => exact nil
  | cons c w ih => exact cons (h c (by simp)) (ih fun d mem => h d (by simp [mem]))

theorem gap {b : List Char} (h : Expr.Gap b) : Orderly b :=
  of_forall fun c mem => by simp [isPlain, h c mem]

theorem letters {w : List Char} (h : ∀ c ∈ w, Expr.isIdentChar c = true) : Orderly w :=
  of_forall fun c mem => by simp [isPlain, h c mem]

theorem numeral {w : List Char} (h : Number.Numeral w) : Orderly w := by
  cases h with
  | whole solid each => exact letters fun c mem => Expr.isIdentChar_of_isDigit (each c mem)
  | point solid more each fraction =>
    exact append (letters fun c mem => Expr.isIdentChar_of_isDigit (each c mem))
      (cons rfl (letters fun c mem => Expr.isIdentChar_of_isDigit (fraction c mem)))

theorem symbol (op : BinaryOp) : Orderly op.symbol := by
  refine ⟨op.symbol, ?_, ?_, ?_⟩
  · exact .of_forall (by cases op <;> simp [BinaryOp.symbol])
  · exact balanced_of_forall (by cases op <;> simp [BinaryOp.symbol])
  · simpa using @Tokens.symbol op _ .nil

theorem string {quote : Char} {v s : List Char} (mark : quote ∈ ['\'', '"'])
    (quoted : Expr.Quoted quote v s) : Orderly (quote :: (v ++ [quote])) :=
  ⟨[], .string mark quoted .nil, balanced_nil, .nil⟩

theorem parens {w : List Char} (h : Orderly w) : Orderly ('(' :: (w ++ [')'])) := by
  obtain ⟨u, outside, level, tokens⟩ := h
  refine ⟨'(' :: (u ++ [')']), ?_, balanced_parens level, ?_⟩
  · exact .char (by simp) (outside.append (.char (by simp) .nil))
  · exact .paren (by simp) (tokens_append tokens (.paren (by simp) .nil))

end Orderly

/-- Whatever the grammar derives is orderly. -/
theorem Expr.Derives.orderly {p : Phrase} {w : List Char} (h : Derives p w) : Orderly w := by
  induction h with
  | chain operand operations ihFirst ihRest => exact ihFirst.append ihRest
  | conditional operand operations gap second gap' third ihFirst ihRest ihYes ihNo =>
    exact ihFirst.append (ihRest.append ((Orderly.gap gap).append
      (.cons rfl (ihYes.append ((Orderly.gap gap').append (.cons rfl ihNo))))))
  | @unary op e b w gap operand ih =>
    exact (Orderly.gap gap).append (.cons (by cases op <;> rfl) ih)
  | accessed gap primary accesses ih ih' => exact (Orderly.gap gap).append (ih.append ih')
  | noOperations => exact .nil
  | operation gap operand operations ih ih' =>
    exact (Orderly.gap gap).append ((Orderly.symbol _).append (ih.append ih'))
  | number numeral spells => exact .numeral numeral
  | string mark quoted => exact .string mark quoted
  | word identifier =>
    obtain ⟨c, rest, rfl, -, each⟩ := letters_of_identifier identifier
    exact .letters each
  | parens inner gap ih =>
    rw [← List.append_assoc]
    exact .parens (ih.append (.gap gap))
  | list inner gap ih => exact .cons rfl (ih.append ((Orderly.gap gap).append (.cons rfl .nil)))
  | noAccess => exact .nil
  | member gap gap' word accesses ih =>
    obtain ⟨c, rest, same, -, each⟩ := letters_of_identifier (identifier_of_variable word)
    exact (Orderly.gap gap).append
      (.cons rfl ((Orderly.gap gap').append ((Orderly.letters each).append ih)))
  | element gap inner gap' accesses ih ih' =>
    exact (Orderly.gap gap).append
      (.cons rfl (ih.append ((Orderly.gap gap').append (.cons rfl ih'))))
  | @call base e args b w c v gap inner gap' accesses ih ih' =>
    have enclosed := (ih.append (.gap gap')).parens.append ih'
    simpa using (Orderly.gap gap).append enclosed
  | noItems => exact .nil
  | items first more ih ih' => exact ih.append ih'
  | noMore => exact .nil
  | more gap first more ih ih' => exact (Orderly.gap gap).append (.cons rfl (ih.append ih'))

theorem Orderly.enclosed {w : List Char} (h : Orderly w) : Enclosed w := by
  obtain ⟨u, outside, level, -⟩ := h
  exact ⟨u, outside, level⟩

/-! ## Calls of handlers -/

/-- What stands before the first occurrence of a character does not hold it. -/
theorem Text.not_mem_of_breakOn? {mark : Char} {cs front rest : List Char}
    (h : breakOn? [mark] cs = some (front, rest)) : mark ∉ front := by
  induction cs generalizing front with
  | nil => cases h
  | cons c cs ih =>
    rw [breakOn?] at h
    split at h
    · cases h
      simp
    · rename_i other
      obtain ⟨⟨before, after⟩, found, same⟩ := Option.map_eq_some_iff.mp h
      cases same
      have differ : mark ≠ c := by simpa using other
      simp [differ, ih found]

theorem Text.breakOn?_cons_self (mark : Char) (cs : List Char) :
    breakOn? [mark] (mark :: cs) = some ([], cs) := by
  simp [breakOn?]

/-- The first occurrence of a character splits a text. -/
theorem Text.breakOn?_eq_some_iff {mark : Char} {cs front rest : List Char} :
    breakOn? [mark] cs = some (front, rest) ↔ cs = front ++ mark :: rest ∧ mark ∉ front := by
  constructor
  · intro h
    exact ⟨by simpa using breakOn?_eq_append h, not_mem_of_breakOn? h⟩
  · rintro ⟨rfl, free⟩
    rw [breakOn?_append_of_not_mem free, breakOn?_cons_self]
    simp

/-! ### One lemma for each way to split a handler -/

theorem splitHandler_bare {body : List Char} (split : Text.breakOn? ['('] body = none) :
    splitHandler body =
      if isIdentifier (Text.trimChars body) then .ok (String.ofList (Text.trimChars body), none)
      else .error .missingName := by
  simp only [splitHandler, split]
  cases word : isIdentifier (Text.trimChars body) <;>
    simp [pure, Except.pure, bind, Except.bind, throw, throwThe, MonadExceptOf.throw, word]

theorem splitHandler_unclosed {body front rest : List Char}
    (split : Text.breakOn? ['('] body = some (front, rest))
    (scan : closeParen? 0 none false rest = none) :
    splitHandler body = .error .unbalancedParentheses := by
  simp only [splitHandler, split, scan]
  rfl

theorem splitHandler_closed {body front rest src after : List Char}
    (split : Text.breakOn? ['('] body = some (front, rest))
    (scan : closeParen? 0 none false rest = some (src, after)) :
    splitHandler body =
      if Text.trimChars after = [] then
        if isIdentifier (Text.trimChars front) then
          .ok (String.ofList (Text.trimChars front), some src)
        else .error .missingName
      else .error .trailingText := by
  simp only [splitHandler, split, scan]
  by_cases blank : Text.trimChars after = []
  · cases word : isIdentifier (Text.trimChars front) <;>
      simp [pure, Except.pure, bind, Except.bind, throw, throwThe, MonadExceptOf.throw, word, blank]
  · simp [bind, Except.bind, throw, throwThe, MonadExceptOf.throw, blank]

/-- The arguments of a handler are what its first parenthesis encloses. -/
theorem enclosed_of_splitHandler {body src : List Char} {name : String}
    (h : splitHandler body = .ok (name, some src)) :
    ∃ front after, body = front ++ '(' :: (src ++ ')' :: after) ∧ '(' ∉ front ∧
      Enclosed src := by
  cases split : Text.breakOn? ['('] body with
  | none =>
    rw [splitHandler_bare split] at h
    split at h <;> cases h
  | some found =>
    obtain ⟨front, rest⟩ := found
    obtain ⟨rfl, free⟩ := Text.breakOn?_eq_some_iff.mp split
    cases scan : closeParen? 0 none false rest with
    | none =>
      rw [splitHandler_unclosed split scan] at h
      cases h
    | some found =>
      obtain ⟨inside, after⟩ := found
      obtain ⟨rfl, enclosed⟩ := closeParen?_eq_some_iff.mp scan
      rw [splitHandler_closed split scan] at h
      split at h
      · split at h
        · cases h
          exact ⟨front, after, rfl, free, enclosed⟩
        · cases h
      · cases h

/-- As long as the scan goes on, its count is the depth, which is not below zero. -/
theorem count_of_scan {w t u : List Char} (outside : Outside w u)
    (running : ∀ src after, closeParen? 0 none false (w ++ t) = some (src, after) → w <+: src) :
    0 ≤ depth u ∧ closeParen? 0 none false (w ++ t) =
      (closeParen? (depth u).toNat none false t).map fun found => (w ++ found.1, found.2) := by
  have stays : Stays 0 u := by
    by_contra falls
    obtain ⟨src, after, scan, shorter⟩ := closeParen?_falls outside (d := 0) falls t
    have longer := (running src after scan).length_le
    omega
  have whole := stays u List.prefix_rfl
  have count := closeParen?_outside outside (d := 0) stays t
  rw [Int.zero_add] at whole
  exact ⟨whole, by simpa using count⟩

/-! ### The name of a called function -/

namespace Expr

/-- An expression that is a name or a call of a name has a name that can be written. -/
def WellNamed (e : Expr) : Prop :=
  ∀ name, (e = .ident name ∨ ∃ args, e = .call (.ident name) args) →
    isIdentifier name.toList = true

/-- The same for what a phrase stands for. -/
def Phrase.WellNamed : Phrase → Prop
  | .expr e => e.WellNamed
  | .operand e => e.WellNamed
  | .primary e => e.WellNamed
  | .accesses base e => base.WellNamed → e.WellNamed
  | _ => True

theorem Derives.wellNamed {p : Phrase} {w : List Char} (h : Derives p w) : p.WellNamed := by
  induction h with
  | @chain first rest w v operand operations ihFirst ihRest =>
    rcases Chain.resolve_cases first rest with rfl | ⟨op, left, right, same⟩
    · exact ihFirst
    · intro name known
      rw [same] at known
      simp at known
  | conditional => intro name known; simp at known
  | unary => intro name known; simp at known
  | accessed gap primary accesses ih ih' => exact ih' ih
  | number => intro name known; simp at known
  | string => intro name known; simp at known
  | @word w identifier =>
    intro name known
    rcases ofWord_cases (String.ofList w) with same | ⟨l, same⟩
    · rw [same] at known
      obtain rfl : String.ofList w = name := by simpa using known
      rwa [String.toList_ofList]
    · rw [same] at known
      simp at known
  | parens inner gap ih => exact ih
  | list => intro name known; simp at known
  | noAccess => exact id
  | member gap gap' word accesses ih =>
    refine fun _ => ih ?_
    intro name known
    simp at known
  | element gap inner gap' accesses ih ih' =>
    refine fun _ => ih' ?_
    intro name known
    simp at known
  | call gap inner gap' accesses ih ih' =>
    refine fun base => ih' fun name known => base name (.inl ?_)
    rcases known with known | ⟨args, known⟩
    · cases known
    · cases known
      rfl
  | noOperations => trivial
  | operation => trivial
  | noItems => trivial
  | items => trivial
  | noMore => trivial
  | more => trivial

end Expr

/-- A call of a name, with the name first in its text, is split at its parentheses. -/
theorem splitHandler_of_call {source name : String} {args : List Expr}
    (h : Expr.parse source = .ok (.call (.ident name) args))
    (front : name.toList <+: Text.trimChars source.toList) :
    ∃ src, splitHandler (Text.trimChars source.toList) = .ok (name, some src) ∧
      Expr.parseArguments (String.ofList src) = .ok args := by
  obtain ⟨c, rest, trimmed, first, derived⟩ := Expr.trimChars_of_parse h
  rw [trimmed] at front ⊢
  have identifier := derived.wellNamed name (.inr ⟨args, rfl⟩)
  obtain ⟨d, more, same, start, each⟩ := Expr.letters_of_identifier identifier
  obtain ⟨rfl, -⟩ : d = c ∧ more <+: rest := by
    rw [same] at front
    exact List.cons_prefix_cons.mp front
  obtain ⟨b, w, e, text, gap, gap', items, -⟩ :=
    derived.items_of_call (Expr.isSpace_of_isFront first) (Expr.ne_of_isIdentStart start rfl)
  have free : '(' ∉ name.toList ++ b := by
    rw [List.mem_append]
    rintro (mem | mem)
    · cases each '(' mem
    · cases gap '(' mem
  have split : Text.breakOn? ['('] (d :: rest) = some (name.toList ++ b, w ++ e ++ [')']) :=
    Text.breakOn?_eq_some_iff.mpr ⟨by rw [text]; simp, free⟩
  have scan : closeParen? 0 none false (w ++ e ++ [')']) = some (w ++ e, []) :=
    closeParen?_eq_some_iff.mpr ⟨rfl, (items.orderly.append (.gap gap')).enclosed⟩
  have named : Text.trimChars (name.toList ++ b) = name.toList :=
    Expr.trimChars_identifier (a := []) (by simp) identifier gap.blank
  have nothing : Text.trimChars [] = [] := rfl
  refine ⟨w ++ e, ?_, Expr.parseArguments_eq_ok_iff.mpr ⟨w, e, by simp, gap', items⟩⟩
  rw [splitHandler_closed split scan, if_pos nothing, named, if_pos identifier,
    String.ofList_toList]

/-- Handlers are split as expressions are read. A call of a name that stands first in its text is
split into that name and a text that reads as its arguments. Whatever text is given as arguments
stands between the first parenthesis and the one that closes it, strings left out; and while the
scan for that one goes on, it counts the depth, which is never below zero. -/
theorem handlers_split_as_read :
    (∀ (source name : String) (args : List Expr),
      Expr.parse source = .ok (.call (.ident name) args) →
      name.toList <+: Text.trimChars source.toList →
      ∃ src, splitHandler (Text.trimChars source.toList) = .ok (name, some src) ∧
        Expr.parseArguments (String.ofList src) = .ok args) ∧
    (∀ (body src : List Char) (name : String), splitHandler body = .ok (name, some src) →
      ∃ front after, body = front ++ '(' :: (src ++ ')' :: after) ∧ '(' ∉ front ∧ Enclosed src ∧
        ∀ src' after', body = front ++ '(' :: (src' ++ ')' :: after') → Enclosed src' →
          src' = src) ∧
    ∀ w t u : List Char, Outside w u →
      (∀ src after, closeParen? 0 none false (w ++ t) = some (src, after) → w <+: src) →
      0 ≤ depth u ∧ closeParen? 0 none false (w ++ t) =
        (closeParen? (depth u).toNat none false t).map fun found => (w ++ found.1, found.2) := by
  refine ⟨fun source name args => splitHandler_of_call, ?_, fun w t u => count_of_scan⟩
  intro body src name h
  obtain ⟨front, after, rfl, free, enclosed⟩ := enclosed_of_splitHandler h
  refine ⟨front, after, rfl, free, enclosed, fun src' after' same enclosed' => ?_⟩
  rw [List.append_cancel_left_eq, List.cons_inj_right] at same
  have scan : closeParen? 0 none false (src ++ ')' :: after) = some (src, after) :=
    closeParen?_eq_some_iff.mpr ⟨rfl, enclosed⟩
  rw [closeParen?_eq_some_iff.mpr ⟨same, enclosed'⟩] at scan
  cases scan
  rfl

theorem handlers_split_as_read_quoted :
    Expr.parse " pick (a, f(')'))" =
      .ok (.call (.ident "pick")
        [.ident "a", .call (.ident "f") [.literal (.string ")")]]) ∧
    ∃ src, splitHandler (Text.trimChars " pick (a, f(')'))".toList) = .ok ("pick", some src) ∧
      Expr.parseArguments (String.ofList src) =
        .ok [.ident "a", .call (.ident "f") [.literal (.string ")")]] := by
  have read : Expr.parse " pick (a, f(')'))" =
      .ok (.call (.ident "pick")
        [.ident "a", .call (.ident "f") [.literal (.string ")")]]) := by cbv
  exact ⟨read, handlers_split_as_read.1 _ _ _ read (by decide)⟩

end LiveTemplate
