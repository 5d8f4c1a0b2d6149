import LiveTemplate.Proofs.Parentheses

/-!
# LiveTemplate.Proofs.Conditions

Conditions and the expressions in them. An arrow function is told by its text alone, before any
expression is read: a parenthesis in front, the first one that closes, and an arrow. The texts that
are taken so, and what becomes of an expression among them, follow from what the grammar derives.

  * `Condition.Arrow`                      the texts that look like an arrow function
  * `Orderly.no_arrow`                     outside strings, no expression does
  * `Condition.expression_unless_arrow`    which expressions are conditions
  * `Condition.Listed`                     lists of parameters
  * `Condition.returned`                   what is left of the text between two braces
  * `Condition.arrow_bodies_agree`         the ways to write a body
-/

namespace LiveTemplate

/-! ## Text in front and at the end -/

namespace Text

theorem dropPrefix?_eq_some_iff {mark cs rest : List Char} :
    dropPrefix? mark cs = some rest ↔ cs = mark ++ rest := by
  rw [dropPrefix?]
  constructor
  · intro h
    split at h
    · rename_i front
      obtain ⟨tail, rfl⟩ := List.isPrefixOf_iff_prefix.mp front
      simpa using h
    · cases h
  · rintro rfl
    simp

theorem dropPrefix?_eq_none_iff {mark cs : List Char} :
    dropPrefix? mark cs = none ↔ ¬ mark <+: cs := by
  simp [dropPrefix?]

theorem dropSuffix?_append (mark cs : List Char) : dropSuffix? mark (cs ++ mark) = some cs := by
  simp [dropSuffix?]

theorem blank_free {d : Char} {w : List Char} (blank : ∀ c ∈ w, isBlank c = true)
    (solid : isBlank d = false) : d ∉ w := by
  intro mem
  rw [blank d mem] at solid
  cases solid

theorem blank_or_starts (w : List Char) :
    (∀ c ∈ w, isBlank c = true) ∨
      ∃ a v, w = a ++ v ∧ (∀ c ∈ a, isBlank c = true) ∧ Starts v := by
  induction w with
  | nil => exact .inl (by simp)
  | cons c w ih =>
    cases blank : isBlank c with
    | false => exact .inr ⟨[], c :: w, rfl, by simp, c, w, rfl, blank⟩
    | true =>
      rcases ih with each | ⟨a, v, rfl, each, starts⟩
      · exact .inl (List.forall_mem_cons.mpr ⟨blank, each⟩)
      · exact .inr ⟨c :: a, v, rfl, List.forall_mem_cons.mpr ⟨blank, each⟩, starts⟩

/-- A text is blank, or has a first and a last character that are not. -/
theorem blank_or_surrounded (w : List Char) :
    (∀ c ∈ w, isBlank c = true) ∨
      ∃ a v b, w = a ++ (v ++ b) ∧ (∀ c ∈ a, isBlank c = true) ∧ Starts v ∧ Stops v ∧
        ∀ c ∈ b, isBlank c = true := by
  rcases blank_or_starts w with blank | ⟨a, v, rfl, before, starts⟩
  · exact .inl blank
  obtain ⟨c, rest, rfl, solid⟩ := starts
  rcases blank_or_starts (c :: rest).reverse with blank | ⟨b, t, same, behind, d, more, rfl, last⟩
  · exact absurd (by simp) (blank_free blank solid)
  · have turned : c :: rest = more.reverse ++ [d] ++ b.reverse := by
      rw [← List.reverse_reverse (c :: rest), same]
      simp
    refine .inr ⟨a, more.reverse ++ [d], b.reverse, by rw [turned], before, ?_,
      ⟨more.reverse, d, rfl, last⟩, by simpa using behind⟩
    cases front : more.reverse ++ [d] with
    | nil => simp at front
    | cons x front' =>
      rw [front, List.cons_append] at turned
      exact ⟨x, front', rfl, (List.cons.inj turned).1 ▸ solid⟩

theorem trimChars_blank {w : List Char} (blank : ∀ c ∈ w, isBlank c = true) :
    trimChars w = [] := by
  rw [trimChars, List.dropWhile_eq_nil_iff.mpr blank]
  rfl

theorem trimChars_self {w : List Char} (starts : Starts w) (stops : Stops w) :
    trimChars w = w := by
  have bare := trimChars_surrounded (a := []) (b := []) (by simp) starts stops (by simp)
  rwa [List.nil_append, List.append_nil] at bare

/-- More blanks around a text change nothing. -/
theorem trimChars_pad {a b : List Char} (before : ∀ c ∈ a, isBlank c = true)
    (behind : ∀ c ∈ b, isBlank c = true) (w : List Char) :
    trimChars (a ++ (w ++ b)) = trimChars w := by
  rcases blank_or_surrounded w with blank | ⟨a', v, b', rfl, before', starts, stops, behind'⟩
  · rw [trimChars_blank blank, trimChars_blank]
    simp only [List.mem_append]
    rintro c (mem | mem | mem)
    · exact before c mem
    · exact blank c mem
    · exact behind c mem
  · have front : ∀ c ∈ a ++ a', isBlank c = true := List.forall_mem_append.mpr ⟨before, before'⟩
    have back : ∀ c ∈ b' ++ b, isBlank c = true := List.forall_mem_append.mpr ⟨behind', behind⟩
    have whole := trimChars_surrounded front starts stops back
    rw [trimChars_surrounded before' starts stops behind']
    simpa only [List.append_assoc] using whole

/-- Behind a text that is not blank, only the end is trimmed. -/
theorem trimChars_append {w : List Char} (starts : Starts w) (stops : Stops w) (rest : List Char) :
    ∃ rest', trimChars (w ++ rest) = w ++ rest' ∧ trimChars rest' = trimChars rest := by
  rcases blank_or_surrounded rest with blank | ⟨a, v, b, rfl, before, starts', stops', behind⟩
  · refine ⟨[], ?_, (trimChars_blank blank).symm⟩
    rw [List.append_nil]
    exact trimChars_surrounded (a := []) (by simp) starts stops blank
  · refine ⟨a ++ v, ?_, ?_⟩
    · have whole := trimChars_surrounded (a := []) (by simp) (starts.append (a ++ v))
        ((stops'.append a).append w) behind
      simpa only [List.nil_append, List.append_assoc] using whole
    · have front := trimChars_surrounded before starts' stops' (b := []) (by simp)
      rw [List.append_nil] at front
      rw [front, trimChars_surrounded before starts' stops' behind]

/-- Trimming keeps every character that is not blank. -/
theorem mem_trimChars {c : Char} {cs : List Char} (mem : c ∈ cs) (solid : isBlank c = false) :
    c ∈ trimChars cs := by
  rcases blank_or_surrounded cs with blank | ⟨a, v, b, rfl, before, starts, stops, behind⟩
  · exact absurd mem (blank_free blank solid)
  · rw [trimChars_surrounded before starts stops behind]
    simpa [blank_free before solid, blank_free behind solid] using mem

end Text

theorem Expr.Ends.right {w v : List Char} (h : Ends (w ++ v)) : Ends v :=
  fun c mem => h c (List.mem_getLast?_append_of_mem_getLast? mem)

namespace Condition

/-! ## Arrow functions -/

/-- A text in the form of an arrow function. -/
def Arrow (text params body : List Char) : Prop :=
  ∃ gap, text = '(' :: (params ++ ')' :: (gap ++ '=' :: '>' :: body)) ∧ ')' ∉ params ∧
    ∀ c ∈ gap, Text.isBlank c = true

theorem splitArrow?_eq_some_iff {text params body : List Char} :
    splitArrow? text = some (params, body) ↔ Arrow text params body := by
  constructor
  · intro h
    unfold splitArrow? at h
    split at h
    · rename_i rest
      obtain ⟨⟨front, after⟩, found, h⟩ := Option.bind_eq_some_iff.mp h
      obtain ⟨tail, behind, h⟩ := Option.bind_eq_some_iff.mp h
      cases h
      obtain ⟨rfl, free⟩ := Text.breakOn?_eq_some_iff.mp found
      refine ⟨after.takeWhile Text.isBlank, ?_, free, fun c mem => List.mem_takeWhile_imp mem⟩
      have arrow := Text.dropPrefix?_eq_some_iff.mp behind
      rw [show '=' :: '>' :: body = ['=', '>'] ++ body from rfl, ← arrow,
        List.takeWhile_append_dropWhile]
    · cases h
  · rintro ⟨gap, rfl, free, blank⟩
    have found : Text.breakOn? [')'] (params ++ ')' :: (gap ++ '=' :: '>' :: body)) =
        some (params, gap ++ '=' :: '>' :: body) := Text.breakOn?_eq_some_iff.mpr ⟨rfl, free⟩
    have behind : (gap ++ '=' :: '>' :: body).dropWhile Text.isBlank = ['=', '>'] ++ body := by
      rw [List.dropWhile_append_of_pos blank]
      rfl
    rw [splitArrow?, found]
    simp only [bind, Option.bind, behind, Text.dropPrefix?_eq_some_iff.mpr rfl]
    rfl

theorem splitArrow?_eq_none_iff {text : List Char} :
    splitArrow? text = none ↔ ¬ ∃ params body, Arrow text params body := by
  simp only [← splitArrow?_eq_some_iff, not_exists]
  constructor
  · intro h params body
    simp [h]
  · intro h
    cases found : splitArrow? text with
    | none => rfl
    | some form => exact absurd found (h form.1 form.2)

end Condition

/-- Outside strings no arrow follows a parenthesis of an expression. -/
theorem Orderly.no_arrow {front gap behind : List Char}
    (h : Orderly (front ++ ')' :: (gap ++ '=' :: '>' :: behind)))
    (blank : ∀ c ∈ gap, Text.isBlank c = true) : ¬ ∃ u, Outside front u := by
  rintro ⟨v, before⟩
  obtain ⟨u, whole, -, tokens⟩ := h
  have bare : Outside (')' :: (gap ++ ['=', '>'])) (')' :: (gap ++ ['=', '>'])) := by
    refine .of_forall fun c mem quote => ?_
    have : Text.isBlank c = false ∧ c ≠ ')' ∧ c ≠ '=' ∧ c ≠ '>' := by
      simp only [List.mem_cons, List.not_mem_nil, or_false] at quote
      rcases quote with rfl | rfl <;> decide
    have inside : c ∉ gap := fun mem => by simp [blank c mem] at this
    simp [this, inside] at mem
  obtain ⟨u', rfl, -⟩ := Outside.split (v := behind) (by simpa using whole) (before.append bare)
  -- the last character before the arrow is the parenthesis or a blank, and no operator holds it
  obtain ⟨before', c, last⟩ : ∃ before' c, ')' :: gap = before' ++ [c] :=
    ⟨_, _, (List.dropLast_concat_getLast (List.cons_ne_nil ')' gap)).symm⟩
  have free : ∀ op : BinaryOp, c ∉ op.symbol := by
    intro op mem
    have solid : op.symbol.all (fun d => !Text.isBlank d && d != ')') = true := by
      cases op <;> rfl
    have here := List.all_eq_true.mp solid c mem
    have either : c ∈ ')' :: gap := by simp [last]
    rcases List.mem_cons.mp either with rfl | mem
    · simp at here
    · simp [blank c mem] at here
  refine not_tokens_arrow u' (Tokens.behind (v := v ++ before') (c := c) ?_ free)
  have same : v ++ ')' :: (gap ++ ['=', '>']) ++ u' = v ++ before' ++ c :: '=' :: '>' :: u' := by
    rw [← List.cons_append, last]
    simp
  rwa [same] at tokens

/-- Blanks around an expression do not count. -/
theorem Expr.parse_trim {source : String} {e : Expr} (h : parse source = .ok e) :
    parse (Text.trim source) = .ok e := by
  obtain ⟨c, rest, trimmed, -, derived⟩ := trimChars_of_parse h
  rw [parse_eq_ok_iff, Text.trim, String.toList_ofList, trimmed]
  exact derived.begins

namespace Condition

/-! ## Lists of parameters -/

theorem exists_piece {c : Char} {cs : List Char} (mem : c ∈ cs) (other : c ≠ ',') :
    ∃ piece ∈ splitCommas cs, c ∈ piece := by
  induction cs with
  | nil => cases mem
  | cons d cs ih =>
    rw [splitCommas]
    split
    · rename_i comma
      have later : c ∈ cs :=
        (List.mem_cons.mp mem).resolve_left fun same => other (same.trans comma)
      obtain ⟨piece, found, inside⟩ := ih later
      exact ⟨piece, List.mem_cons_of_mem _ found, inside⟩
    · split
      · rename_i first more pieces
        rcases List.mem_cons.mp mem with rfl | later
        · exact ⟨c :: first, by simp, by simp⟩
        · obtain ⟨piece, found, inside⟩ := ih later
          rw [pieces] at found
          rcases List.mem_cons.mp found with rfl | found
          · exact ⟨d :: piece, by simp, by simp [inside]⟩
          · exact ⟨piece, by simp [found], inside⟩
      · rename_i pieces
        rcases List.mem_cons.mp mem with rfl | later
        · exact ⟨[c], by simp, by simp⟩
        · obtain ⟨piece, found, -⟩ := ih later
          rw [pieces] at found
          cases found

/-- Where one element fails, the whole list fails with the error of one of its elements. -/
theorem mapM_error {α β ε : Type} {f : α → Except ε β} {as : List α} {a : α} (mem : a ∈ as)
    {fault : ε} (bad : f a = .error fault) :
    ∃ b fault', f b = .error fault' ∧ as.mapM f = .error fault' := by
  induction as with
  | nil => cases mem
  | cons d as ih =>
    rw [List.mapM_cons]
    cases first : f d with
    | error fault' => exact ⟨d, fault', first, rfl⟩
    | ok value =>
      have later : a ∈ as := by
        refine (List.mem_cons.mp mem).resolve_left ?_
        rintro rfl
        rw [bad] at first
        cases first
      obtain ⟨b, fault', failed, whole⟩ := ih later
      exact ⟨b, fault', failed, by rw [whole]; rfl⟩

/-- One place in a list of parameters. -/
def readParam (name : List Char) : Except DirectiveFault String :=
  if isVariableName (String.ofList name) then .ok (String.ofList name)
  else .error (.invalidParameter (String.ofList name))

theorem parseParams_eq (params : List Char) :
    parseParams params =
      (((splitCommas params).map Text.trimChars).filter (!·.isEmpty)).mapM readParam := rfl

/-- A character that neither separates names nor belongs to one is no part of a list of names. -/
theorem parseParams_error {c : Char} {params : List Char} (mem : c ∈ params) (other : c ≠ ',')
    (solid : Text.isBlank c = false) (letter : Expr.isIdentChar c = false) :
    ∃ name, parseParams params = .error (.invalidParameter name) := by
  obtain ⟨piece, found, inside⟩ := exists_piece mem other
  have kept := Text.mem_trimChars inside solid
  have invalid : ¬ isVariableName (String.ofList (Text.trimChars piece)) = true := by
    intro valid
    have word := Expr.identifier_of_variable valid
    rw [String.toList_ofList] at word
    exact Expr.not_mem_identifier word letter kept
  have listed : Text.trimChars piece ∈
      ((splitCommas params).map Text.trimChars).filter (!·.isEmpty) := by
    refine List.mem_filter.mpr ⟨List.mem_map_of_mem found, ?_⟩
    simpa using List.ne_nil_of_mem kept
  obtain ⟨b, fault, failed, whole⟩ := mapM_error (f := readParam) listed (if_neg invalid)
  rw [parseParams_eq, whole]
  rw [readParam] at failed
  split at failed
  · cases failed
  · cases failed
    exact ⟨_, rfl⟩

/-! ## Expressions as conditions -/

theorem parse_of_error {source : String} {fault : DirectiveFault}
    (h : parseTrimmed (Text.trim source) = .error fault) :
    parse source = .error (.invalidDirective directiveName (Text.trim source) fault) := by
  simp only [parse, h]

theorem parse_of_ok {source : String} {condition : Condition}
    (h : parseTrimmed (Text.trim source) = .ok condition) : parse source = .ok condition := by
  simp only [parse, h]

theorem Arrow.not_name {source : String} {params body : List Char}
    (h : Arrow source.toList params body) : source ≠ "" ∧ isVariableName source = false := by
  obtain ⟨gap, text, -⟩ := h
  constructor
  · rintro rfl
    simp at text
  · have word : isIdentifier source.toList = false := by
      rw [text]
      rfl
    simp [isVariableName, word]

theorem parseTrimmed_arrow {source : String} {params body : List Char}
    (h : Arrow source.toList params body) :
    parseTrimmed source = (do
      let names ← parseParams params
      let result ← parseBody body
      return .predicate names result) := by
  obtain ⟨solid, bare⟩ := h.not_name
  rw [parseTrimmed, if_neg solid, if_neg (by simp [bare]), splitArrow?_eq_some_iff.mpr h]

theorem parseTrimmed_expression {source : String} {e : Expr} (h : Expr.parse source = .ok e)
    (solid : source ≠ "") (bare : isVariableName source = false)
    (plain : ¬ ∃ params body, Arrow source.toList params body) :
    parseTrimmed source = .ok (.expression e) := by
  rw [parseTrimmed, if_neg solid, if_neg (by simp [bare]), splitArrow?_eq_none_iff.mpr plain]
  simp only [h]

/-- Where an expression looks like an arrow function, a string is open at its first closing
parenthesis, and the quote in front of it is no part of a list of names. -/
theorem arrow_of_expression {e : Expr} {text params body : List Char}
    (derived : Expr.Derives (.expr e) text) (h : Arrow text params body) :
    (¬ ∃ u, Outside params u) ∧ ∃ name, parseParams params = .error (.invalidParameter name) := by
  obtain ⟨gap, rfl, -, blank⟩ := h
  have unclosed : ¬ ∃ u, Outside params u := by
    rintro ⟨u, outside⟩
    have opened : Outside ('(' :: params) ('(' :: u) := .char (by simp) outside
    exact derived.orderly.no_arrow blank ⟨_, opened⟩
  refine ⟨unclosed, ?_⟩
  obtain ⟨c, mem, quote⟩ : ∃ c ∈ params, c ∈ ['\'', '"'] := by
    by_contra none
    exact unclosed ⟨params, .of_forall fun c mem quote => none ⟨c, mem, quote⟩⟩
  simp only [List.mem_cons, List.not_mem_nil, or_false] at quote
  rcases quote with rfl | rfl
  · exact parseParams_error mem (by decide) rfl rfl
  · exact parseParams_error mem (by decide) rfl rfl

/-- An expression that is not a name is a condition with its own meaning, unless a parenthesis
inside one of its strings makes it look like an arrow function. Then it is rejected, for what
stands before that parenthesis is no list of names. -/
theorem expression_unless_arrow {source : String} {e : Expr} (h : Expr.parse source = .ok e)
    (bare : isVariableName (Text.trim source) = false) :
    (Condition.parse source = .ok (.expression e) ↔
      ¬ ∃ params body, Arrow (Text.trim source).toList params body) ∧
    ∀ params body, Arrow (Text.trim source).toList params body →
      (¬ ∃ u, Outside params u) ∧
      ∃ name, Condition.parse source =
        .error (.invalidDirective directiveName (Text.trim source) (.invalidParameter name)) := by
  obtain ⟨c, rest, trimmed, -, derived⟩ := Expr.trimChars_of_parse h
  have text : (Text.trim source).toList = c :: rest := by
    rw [Text.trim, String.toList_ofList, trimmed]
  have rejected : ∀ params body, Arrow (Text.trim source).toList params body →
      (¬ ∃ u, Outside params u) ∧
      ∃ name, Condition.parse source =
        .error (.invalidDirective directiveName (Text.trim source) (.invalidParameter name)) := by
    intro params body arrow
    obtain ⟨unclosed, name, failed⟩ := arrow_of_expression derived (text ▸ arrow)
    refine ⟨unclosed, name, parse_of_error ?_⟩
    rw [parseTrimmed_arrow arrow, failed]
    rfl
  refine ⟨⟨?_, fun plain => ?_⟩, rejected⟩
  · rintro accepted ⟨params, body, arrow⟩
    obtain ⟨-, name, failed⟩ := rejected params body arrow
    rw [failed] at accepted
    cases accepted
  · have solid : Text.trim source ≠ "" := by
      intro empty
      simp [empty] at text
    exact parse_of_ok (parseTrimmed_expression (Expr.parse_trim h) solid bare plain)

/-- A parenthesis in a string does no harm where the first one is not in a string. -/
theorem expression_unless_arrow_quoted :
    Expr.parse " (a) >= b ? ')=>' : c " =
      .ok (.conditional (.binary .ge (.ident "a") (.ident "b")) (.literal (.string ")=>"))
        (.ident "c")) ∧
    isVariableName (Text.trim " (a) >= b ? ')=>' : c ") = false ∧
    Condition.parse " (a) >= b ? ')=>' : c " =
      .ok (.expression (.conditional (.binary .ge (.ident "a") (.ident "b"))
        (.literal (.string ")=>")) (.ident "c"))) := by
  have read : Expr.parse " (a) >= b ? ')=>' : c " =
      .ok (.conditional (.binary .ge (.ident "a") (.ident "b")) (.literal (.string ")=>"))
        (.ident "c")) := by cbv
  have bare : isVariableName (Text.trim " (a) >= b ? ')=>' : c ") = false := by cbv
  have plain := splitArrow?_eq_none_iff.mp
    (show splitArrow? (Text.trim " (a) >= b ? ')=>' : c ").toList = none by cbv)
  exact ⟨read, bare, (expression_unless_arrow read bare).1.mpr plain⟩

/-- A string in parentheses is an expression, but no condition. -/
theorem quoted_arrow_rejected :
    Expr.parse "(\")=>\")" = .ok (.literal (.string ")=>")) ∧
    isVariableName (Text.trim "(\")=>\")") = false ∧
    Condition.parse "(\")=>\")" =
      .error (.invalidDirective "if" "(\")=>\")" (.invalidParameter "\"")) := by
  refine ⟨?_, ?_, ?_⟩
  · cbv
  · cbv
  · cbv

/-! ## Parameters -/

/-- The names of a list of parameters. Commas stand between them, with blanks around, and a place
may stay empty. -/
inductive Listed : List String → List Char → Prop
  | blank {w : List Char} (blank : ∀ c ∈ w, Text.isBlank c = true) : Listed [] w
  | name {name : String} {a b : List Char} (before : ∀ c ∈ a, Text.isBlank c = true)
      (word : isVariableName name = true) (behind : ∀ c ∈ b, Text.isBlank c = true) :
      Listed [name] (a ++ (name.toList ++ b))
  | comma {names others : List String} {w v : List Char} (first : Listed names w)
      (rest : Listed others v) : Listed (names ++ others) (w ++ ',' :: v)

theorem splitCommas_ne_nil (cs : List Char) : splitCommas cs ≠ [] := by
  fun_induction splitCommas cs <;> simp

theorem splitCommas_of_not_mem {cs : List Char} (free : ',' ∉ cs) : splitCommas cs = [cs] := by
  induction cs with
  | nil => rfl
  | cons c cs ih =>
    rw [List.mem_cons, not_or] at free
    rw [splitCommas, if_neg (Ne.symm free.1), ih free.2]

theorem splitCommas_append (w v : List Char) :
    splitCommas (w ++ ',' :: v) = splitCommas w ++ splitCommas v := by
  induction w with
  | nil => simp [splitCommas]
  | cons c w ih =>
    rw [List.cons_append, splitCommas, splitCommas, ih]
    split
    · rfl
    · cases pieces : splitCommas w with
      | nil => exact absurd pieces (splitCommas_ne_nil w)
      | cons piece more => rfl

theorem parseParams_append {names others : List String} {w v : List Char}
    (first : parseParams w = .ok names) (rest : parseParams v = .ok others) :
    parseParams (w ++ ',' :: v) = .ok (names ++ others) := by
  rw [parseParams_eq] at first rest
  rw [parseParams_eq, splitCommas_append, List.map_append, List.filter_append, List.mapM_append,
    first, rest]
  rfl

theorem name_free {d : Char} {name : String} {a b : List Char}
    (before : ∀ c ∈ a, Text.isBlank c = true) (word : isVariableName name = true)
    (behind : ∀ c ∈ b, Text.isBlank c = true) (solid : Text.isBlank d = false)
    (letter : Expr.isIdentChar d = false) : d ∉ a ++ (name.toList ++ b) := by
  have inside := Expr.not_mem_identifier (Expr.identifier_of_variable word) letter
  simp [Text.blank_free before solid, inside, Text.blank_free behind solid]

theorem Listed.no_paren {names : List String} {w : List Char} (h : Listed names w) : ')' ∉ w := by
  induction h with
  | blank blank => exact Text.blank_free blank rfl
  | name before word behind => exact name_free before word behind rfl rfl
  | comma first rest ih ih' => simp [ih, ih']

theorem Listed.parseParams {names : List String} {w : List Char} (h : Listed names w) :
    parseParams w = .ok names := by
  induction h with
  | blank blank =>
    rw [parseParams_eq, splitCommas_of_not_mem (Text.blank_free blank rfl), List.map_singleton,
      Text.trimChars_blank blank]
    rfl
  | @name name a b before word behind =>
    have identifier := Expr.identifier_of_variable word
    have solid : name.toList ≠ [] := by
      obtain ⟨c, rest, text, -⟩ := Expr.letters_of_identifier identifier
      simp [text]
    rw [parseParams_eq, splitCommas_of_not_mem (name_free before word behind rfl rfl),
      List.map_singleton, Expr.trimChars_identifier before identifier behind,
      List.filter_cons_of_pos (by simpa using solid), List.filter_nil, List.mapM_cons,
      List.mapM_nil, readParam, String.ofList_toList, if_pos word]
    rfl
  | comma first rest ih ih' => exact parseParams_append ih ih'

/-! ## Bodies of arrow functions -/

/-- The text of an arrow function. -/
def arrowText (params body : String) : String := "(" ++ params ++ ") => " ++ body

/-- A text between braces. -/
def blockText (inner : String) : String := "\x7b " ++ inner ++ " \x7d"

theorem parseBody_congr {w v : List Char} (same : Text.trimChars w = Text.trimChars v) :
    parseBody w = parseBody v := by
  simp only [parseBody, same]

/-- The text of an arrow function looks like one. -/
theorem arrow_of_arrowText {names : List String} {params : String}
    (listed : Listed names params.toList) (body : String) :
    ∃ rest, Arrow (Text.trim (arrowText params body)).toList params.toList rest ∧
      Text.trimChars rest = Text.trimChars body.toList := by
  have space : ∀ c ∈ [' '], Text.isBlank c = true := List.forall_mem_singleton.mpr rfl
  have text : (arrowText params body).toList =
      '(' :: (params.toList ++ ")".toList ++ " =>".toList) ++ ' ' :: body.toList := by
    simp [arrowText]
  have stops : Text.Stops ('(' :: (params.toList ++ ")".toList ++ " =>".toList)) :=
    ⟨'(' :: (params.toList ++ ")".toList ++ " =".toList), '>', by simp, rfl⟩
  obtain ⟨rest, trimmed, same⟩ :=
    Text.trimChars_append ⟨'(', _, rfl, rfl⟩ stops (' ' :: body.toList)
  refine ⟨rest, ⟨[' '], ?_, listed.no_paren, space⟩, ?_⟩
  · rw [Text.trim, String.toList_ofList, text, trimmed]
    simp
  · have padded := Text.trimChars_pad space (b := []) (by simp) body.toList
    rw [List.append_nil] at padded
    rw [same, ← padded]
    rfl

/-- An arrow function reads as its parameters and its body. -/
theorem parse_arrowText_iff {params body : String} {names : List String}
    (listed : Listed names params.toList) {condition : Condition} :
    Condition.parse (arrowText params body) = .ok condition ↔
      ∃ value, condition = .predicate names value ∧ parseBody body.toList = .ok value := by
  obtain ⟨rest, form, same⟩ := arrow_of_arrowText listed body
  have read := parseTrimmed_arrow form
  rw [listed.parseParams, parseBody_congr same] at read
  cases value : parseBody body.toList with
  | ok e =>
    rw [value] at read
    rw [parse_of_ok read]
    simp [eq_comm]
  | error fault =>
    rw [value] at read
    rw [parse_of_error read]
    simp

/-! ## What a block returns -/

theorem trimEnd_append {p : Char → Bool} {w v : List Char} (stop : ∀ c ∈ w.getLast?, p c = false)
    (each : ∀ c ∈ v, p c = true) : trimEnd p (w ++ v) = w := by
  rw [trimEnd, List.reverse_append, List.dropWhile_append_of_pos (by simpa using each)]
  rcases List.eq_nil_or_concat w with rfl | ⟨front, c, rfl⟩
  · rfl
  · simp [stop c (by simp)]

/-- A text without the semicolons at its end and the blanks around it. -/
def statement (cs : List Char) : List Char :=
  Text.trimChars (trimEnd (· = ';') (Text.trimChars cs))

theorem statement_congr {w v : List Char} (same : Text.trimChars w = Text.trimChars v) :
    statement w = statement v := by
  rw [statement, statement, same]

/-- What is left of the text between two braces. -/
def returned (inner : String) : List Char :=
  statement ((Text.dropPrefix? "return".toList (Text.trim inner).toList).getD
    (Text.trim inner).toList)

theorem blockResult_braces (inner : String) :
    blockResult (' ' :: (inner.toList ++ [' ', '\x7d'])) = returned inner := by
  have space : ∀ c ∈ [' '], Text.isBlank c = true := List.forall_mem_singleton.mpr rfl
  have closed : trimEnd Text.isBlank ([' '] ++ (inner.toList ++ [' ']) ++ ['\x7d']) =
      [' '] ++ (inner.toList ++ [' ']) ++ ['\x7d'] := by
    rw [← List.append_nil ([' '] ++ (inner.toList ++ [' ']) ++ ['\x7d'])]
    refine (trimEnd_append (fun c mem => ?_) (by simp)).trans (List.append_nil _).symm
    rw [List.getLast?_concat, Option.mem_some_iff] at mem
    rw [← mem]
    rfl
  have text : ' ' :: (inner.toList ++ [' ', '\x7d']) =
      [' '] ++ (inner.toList ++ [' ']) ++ ['\x7d'] := by simp
  rw [text]
  simp only [blockResult, closed, Text.dropSuffix?_append, Option.getD_some,
    Text.trimChars_pad space space inner.toList]
  simp only [returned, statement, Text.trim, String.toList_ofList]

theorem parseBody_block_iff {inner : String} {value : Expr} :
    parseBody (blockText inner).toList = .ok value ↔
      returned inner = [] ∧ value = .literal .undefined ∨
        Expr.parse (String.ofList (returned inner)) = .ok value := by
  have text : (blockText inner).toList = '\x7b' :: (' ' :: (inner.toList ++ [' ', '\x7d'])) := by
    simp [blockText]
  have stops : Text.Stops (blockText inner).toList :=
    ⟨'\x7b' :: ' ' :: (inner.toList ++ [' ']), '\x7d', by simp [blockText], rfl⟩
  have trimmed := Text.trimChars_self ⟨_, _, text, rfl⟩ stops
  rw [text] at trimmed ⊢
  simp only [parseBody, trimmed, blockResult_braces]
  cases returned inner with
  | nil =>
    have nothing : Expr.parse (String.ofList []) ≠ .ok value := by
      intro read
      obtain ⟨c, rest, trimmed, -⟩ := Expr.trimChars_of_parse read
      cases trimmed
    simp [nothing, eq_comm]
  | cons c rest =>
    simp only
    cases Expr.parse (String.ofList (c :: rest)) <;> simp

theorem parseBody_expression {source : String} {e : Expr} (h : Expr.parse source = .ok e) :
    parseBody source.toList = .ok e := by
  obtain ⟨c, rest, trimmed, front, -⟩ := Expr.trimChars_of_parse h
  have read := Expr.parse_trim h
  rw [Text.trim, trimmed] at read
  simp only [parseBody, trimmed]
  split
  · rename_i nothing
    cases nothing
  · rename_i brace
    cases brace
    cases front
  · simp only [read]

section Statement

variable {a w b m : List Char} (before : ∀ c ∈ a, Text.isBlank c = true) (starts : Text.Starts w)
  (ends : Expr.Ends w) (behind : ∀ c ∈ b, Text.isBlank c = true) (marks : ∀ c ∈ m, c = ';')

include starts ends in
theorem stops_of_ends : Text.Stops w := by
  obtain ⟨c, rest, rfl, -⟩ := starts
  exact ends.stops (by simp)

include ends behind marks in
theorem trimEnd_marks : trimEnd (· = ';') (w ++ b ++ m) = w ++ b := by
  refine trimEnd_append (fun c mem => ?_) (by simpa using marks)
  rw [decide_eq_false_iff_not]
  rintro rfl
  rcases List.eq_nil_or_concat b with rfl | ⟨front, d, rfl⟩
  · cases ends _ (by simpa using mem)
  · obtain rfl : d = ';' := by simpa using mem
    cases behind ';' (by simp)

include before starts ends behind marks in
/-- Of an expression with blanks and semicolons around it, the expression is left. -/
theorem statement_surrounded : statement (a ++ (w ++ b ++ m)) = w := by
  have stops := stops_of_ends starts ends
  have peeled : ∃ b', (∀ c ∈ b', Text.isBlank c = true) ∧
      trimEnd (· = ';') (Text.trimChars (a ++ (w ++ b ++ m))) = w ++ b' := by
    -- trimming takes the blanks before the semicolons only where there is no semicolon
    rcases List.eq_nil_or_concat m with rfl | ⟨marks', c, rfl⟩
    · refine ⟨[], by simp, ?_⟩
      have whole := trimEnd_marks ends (b := []) (m := []) (by simp) (by simp)
      rw [List.append_nil] at whole ⊢
      rw [Text.trimChars_surrounded before starts stops behind, ← whole, List.append_nil]
    · refine ⟨b, behind, ?_⟩
      have solid : Text.isBlank c = false := by
        rw [marks c (by simp)]
        rfl
      have whole := Text.trimChars_surrounded before (w := w ++ b ++ marks'.concat c) (b := [])
        ((starts.append b).append _) ⟨w ++ b ++ marks', c, by simp, solid⟩ (by simp)
      rw [List.append_nil] at whole
      rw [whole, trimEnd_marks ends behind marks]
  obtain ⟨b', blank, same⟩ := peeled
  rw [statement, same]
  exact Text.trimChars_surrounded (a := []) (by simp) starts stops blank

end Statement

theorem statement_of_ends {v : List Char} (ends : Expr.Ends v) :
    statement v = Text.trimChars v := by
  rcases Text.blank_or_starts v with blank | ⟨a, w, rfl, before, starts⟩
  · rw [statement, Text.trimChars_blank blank]
    rfl
  · have left := statement_surrounded before starts ends.right (b := []) (m := []) (by simp)
      (by simp)
    have trimmed := Text.trimChars_surrounded before starts (stops_of_ends starts ends.right)
      (b := []) (by simp)
    rw [List.append_nil] at trimmed
    rw [List.append_nil, List.append_nil] at left
    rw [left, trimmed]

/-! ## The ways to write a body -/

section Returned

variable {source : String} {e : Expr} (h : Expr.parse source = .ok e)

include h in
/-- The text of an expression within the blanks around it. -/
theorem trim_of_parse :
    ∃ a b, source.toList = a ++ ((Text.trim source).toList ++ b) ∧
      (∀ c ∈ a, Text.isBlank c = true) ∧ (∀ c ∈ b, Text.isBlank c = true) ∧
      Text.Starts (Text.trim source).toList ∧ Expr.Ends (Text.trim source).toList := by
  obtain ⟨a, c, rest, b, text, gap, gap', front, derived⟩ := Expr.surrounded_of_parse h
  have starts := Expr.starts_of_isFront front rest
  have trimmed : (Text.trim source).toList = c :: rest := by
    rw [Text.trim, String.toList_ofList, text]
    exact Text.trimChars_surrounded gap.blank starts (stops_of_ends starts derived.ends) gap'.blank
  exact ⟨a, b, by rw [trimmed, text], gap.blank, gap'.blank, trimmed ▸ starts,
    trimmed ▸ derived.ends⟩

include h in
/-- Of the text of an expression, with or without semicolons behind it, the expression is left. -/
theorem statement_source {m : List Char} (marks : ∀ c ∈ m, c = ';') :
    statement (source.toList ++ m) = (Text.trim source).toList := by
  obtain ⟨a, b, text, before, behind, starts, ends⟩ := trim_of_parse h
  have left := statement_surrounded before starts ends behind marks
  rw [text]
  simpa only [List.append_assoc] using left

theorem returned_behind_word {inner : String} {v : List Char}
    (text : (Text.trim inner).toList = "return".toList ++ v) : returned inner = statement v := by
  rw [returned, Text.dropPrefix?_eq_some_iff.mpr text, Option.getD_some]

/-- The word in front is dropped. -/
theorem returned_return (inner : String) :
    returned ("return " ++ inner) = statement inner.toList := by
  have text : ("return " ++ inner).toList = "return".toList ++ ([' '] ++ (inner.toList ++ [])) := by
    simp
  obtain ⟨rest, trimmed, same⟩ := Text.trimChars_append (w := "return".toList)
    ⟨'r', "eturn".toList, rfl, rfl⟩ ⟨"retur".toList, 'n', rfl, rfl⟩ ([' '] ++ (inner.toList ++ []))
  rw [Text.trimChars_pad (List.forall_mem_singleton.mpr rfl) (by simp)] at same
  rw [← text] at trimmed
  rw [returned_behind_word (v := rest) (by rw [Text.trim, String.toList_ofList, trimmed])]
  exact statement_congr same

include h in
theorem returned_bare (other : ¬ "return".toList <+: (Text.trim source).toList) :
    returned source = (Text.trim source).toList := by
  obtain ⟨a, b, -, -, -, starts, ends⟩ := trim_of_parse h
  rw [returned, Text.dropPrefix?_eq_none_iff.mpr other, Option.getD_none, statement_of_ends ends,
    Text.trimChars_self starts (stops_of_ends starts ends)]

include h in
/-- The letters of `return` in front of an expression are not told from the word. -/
theorem returned_cut {tail : String} (cut : Text.trim source = "return" ++ tail) :
    returned source = (Text.trim tail).toList := by
  obtain ⟨a, b, -, -, -, -, ends⟩ := trim_of_parse h
  have text : (Text.trim source).toList = "return".toList ++ tail.toList := by
    rw [cut, String.toList_append]
  rw [text] at ends
  rw [returned_behind_word text, statement_of_ends ends.right, Text.trim, String.toList_ofList]

include h in
theorem parse_block_of_returned {params inner : String} {names : List String}
    (listed : Listed names params.toList) (left : returned inner = (Text.trim source).toList) :
    Condition.parse (arrowText params (blockText inner)) = .ok (.predicate names e) := by
  refine (parse_arrowText_iff listed).mpr ⟨e, rfl, parseBody_block_iff.mpr (.inr ?_)⟩
  rw [left, String.ofList_toList]
  exact Expr.parse_trim h

end Returned

theorem parse_block_cut_iff {params source tail : String} {names : List String} {e : Expr}
    (listed : Listed names params.toList) (h : Expr.parse source = .ok e)
    (cut : Text.trim source = "return" ++ tail) {condition : Condition} :
    Condition.parse (arrowText params (blockText source)) = .ok condition ↔
      ∃ value, condition = .predicate names value ∧
        (Text.trim tail = "" ∧ value = .literal .undefined ∨
          Expr.parse (Text.trim tail) = .ok value) := by
  rw [parse_arrowText_iff listed]
  simp only [parseBody_block_iff, returned_cut h cut, String.ofList_toList,
    String.toList_eq_nil_iff]

/-- An expression as the body of an arrow function, and the same expression returned from a block
with or without a semicolon, give the same condition. In a block without `return` it does too,
unless it starts with the letters of that word, be they the front of a longer name. These are
dropped, and the block returns what is left. -/
theorem arrow_bodies_agree {params source : String} {names : List String} {e : Expr}
    (listed : Listed names params.toList) (h : Expr.parse source = .ok e) :
    Condition.parse (arrowText params source) = .ok (.predicate names e) ∧
    Condition.parse (arrowText params (blockText ("return " ++ source))) =
      .ok (.predicate names e) ∧
    Condition.parse (arrowText params (blockText ("return " ++ source ++ ";"))) =
      .ok (.predicate names e) ∧
    (¬ "return".toList <+: (Text.trim source).toList →
      Condition.parse (arrowText params (blockText source)) = .ok (.predicate names e)) ∧
    ∀ tail condition, Text.trim source = "return" ++ tail →
      (Condition.parse (arrowText params (blockText source)) = .ok condition ↔
        ∃ value, condition = .predicate names value ∧
          (Text.trim tail = "" ∧ value = .literal .undefined ∨
            Expr.parse (Text.trim tail) = .ok value)) := by
  refine ⟨?_, ?_, ?_, fun other => ?_, fun tail condition cut => ?_⟩
  · exact (parse_arrowText_iff listed).mpr ⟨e, rfl, parseBody_expression h⟩
  · refine parse_block_of_returned h listed ?_
    rw [returned_return, ← List.append_nil source.toList, statement_source h (by simp)]
  · refine parse_block_of_returned h listed ?_
    rw [String.append_assoc, returned_return, String.toList_append]
    exact statement_source h (by simp)
  · exact parse_block_of_returned h listed (returned_bare h other)
  · exact parse_block_cut_iff listed h cut

theorem arrow_bodies_agree_braces :
    Listed ["a", "b"] " a ,b".toList ∧ Expr.parse "a == '\x7d;'" =
      .ok (.binary .eq (.ident "a") (.literal (.string "\x7d;"))) ∧
    Condition.parse (arrowText " a ,b" (blockText ("return " ++ "a == '\x7d;'" ++ ";"))) =
      .ok (.predicate ["a", "b"] (.binary .eq (.ident "a") (.literal (.string "\x7d;")))) := by
  have listed : Listed ["a", "b"] " a ,b".toList :=
    .comma (@Listed.name "a" [' '] [' '] (List.forall_mem_singleton.mpr rfl) rfl
      (List.forall_mem_singleton.mpr rfl)) (@Listed.name "b" [] [] (by simp) rfl (by simp))
  have read : Expr.parse "a == '\x7d;'" =
      .ok (.binary .eq (.ident "a") (.literal (.string "\x7d;"))) := by cbv
  exact ⟨listed, read, (arrow_bodies_agree listed read).2.2.1⟩

/-- A name that starts with `return` loses these letters. -/
theorem block_cuts_name :
    Listed ["a", "returned"] "a, returned".toList ∧
    Expr.parse "returned" = .ok (.ident "returned") ∧
    Condition.parse (arrowText "a, returned" (blockText "returned")) =
      .ok (.predicate ["a", "returned"] (.ident "ed")) := by
  have listed : Listed ["a", "returned"] "a, returned".toList :=
    .comma (@Listed.name "a" [] [] (by simp) rfl (by simp))
      (@Listed.name "returned" [' '] [] (List.forall_mem_singleton.mpr rfl) rfl (by simp))
  have read : Expr.parse "returned" = .ok (.ident "returned") := by cbv
  have cut : Text.trim "returned" = "return" ++ "ed" := by cbv
  have left : Expr.parse (Text.trim "ed") = .ok (.ident "ed") := by cbv
  exact ⟨listed, read, (parse_block_cut_iff listed read cut).mpr ⟨_, rfl, .inr left⟩⟩

end Condition

end LiveTemplate
