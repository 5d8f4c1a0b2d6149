import LiveTemplate.Proofs.Conditions
import LiveTemplate.Proofs.Extraction
import LiveTemplate.Proofs.Inventory

/-!
# LiveTemplate.Proofs.Names

What counts as a name. Conditions, parameters and expressions ask for a word that is no keyword; the
name of a handler may be any word. So a keyword can name a handler, though no expression reads it as
a name.

  * `Expr.parse_identifier`            what a word is read as
  * `Expr.parse_eq_ident_iff`          the words that are read as themselves
  * `Condition.parse_eq_ident_iff`     the conditions that are names
  * `parseHandler_identifier`          every word names a handler
  * `names_agree_unless_keyword`       which names the readers have in common
-/

namespace LiveTemplate

/-! ## Words -/

namespace Expr

theorem identifier_of_keyword {s : String} (h : s ∈ keywords) : isIdentifier s.toList = true := by
  have each : keywords.all (fun k => isIdentifier k.toList) = true := by decide
  exact List.all_eq_true.mp each s h

theorem isIdentifier_iff {s : String} :
    isIdentifier s.toList = true ↔ isVariableName s = true ∨ s ∈ keywords := by
  constructor
  · intro identifier
    by_cases keyword : s ∈ keywords
    · exact .inr keyword
    · exact .inl (by simp [isVariableName, identifier, keyword])
  · rintro (word | keyword)
    · exact identifier_of_variable word
    · exact identifier_of_keyword keyword

theorem trimChars_word {cs : List Char} (h : isIdentifier cs = true) : Text.trimChars cs = cs := by
  simpa using trimChars_identifier (a := []) (b := []) (by simp) h (by simp)

theorem ofWord_of_keyword {s : String} (h : s ∈ keywords) : ∃ l, ofWord s = .literal l := by
  simp only [keywords, List.mem_cons, List.not_mem_nil, or_false] at h
  rcases h with rfl | rfl | rfl | rfl <;> exact ⟨_, rfl⟩

/-- A word is an expression by itself. -/
theorem parse_identifier {s : String} (h : isIdentifier s.toList = true) :
    parse s = .ok (ofWord s) := by
  have whole := (Derives.word h).expr_of_primary .noAccess
  rw [List.append_nil, String.ofList_toList] at whole
  exact parse_eq_ok_iff.mpr whole.begins

theorem parse_eq_ident_iff {s : String} :
    parse s = .ok (.ident s) ↔ isVariableName s = true := by
  constructor
  · intro h
    obtain ⟨w, b, -, -, derived⟩ := parse_eq_ok_iff.mp h
    have identifier : isIdentifier s.toList = true := derived.wellNamed s (.inl rfl)
    rcases isIdentifier_iff.mp identifier with word | keyword
    · exact word
    · -- the grammar has keywords among its words, but they stand for literals
      obtain ⟨l, same⟩ := ofWord_of_keyword keyword
      rw [parse_identifier identifier, same] at h
      cases h
  · intro word
    rw [parse_identifier (identifier_of_variable word), ofWord_of_variable word]

/-- The keywords are the words that are read as literals. -/
theorem keyword_iff_literal {s : String} :
    s ∈ keywords ↔ isIdentifier s.toList = true ∧ ∃ l, parse s = .ok (.literal l) := by
  constructor
  · intro keyword
    have identifier := identifier_of_keyword keyword
    obtain ⟨l, same⟩ := ofWord_of_keyword keyword
    exact ⟨identifier, l, by rw [parse_identifier identifier, same]⟩
  · rintro ⟨identifier, l, read⟩
    refine (isIdentifier_iff.mp identifier).resolve_left fun word => ?_
    rw [parse_eq_ident_iff.mpr word] at read
    cases read

end Expr

/-! ## Conditions and parameters -/

namespace Condition

theorem parse_eq_ident_iff {source name : String} :
    parse source = .ok (.ident name) ↔ name = Text.trim source ∧ isVariableName name = true := by
  constructor
  · intro h
    cases read : parseTrimmed (Text.trim source) with
    | error fault =>
      rw [parse_of_error read] at h
      cases h
    | ok condition =>
      rw [parse_of_ok read] at h
      cases h
      rw [parseTrimmed] at read
      split_ifs at read with blank word
      · cases read
      · cases read
        exact ⟨rfl, word⟩
      · -- an arrow function or an expression, whatever becomes of it, is no name
        split at read
        · obtain ⟨names, -, read⟩ := exists_of_bind_eq_ok read
          obtain ⟨body, -, read⟩ := exists_of_bind_eq_ok read
          cases read
        · split at read <;> cases read
  · rintro ⟨rfl, word⟩
    refine parse_of_ok ?_
    have solid : Text.trim source ≠ "" := by
      intro blank
      rw [blank] at word
      cases word
    rw [parseTrimmed, if_neg solid, if_pos word]

theorem variable_of_readParam {cs : List Char} {name : String} (h : readParam cs = .ok name) :
    isVariableName name = true := by
  rw [readParam] at h
  split_ifs at h with word
  cases h
  exact word

theorem variable_of_parseParams {params : List Char} {names : List String}
    (h : parseParams params = .ok names) : ∀ name ∈ names, isVariableName name = true := by
  obtain ⟨pieces, matched⟩ : ∃ pieces,
      List.Forall₂ (fun piece name => readParam piece = .ok name) pieces names :=
    ⟨_, forall₂_of_mapM (parseParams_eq params ▸ h)⟩
  clear h
  induction matched with
  | nil => simp
  | cons first _ ih => exact List.forall_mem_cons.mpr ⟨variable_of_readParam first, ih⟩

end Condition

/-! ## Handlers -/

theorem identifier_of_splitHandler {body : List Char} {name : String} {args : Option (List Char)}
    (h : splitHandler body = .ok (name, args)) : isIdentifier name.toList = true := by
  cases split : Text.breakOn? ['('] body with
  | none =>
    rw [splitHandler_bare split] at h
    split_ifs at h with identifier
    cases h
    rwa [String.toList_ofList]
  | some found =>
    obtain ⟨front, rest⟩ := found
    cases scan : closeParen? 0 none false rest with
    | none =>
      rw [splitHandler_unclosed split scan] at h
      cases h
    | some found =>
      rw [splitHandler_closed split scan] at h
      split_ifs at h with blank identifier
      cases h
      rwa [String.toList_ofList]

/-- A dollar sign in a word opens no span. -/
theorem splitText_identifier {s : String} (h : isIdentifier s.toList = true) :
    splitText s = .ok ⟨s.toList, []⟩ := by
  have none : nextSpan? s.toList = none := by
    by_contra opened
    obtain ⟨⟨before, kind, after⟩, found⟩ := Option.ne_none_iff_exists'.mp opened
    have text := (nextSpan?_iff_clear.mp found).1
    refine Expr.not_mem_identifier (c := '\x7b') h rfl ?_
    rw [text]
    cases kind <;> simp [SpanMark.opening]
  exact splitText_eq_ok_iff.mpr (Scans.done none).splitSpans_eq

theorem splitHandler_identifier {cs : List Char} (h : isIdentifier cs = true) :
    splitHandler (Text.trimChars cs) = .ok (String.ofList cs, none) := by
  have trimmed := Expr.trimChars_word h
  have bare : Text.breakOn? ['('] cs = none := by
    by_contra opened
    obtain ⟨⟨front, rest⟩, found⟩ := Option.ne_none_iff_exists'.mp opened
    refine Expr.not_mem_identifier (c := '(') h rfl ?_
    rw [(Text.breakOn?_eq_some_iff.mp found).1]
    simp
  rw [trimmed, splitHandler_bare bare, trimmed, if_pos h]

theorem identifier_of_parseHandler {event value : String} {call : HandlerCall}
    (h : parseHandler event value = .ok call) : isIdentifier call.handler.toList = true := by
  obtain ⟨body, args, split, -⟩ := split_of_parseHandler h
  exact identifier_of_splitHandler split

theorem parseHandler_identifier (event : String) {s : String} (h : isIdentifier s.toList = true) :
    parseHandler event s = .ok ⟨s, none⟩ := by
  have split := splitHandler_identifier h
  rw [String.ofList_toList] at split
  rw [parseHandler, splitText_identifier h]
  simp only [bind, Except.bind, pure, Except.pure, split]

/-! ## The names in common -/

/-- Conditions and parameters take the same words for names as expressions do. Handlers take the
keywords as well, and these alone: words that an expression reads as literals. -/
theorem names_agree_unless_keyword (s : String) :
    (isVariableName s = true ↔ Expr.parse s = .ok (.ident s)) ∧
    (isIdentifier s.toList = true ↔ Expr.parse s = .ok (.ident s) ∨ s ∈ Expr.keywords) ∧
    (s ∈ Expr.keywords ↔ isIdentifier s.toList = true ∧ ∃ l, Expr.parse s = .ok (.literal l)) ∧
    ((∃ source, Condition.parse source = .ok (.ident s)) ↔ Expr.parse s = .ok (.ident s)) ∧
    ((∃ params names, Condition.parseParams params = .ok names ∧ s ∈ names) ↔
      Expr.parse s = .ok (.ident s)) ∧
    ∀ event, (∃ value args, parseHandler event value = .ok ⟨s, args⟩) ↔
      Expr.parse s = .ok (.ident s) ∨ s ∈ Expr.keywords := by
  rw [Expr.parse_eq_ident_iff]
  refine ⟨Iff.rfl, Expr.isIdentifier_iff, Expr.keyword_iff_literal, ⟨?_, fun word => ?_⟩,
    ⟨?_, fun word => ?_⟩, fun event => ⟨?_, fun word => ?_⟩⟩
  · rintro ⟨source, read⟩
    exact (Condition.parse_eq_ident_iff.mp read).2
  · have trimmed := Expr.trimChars_word (Expr.identifier_of_variable word)
    refine ⟨s, Condition.parse_eq_ident_iff.mpr ⟨?_, word⟩⟩
    rw [Text.trim, trimmed, String.ofList_toList]
  · rintro ⟨params, names, read, mem⟩
    exact Condition.variable_of_parseParams read s mem
  · have listed := Condition.Listed.name (a := []) (b := []) (by simp) word (by simp)
    exact ⟨_, _, listed.parseParams, by simp⟩
  · rintro ⟨value, args, read⟩
    exact Expr.isIdentifier_iff.mp (identifier_of_parseHandler read)
  · exact ⟨s, none, parseHandler_identifier event (Expr.isIdentifier_iff.mpr word)⟩

/-- A handler can be named by a word that is no name anywhere else. -/
theorem keyword_names_handler :
    isIdentifier "true".toList = true ∧ isVariableName "true" = false ∧
    Expr.parse "true" = .ok (.literal (.bool true)) ∧
    parseHandler "click" "true" = .ok ⟨"true", none⟩ := by
  refine ⟨?_, ?_, ?_, ?_⟩
  · decide
  · decide
  · cbv
  · cbv

end LiveTemplate
