import LiveTemplate.Proofs.Arguments

/-!
# LiveTemplate.Proofs.Literals

Strings as literals. A backslash before each backslash and each quote is all it takes: between two
quotes of either kind every string can be written. The grammar decides where such a literal ends and
the escapes are taken out on the way, and both pair backslashes alike, so the string comes back
and reading goes on right behind the closing quote, whatever stands there.

  * `QuoteMark.write`        a string as a literal
  * `quoted_escape`          what stands between the quotes
  * `parseArguments_join`    two lists of arguments with a comma between them
  * `literals_read_back`     the main result
-/

namespace LiveTemplate
namespace Expr

/-- The two kinds of quotes around a string. -/
inductive QuoteMark where
  | single
  | double
  deriving DecidableEq, Repr

namespace QuoteMark

def char : QuoteMark → Char
  | .single => '\''
  | .double => '"'

/-- A character as it stands between the quotes. -/
def escape (q : QuoteMark) (c : Char) : List Char :=
  if c = '\\' ∨ c = q.char then ['\\', c] else [c]

/-- The literal for a string. -/
def write (q : QuoteMark) (s : String) : String :=
  String.ofList (q.char :: (s.toList.flatMap q.escape ++ [q.char]))

theorem char_mem (q : QuoteMark) : q.char ∈ ['\'', '"'] := by
  cases q <;> decide

/-- An escaped character stands for itself: it is none of the letters with another meaning. -/
theorem unescape_eq {q : QuoteMark} {c : Char} (h : c = '\\' ∨ c = q.char) : unescape c = c := by
  rcases h with rfl | rfl
  · rfl
  · cases q <;> rfl

end QuoteMark

theorem quoted_escape (q : QuoteMark) (cs : List Char) :
    Quoted q.char (cs.flatMap q.escape) cs := by
  induction cs with
  | nil => exact .nil
  | cons c cs ih =>
    rw [List.flatMap_cons, QuoteMark.escape]
    split
    case isTrue special =>
      have escaped := Quoted.escape (c := c) ih
      rwa [QuoteMark.unescape_eq special] at escaped
    case isFalse plain =>
      obtain ⟨bare, inside⟩ := not_or.mp plain
      exact .plain inside bare ih

theorem derives_write (q : QuoteMark) (s : String) :
    Derives (.primary (.literal (.string s))) (q.write s).toList := by
  have derived := Derives.string q.char_mem (quoted_escape q s.toList)
  rwa [String.ofList_toList, ← @String.toList_ofList (q.char :: _)] at derived

theorem parse_write (q : QuoteMark) (s : String) :
    parse (q.write s) = .ok (.literal (.string s)) := by
  have whole := (derives_write q s).expr_of_primary .noAccess
  rw [List.append_nil] at whole
  exact parse_eq_ok_iff.mpr whole.begins

/-- Nothing that follows can become part of the literal. -/
theorem readPrimary_write (q : QuoteMark) (s : String) (n : Nat) (rest : List Char) :
    readPrimary (n + 1) ((q.write s).toList ++ rest) = .ok (.literal (.string s), rest) := by
  have read := readPrimary_quoted q.char_mem (quoted_escape q s.toList) n rest
  rw [String.ofList_toList] at read
  rw [QuoteMark.write, String.toList_ofList, List.cons_append, List.append_assoc]
  exact read

/-! ## Joining lists of arguments -/

theorem Derives.moreItems_append {es fs : List Expr} {v w : List Char}
    (h : Derives (.moreItems es) v) (k : Derives (.moreItems fs) w) :
    Derives (.moreItems (es ++ fs)) (v ++ w) := by
  generalize same : Phrase.moreItems es = p at h
  induction h generalizing es with
  | noMore =>
    cases same
    exact k
  | more gap first more _ ih =>
    cases same
    simpa using Derives.more gap first (ih rfl)
  | _ => cases same

/-- A comma joins two lists of arguments, unless one of them is empty. -/
theorem parseArguments_join {a b : String} {es fs : List Expr}
    (left : parseArguments a = .ok es) (right : parseArguments b = .ok fs) (solid : es ≠ [])
    (solid' : fs ≠ []) : parseArguments (a ++ "," ++ b) = .ok (es ++ fs) := by
  rw [parseArguments_eq_ok_iff] at left right ⊢
  obtain ⟨w, c, text, gap, derived⟩ := left
  obtain ⟨w', c', text', gap', derived'⟩ := right
  cases derived with
  | noItems => exact absurd rfl solid
  | items first more =>
    cases derived' with
    | noItems => exact absurd rfl solid'
    | items first' more' =>
      -- The blanks behind the first list stand before the comma.
      refine ⟨_, c', ?_, gap', .items first (more.moreItems_append (.more gap first' more'))⟩
      simp [text, text']

theorem parseArguments_write (q : QuoteMark) (s : String) :
    parseArguments (q.write s) = .ok [.literal (.string s)] := by
  have whole := (derives_write q s).expr_of_primary .noAccess
  have items := (whole.items .noMore).begins
  rw [List.append_nil, List.append_nil] at items
  exact parseArguments_eq_ok_iff.mpr items

theorem parseArguments_literals (items : List (QuoteMark × String)) :
    parseArguments (",".intercalate (items.map fun item => item.1.write item.2)) =
      .ok (items.map fun item => .literal (.string item.2)) := by
  induction items with
  | nil => rfl
  | cons item items ih =>
    cases items with
    | nil => exact parseArguments_write item.1 item.2
    | cons next items =>
      have joined := parseArguments_join (parseArguments_write item.1 item.2) ih (by simp) (by simp)
      simpa using joined

/-- Every string can be written as a literal, with either quote, and is read back from it. The
literal ends at its closing quote, whatever follows, so it can stand among other arguments; and
literals with commas between them are read as the strings that they were written for. -/
theorem literals_read_back (q : QuoteMark) (s : String) :
    parse (q.write s) = .ok (.literal (.string s)) ∧
    (∀ n rest, readPrimary (n + 1) ((q.write s).toList ++ rest) =
      .ok (.literal (.string s), rest)) ∧
    (∀ before after es fs, parseArguments before = .ok es → parseArguments after = .ok fs →
      es ≠ [] → fs ≠ [] → parseArguments (before ++ "," ++ q.write s ++ "," ++ after) =
        .ok (es ++ .literal (.string s) :: fs)) ∧
    ∀ items : List (QuoteMark × String),
      parseArguments (",".intercalate (items.map fun item => item.1.write item.2)) =
        .ok (items.map fun item => .literal (.string item.2)) := by
  refine ⟨parse_write q s, readPrimary_write q s, ?_, parseArguments_literals⟩
  intro before after es fs left right solid solid'
  have front := parseArguments_join left (parseArguments_write q s) solid (by simp)
  have joined := parseArguments_join front right (by simp) solid'
  rwa [List.append_assoc, List.singleton_append] at joined

example : QuoteMark.single.write "it's \\n" = "'it\\'s \\\\n'" := by decide

end Expr
end LiveTemplate
