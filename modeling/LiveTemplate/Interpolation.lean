import LiveTemplate.Expr.Eval
import LiveTemplate.Scope
import LiveTemplate.Text.Search

/-!
# LiveTemplate.Interpolation

Text with expressions in it. A span opens with a dollar and a brace or with two braces and ends at
the first closing mark of its kind; spans do not nest.
-/

namespace LiveTemplate

/-! ## Splitting -/

/-- The next opening mark, with what stands before and after it. -/
def nextSpan? : List Char → Option (List Char × SpanMark × List Char)
  | [] => none
  | '$' :: '\x7b' :: rest => some ([], .dollar, rest)
  | '\x7b' :: '\x7b' :: rest => some ([], .braces, rest)
  | c :: rest => (nextSpan? rest).map fun (before, mark, after) => (c :: before, mark, after)

theorem length_nextSpan? {cs before after : List Char} {mark : SpanMark}
    (h : nextSpan? cs = some (before, mark, after)) : after.length < cs.length := by
  fun_induction nextSpan? cs generalizing before with
  | case1 => cases h
  | case2 rest => cases h; simp only [List.length_cons]; omega
  | case3 rest => cases h; simp only [List.length_cons]; omega
  | case4 c rest _ _ ih =>
    obtain ⟨⟨front, kind, back⟩, found, same⟩ := Option.map_eq_some_iff.mp h
    cases same
    exact Nat.lt_succ_of_lt (ih found)

/-- Literal text and what stands in the spans, in turns: a literal, then spans with the literal
that follows each. -/
structure Split where
  first : List Char
  rest : List (List Char × List Char)

/-- Splits at the spans. Fails with the mark that is opened and not closed. -/
def splitSpans (cs : List Char) : Except SpanMark Split :=
  match _next : nextSpan? cs with
  | none => .ok ⟨cs, []⟩
  | some (before, mark, after) =>
    match _close : Text.breakOn? mark.closing.toList after with
    | none => .error mark
    | some (body, remaining) =>
      match splitSpans remaining with
      | .error mark => .error mark
      | .ok split => .ok ⟨before, (body, split.first) :: split.rest⟩
  termination_by cs.length
  decreasing_by
    have opened := length_nextSpan? _next
    have closed := Text.length_breakOn? _close
    omega

/-- Splits a text, with the error that a template gives. -/
def splitText (text : String) : Except CompileError Split :=
  match splitSpans text.toList with
  | .ok split => .ok split
  | .error mark => .error (.unterminatedExpression mark text)

/-! ## Interpolations -/

/-- An expression with its source, trimmed of blanks. -/
structure Span where
  source : String
  expr : Expr

/-- A text with its spans read. -/
structure Interpolation where
  first : String
  rest : List (Span × String)

/-- Reads an expression of a template. -/
def parseExpr (source : String) : Except CompileError Expr :=
  match Expr.parse source with
  | .ok e => .ok e
  | .error e => .error (.invalidExpression source e.offset)

namespace Interpolation

/-- Reads what stands in one span of `text`. -/
def parseSpan (text : String) (body : List Char) : Except CompileError Span := do
  let source := String.ofList (Text.trimChars body)
  if source = "" then throw (.emptyExpression text)
  let expr ← parseExpr source
  return ⟨source, expr⟩

def parse (text : String) : Except CompileError Interpolation := do
  let split ← splitText text
  let rest ← split.rest.mapM fun (body, literal) => do
    let span ← parseSpan text body
    return (span, String.ofList literal)
  return ⟨String.ofList split.first, rest⟩

def spans (i : Interpolation) : List Span := i.rest.map Prod.fst

/-- One more than there are spans. -/
def literals (i : Interpolation) : List String := i.first :: i.rest.map Prod.snd

/-- Without spans. -/
def isStatic (i : Interpolation) : Bool := i.rest.isEmpty

/-- One span and nothing else. -/
def single? (i : Interpolation) : Option Span :=
  match i.first, i.rest with
  | "", [(span, "")] => some span
  | _, _ => none

def sources (i : Interpolation) : List String := i.spans.map Span.source

def vars (i : Interpolation) : NameSet :=
  NameSet.ofNames (i.spans.flatMap fun span => span.expr.names)

/-- The literals with a pair of braces for each span. -/
def skeleton (i : Interpolation) : String := "\x7b\x7d".intercalate i.literals

section

variable {σ : Type}

/-- The texts of the spans' values, each with the literal after it. -/
def evalRest (calls : Calls σ) (env : String → Value) :
    List (Span × String) → Eval σ String
  | [] => return ""
  | (span, literal) :: rest => do
    let v ← span.expr.eval calls env
    let tail ← evalRest calls env rest
    return v.text ++ literal ++ tail

/-- A text that is one span has that span's value; any other has a string. -/
def eval (calls : Calls σ) (env : String → Value) (i : Interpolation) : Eval σ Value :=
  match i.single? with
  | some span => span.expr.eval calls env
  | none => do
    let tail ← evalRest calls env i.rest
    return .string (i.first ++ tail)

end

end Interpolation
end LiveTemplate
