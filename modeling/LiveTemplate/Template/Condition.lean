import LiveTemplate.Interpolation

/-!
# LiveTemplate.Template.Condition

Conditions under which an element is shown. A blank condition always holds. A name holds when its
value loosely equals true. An arrow function holds when its result is exactly true; its body sees
the parameters only. Any other expression holds when it is exactly true.
-/

namespace LiveTemplate

inductive Condition where
  | always
  | ident (name : String)
  | predicate (params : List String) (body : Expr)
  | expression (e : Expr)

/-- Letters, digits, underscores and dollar signs, no digit in front. -/
def isIdentifier (cs : List Char) : Bool :=
  match cs with
  | c :: rest => Expr.isIdentStart c && rest.all Expr.isIdentChar
  | [] => false

/-- An identifier that an expression reads as a name. -/
def isVariableName (s : String) : Bool := isIdentifier s.toList && !Expr.keywords.contains s

namespace Condition

/-- The parameters and the body of an arrow function. -/
def splitArrow? (cs : List Char) : Option (List Char × List Char) :=
  match cs with
  | '(' :: rest => do
    let (params, after) ← Text.breakOn? [')'] rest
    let body ← Text.dropPrefix? ['=', '>'] (after.dropWhile Text.isBlank)
    return (params, body)
  | _ => none

/-- The pieces between the commas. -/
def splitCommas : List Char → List (List Char)
  | [] => [[]]
  | c :: rest =>
    if c = ',' then [] :: splitCommas rest
    else
      match splitCommas rest with
      | piece :: more => (c :: piece) :: more
      | [] => [[c]]

/-- Drops blanks at the end. -/
def trimEnd (p : Char → Bool) (cs : List Char) : List Char := (cs.reverse.dropWhile p).reverse

/-- What a block returns: the text between its braces, without the word `return` in front and the
semicolons at the end. -/
def blockResult (block : List Char) : List Char :=
  let inner := (Text.dropSuffix? ['\x7d'] (trimEnd Text.isBlank block)).getD block
  let inner := Text.trimChars inner
  let result := (Text.dropPrefix? "return".toList inner).getD inner
  Text.trimChars (trimEnd (· = ';') (Text.trimChars result))

/-- The body of an arrow function as an expression. An empty body counts as true, a block that
returns nothing as undefined. -/
def parseBody (body : List Char) : Except DirectiveFault Expr :=
  let parseFrom (cs : List Char) : Except DirectiveFault Expr :=
    let source := String.ofList cs
    match Expr.parse source with
    | .ok e => .ok e
    | .error e => .error (.invalidExpression source e.offset)
  match Text.trimChars body with
  | [] => .ok (.literal (.bool true))
  | '\x7b' :: block =>
    match blockResult block with
    | [] => .ok (.literal .undefined)
    | result => parseFrom result
  | result => parseFrom result

/-- The parameters of an arrow function. Empty places do not count. -/
def parseParams (params : List Char) : Except DirectiveFault (List String) :=
  let names := ((splitCommas params).map Text.trimChars).filter (!·.isEmpty)
  names.mapM fun name =>
    let name := String.ofList name
    if isVariableName name then .ok name else .error (.invalidParameter name)

def parseTrimmed (source : String) : Except DirectiveFault Condition :=
  if source = "" then .ok .always
  else if isVariableName source then .ok (.ident source)
  else
    match splitArrow? source.toList with
    | some (params, body) => do
      let params ← parseParams params
      let body ← parseBody body
      return .predicate params body
    | none =>
      match Expr.parse source with
      | .ok e => .ok (.expression e)
      | .error e => .error (.invalidExpression source e.offset)

/-- The name of the directive that shows an element on a condition. -/
def directiveName : String := "if"

def parse (source : String) : Except CompileError Condition :=
  let source := Text.trim source
  match parseTrimmed source with
  | .ok condition => .ok condition
  | .error fault => .error (.invalidDirective directiveName source fault)

def isTrue : Value → Bool
  | .bool true => true
  | _ => false

/-- What the body of an arrow function sees of a scope. -/
def paramEnv (params : List String) (scope : Scope) (name : String) : Value :=
  if params.contains name then scope.read name else .undefined

def holds {σ : Type} (calls : Calls σ) (scope : Scope) : Condition → Eval σ Bool
  | .always => return true
  | .ident name => return (scope.read name).looselyEqual (.bool true)
  | .predicate params body => do
    let v ← body.eval calls (paramEnv params scope)
    return isTrue v
  | .expression e => do
    let v ← e.eval calls scope.read
    return isTrue v

end Condition
end LiveTemplate
