import LiveTemplate.Expr.Chain
import LiveTemplate.Text.Utf8

/-!
# LiveTemplate.Expr.Parser

Reads expressions. One look at the next token always tells how to go on, so the reader never goes
back; where it cannot go on it is stuck, and that place is the offset of the error.

Reading is bounded by a count of steps. Every four steps take at least one character, so the
bound that `parse` sets is never met.
-/

namespace LiveTemplate

/-- The reader cannot go on; `rest` is the text from there. -/
structure Stuck where
  rest : List Char

/-- No expression: the byte at which reading stopped. -/
structure SyntaxError where
  offset : Nat
  deriving DecidableEq, Repr

namespace Expr

/-! ## Tokens -/

def isSpace (c : Char) : Bool := c = ' ' || c = '\t' || c = '\r' || c = '\n'

def skipSpace (cs : List Char) : List Char := cs.dropWhile isSpace

def isIdentStart (c : Char) : Bool := c.isAlpha || c = '_' || c = '$'

def isIdentChar (c : Char) : Bool := c.isAlphanum || c = '_' || c = '$'

def keywords : List String := ["true", "false", "null", "undefined"]

/-- The literal or name that a word stands for. -/
def ofWord (word : String) : Expr :=
  if word = "true" then .literal (.bool true)
  else if word = "false" then .literal (.bool false)
  else if word = "null" then .literal .null
  else if word = "undefined" then .literal .undefined
  else .ident word

/-- Digits, and a point if digits follow it. -/
def readNumber (cs : List Char) : Float × List Char :=
  let whole := cs.takeWhile Char.isDigit
  match cs.dropWhile Char.isDigit with
  | '.' :: more =>
    let fraction := more.takeWhile Char.isDigit
    if fraction.isEmpty then (Number.ofDecimal (Number.ofDigits whole) 0, '.' :: more)
    else
      (Number.ofDecimal (Number.ofDigits (whole ++ fraction)) (-fraction.length),
        more.dropWhile Char.isDigit)
  | rest => (Number.ofDecimal (Number.ofDigits whole) 0, rest)

/-- The character that a backslash and `c` stand for. -/
def unescape (c : Char) : Char :=
  if c = 'n' then '\n' else if c = 't' then '\t' else if c = 'r' then '\r' else c

/-- The text up to the closing quote and what follows it. -/
def readString? (quote : Char) : List Char → Option (List Char × List Char)
  | [] => none
  | '\\' :: c :: rest => (readString? quote rest).map fun (s, after) => (unescape c :: s, after)
  | c :: rest =>
    if c = quote then some ([], rest)
    else if c = '\\' then none
    else (readString? quote rest).map fun (s, after) => (c :: s, after)

/-- The binary operator in front, the longest if several fit. -/
def readInfix? : List Char → Option (BinaryOp × List Char)
  | '=' :: '=' :: '=' :: cs => some (.strictEq, cs)
  | '!' :: '=' :: '=' :: cs => some (.strictNe, cs)
  | '=' :: '=' :: cs => some (.eq, cs)
  | '!' :: '=' :: cs => some (.ne, cs)
  | '<' :: '=' :: cs => some (.le, cs)
  | '>' :: '=' :: cs => some (.ge, cs)
  | '<' :: cs => some (.lt, cs)
  | '>' :: cs => some (.gt, cs)
  | '|' :: '|' :: cs => some (.or, cs)
  | '&' :: '&' :: cs => some (.and, cs)
  | '+' :: cs => some (.add, cs)
  | '-' :: cs => some (.sub, cs)
  | '*' :: cs => some (.mul, cs)
  | '/' :: cs => some (.div, cs)
  | '%' :: cs => some (.rem, cs)
  | _ => none

/-- The name of a property, which is no keyword. -/
def readName (cs : List Char) : Except Stuck (String × List Char) :=
  let cs := skipSpace cs
  match cs with
  | c :: _ =>
    let word := String.ofList (cs.takeWhile isIdentChar)
    if isIdentStart c && !keywords.contains word then .ok (word, cs.dropWhile isIdentChar)
    else .error ⟨cs⟩
  | [] => .error ⟨cs⟩

/-- Takes the character `mark`, which has to come next. -/
def expect (mark : Char) (cs : List Char) : Except Stuck (List Char) :=
  match skipSpace cs with
  | c :: rest => if c = mark then .ok rest else .error ⟨c :: rest⟩
  | [] => .error ⟨[]⟩

/-! ## Expressions -/

mutual

/-- A chain, or a conditional whose test is one. -/
def readExpr : Nat → List Char → Except Stuck (Expr × List Char)
  | 0, cs => .error ⟨cs⟩
  | n + 1, cs => do
    let (first, cs) ← readOperand n cs
    let (rest, cs) ← readOperations n cs
    let test := Chain.resolve ⟨first, rest⟩
    match skipSpace cs with
    | '?' :: cs =>
      let (yes, cs) ← readExpr n cs
      let cs ← expect ':' cs
      let (no, cs) ← readExpr n cs
      return (.conditional test yes no, cs)
    | cs => return (test, cs)

/-- A primary expression with the operators before it and the accesses after it. -/
def readOperand : Nat → List Char → Except Stuck (Expr × List Char)
  | 0, cs => .error ⟨cs⟩
  | n + 1, cs =>
    match skipSpace cs with
    | '!' :: cs => do
      let (e, cs) ← readOperand n cs
      return (.unary .not e, cs)
    | '-' :: cs => do
      let (e, cs) ← readOperand n cs
      return (.unary .neg e, cs)
    | cs => do
      let (e, cs) ← readPrimary n cs
      readAccesses n e cs

/-- The operators and operands that continue a chain. -/
def readOperations : Nat → List Char → Except Stuck (List (BinaryOp × Expr) × List Char)
  | 0, cs => .error ⟨cs⟩
  | n + 1, cs =>
    match readInfix? (skipSpace cs) with
    | none => return ([], cs)
    | some (op, cs) => do
      let (e, cs) ← readOperand n cs
      let (rest, cs) ← readOperations n cs
      return ((op, e) :: rest, cs)

/-- A literal, a name, a list, or an expression in parentheses. -/
def readPrimary : Nat → List Char → Except Stuck (Expr × List Char)
  | 0, cs => .error ⟨cs⟩
  | n + 1, cs =>
    match cs with
    | [] => .error ⟨[]⟩
    | '(' :: rest => do
      let (e, rest) ← readExpr n rest
      let rest ← expect ')' rest
      return (e, rest)
    | '[' :: rest => do
      let (items, rest) ← readItems n ']' rest
      return (.list items, rest)
    | c :: rest =>
      if c.isDigit then
        let (x, rest) := readNumber (c :: rest)
        return (.literal (.number x), rest)
      else if c = '\'' || c = '"' then
        match readString? c rest with
        | some (s, rest) => return (.literal (.string (String.ofList s)), rest)
        | none => .error ⟨c :: rest⟩
      else if isIdentStart c then
        return (ofWord (String.ofList ((c :: rest).takeWhile isIdentChar)),
          (c :: rest).dropWhile isIdentChar)
      else .error ⟨c :: rest⟩

/-- The properties, elements and calls taken of `e`. -/
def readAccesses : Nat → Expr → List Char → Except Stuck (Expr × List Char)
  | 0, _, cs => .error ⟨cs⟩
  | n + 1, e, cs =>
    match skipSpace cs with
    | '.' :: rest => do
      let (name, rest) ← readName rest
      readAccesses n (.member e name) rest
    | '[' :: rest => do
      let (key, rest) ← readExpr n rest
      let rest ← expect ']' rest
      readAccesses n (.element e key) rest
    | '(' :: rest => do
      let (args, rest) ← readItems n ')' rest
      readAccesses n (.call e args) rest
    | _ => return (e, cs)

/-- Expressions separated by commas up to the mark that closes them. -/
def readItems : Nat → Char → List Char → Except Stuck (List Expr × List Char)
  | 0, _, cs => .error ⟨cs⟩
  | n + 1, close, cs =>
    match skipSpace cs with
    | c :: rest =>
      if c = close then return ([], rest)
      else do
        let (e, rest) ← readExpr n (c :: rest)
        let (more, rest) ← readMoreItems n rest
        let rest ← expect close rest
        return (e :: more, rest)
    | [] => .error ⟨[]⟩

/-- The expressions after the first, each behind a comma. -/
def readMoreItems : Nat → List Char → Except Stuck (List Expr × List Char)
  | 0, cs => .error ⟨cs⟩
  | n + 1, cs =>
    match skipSpace cs with
    | ',' :: rest => do
      let (e, rest) ← readExpr n rest
      let (more, rest) ← readMoreItems n rest
      return (e :: more, rest)
    | _ => return ([], cs)

end

/-! ## Whole texts -/

/-- Steps enough for reading `cs`. -/
def stepBound (cs : List Char) : Nat := 4 * (cs.length + 1)

/-- The byte offset in `cs` at which `rest` starts. -/
def offsetOf (cs rest : List Char) : Nat := Text.byteLength cs - Text.byteLength rest

/-- Takes the outcome of reading a whole text: nothing but blanks may be left. -/
def finish {α : Type} (cs : List Char) : Except Stuck (α × List Char) → Except SyntaxError α
  | .error stuck => .error ⟨offsetOf cs stuck.rest⟩
  | .ok (a, rest) =>
    match skipSpace rest with
    | [] => .ok a
    | rest => .error ⟨offsetOf cs rest⟩

/-- The expression that fills the text. -/
def parse (source : String) : Except SyntaxError Expr :=
  let cs := source.toList
  finish cs (readExpr (stepBound cs) cs)

/-- The expressions, separated by commas, that fill the text. Blank text holds none. -/
def parseArguments (source : String) : Except SyntaxError (List Expr) :=
  let cs := source.toList
  match skipSpace cs with
  | [] => .ok []
  | _ =>
    finish cs do
      let (e, rest) ← readExpr (stepBound cs) cs
      let (more, rest) ← readMoreItems (stepBound cs) rest
      return (e :: more, rest)

end Expr
end LiveTemplate
