import LiveTemplate.Text.Quoted
import LiveTemplate.Value

/-!
# LiveTemplate.Expr.Basic

Expressions, the names they read, and their printed form. Printing puts every binary and
conditional expression in parentheses, so it needs no precedences.
-/

namespace LiveTemplate

inductive Literal where
  | undefined
  | null
  | bool (b : Bool)
  | number (x : Float)
  | string (s : String)

inductive UnaryOp where
  | not
  | neg
  deriving DecidableEq, Repr

inductive BinaryOp where
  | or
  | and
  | strictEq
  | strictNe
  | eq
  | ne
  | lt
  | le
  | gt
  | ge
  | add
  | sub
  | mul
  | div
  | rem
  deriving DecidableEq, Repr

inductive Expr where
  | literal (l : Literal)
  | ident (name : String)
  | member (e : Expr) (name : String)
  | element (e key : Expr)
  | call (callee : Expr) (args : List Expr)
  | list (items : List Expr)
  | unary (op : UnaryOp) (e : Expr)
  | binary (op : BinaryOp) (left right : Expr)
  | conditional (test yes no : Expr)

namespace Literal

def toValue : Literal → Value
  | .undefined => .undefined
  | .null => .null
  | .bool b => .bool b
  | .number x => .number x
  | .string s => .string s

/-- Strings are quoted; the rest is the text of the value. -/
def chars : Literal → List Char
  | .string s => (Text.quote s).toList
  | l => l.toValue.text.toList

end Literal

namespace UnaryOp

def symbol : UnaryOp → Char
  | .not => '!'
  | .neg => '-'

end UnaryOp

namespace BinaryOp

def symbol : BinaryOp → List Char
  | .or => ['|', '|']
  | .and => ['&', '&']
  | .strictEq => ['=', '=', '=']
  | .strictNe => ['!', '=', '=']
  | .eq => ['=', '=']
  | .ne => ['!', '=']
  | .lt => ['<']
  | .le => ['<', '=']
  | .gt => ['>']
  | .ge => ['>', '=']
  | .add => ['+']
  | .sub => ['-']
  | .mul => ['*']
  | .div => ['/']
  | .rem => ['%']

end BinaryOp

namespace Expr

/-! ## Names -/

mutual

/-- Every name read, where it is read. The name after a point is a property and not among them. -/
def names : Expr → List String
  | .literal _ => []
  | .ident name => [name]
  | .member e _ => e.names
  | .element e key => e.names ++ key.names
  | .call callee args => callee.names ++ namesOfAll args
  | .list items => namesOfAll items
  | .unary _ e => e.names
  | .binary _ left right => left.names ++ right.names
  | .conditional test yes no => test.names ++ yes.names ++ no.names

def namesOfAll : List Expr → List String
  | [] => []
  | e :: rest => e.names ++ namesOfAll rest

end

/-- The set of names that an expression reads. -/
def vars (e : Expr) : NameSet := NameSet.ofNames e.names

/-! ## Printed form -/

mutual

def chars : Expr → List Char
  | .literal l => l.chars
  | .ident name => name.toList
  | .member e name => e.chars ++ '.' :: name.toList
  | .element e key => e.chars ++ '[' :: key.chars ++ [']']
  | .call callee args => callee.chars ++ '(' :: charsOfAll args ++ [')']
  | .list items => '[' :: charsOfAll items ++ [']']
  | .unary op e => op.symbol :: e.chars
  | .binary op left right =>
    '(' :: left.chars ++ ' ' :: op.symbol ++ ' ' :: right.chars ++ [')']
  | .conditional test yes no =>
    '(' :: test.chars ++ [' ', '?', ' '] ++ yes.chars ++ [' ', ':', ' '] ++ no.chars ++ [')']

/-- Separated by a comma and a space. -/
def charsOfAll : List Expr → List Char
  | [] => []
  | [e] => e.chars
  | e :: rest => e.chars ++ ',' :: ' ' :: charsOfAll rest

end

def text (e : Expr) : String := String.ofList e.chars

end Expr
end LiveTemplate
