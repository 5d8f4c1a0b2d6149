import LiveTemplate.Error

/-!
# LiveTemplate.Expr.Eval

Evaluation. Names are read from an environment; functions and the references of new lists come
from a host, whose state is passed along.
-/

namespace LiveTemplate

/-- What evaluation needs of its host, in terms of the host's state. -/
structure Calls (σ : Type) where
  call : Function → List Value → σ → Value × σ
  /-- A reference that was not given out before. -/
  fresh : σ → Ref × σ

/-- A computation that can fail with an evaluation error; the state is kept even then. -/
abbrev Eval (σ : Type) := EStateM EvalError σ

namespace Calls

variable {σ : Type}

def callFunction (calls : Calls σ) (f : Function) (args : List Value) : Eval σ Value :=
  fun s => let (v, s) := calls.call f args s; .ok v s

def newList (calls : Calls σ) (items : List Value) : Eval σ Value :=
  fun s => let (ref, s) := calls.fresh s; .ok (.list ref items) s

end Calls

namespace BinaryOp

/-- Values that `+` adds as numbers. -/
def isNumeric : Value → Bool
  | .undefined | .null | .bool _ | .number _ => true
  | _ => false

/-- How two values are ordered: strings by their characters, all else by number. Nothing if one
of the numbers is NaN. -/
def compareValues (a b : Value) : Option Ordering :=
  match a, b with
  | .string s, .string t => some (compareOfLessAndEq s t)
  | _, _ =>
    let x := a.toNumber
    let y := b.toNumber
    if x < y then some .lt else if x == y then some .eq else if y < x then some .gt else none

/-- The operators that need both values. -/
def apply (op : BinaryOp) (a b : Value) : Value :=
  match op with
  | .add =>
    if isNumeric a && isNumeric b then .number (a.toNumber + b.toNumber)
    else .string (a.text ++ b.text)
  | .sub => .number (a.toNumber - b.toNumber)
  | .mul => .number (a.toNumber * b.toNumber)
  | .div => .number (a.toNumber / b.toNumber)
  | .rem => .number (Number.remainder a.toNumber b.toNumber)
  | .strictEq => .bool (a.identical b)
  | .strictNe => .bool (!a.identical b)
  | .eq => .bool (a.looselyEqual b)
  | .ne => .bool (!a.looselyEqual b)
  | .lt => .bool (compareValues a b == some .lt)
  | .le => .bool (compareValues a b == some .lt || compareValues a b == some .eq)
  | .gt => .bool (compareValues a b == some .gt)
  | .ge => .bool (compareValues a b == some .gt || compareValues a b == some .eq)
  | .and | .or => .undefined

end BinaryOp

namespace UnaryOp

def apply (op : UnaryOp) (a : Value) : Value :=
  match op with
  | .not => .bool !a.isTruthy
  | .neg => .number (-a.toNumber)

end UnaryOp

namespace Expr

variable {σ : Type}

mutual

/-- Operands are evaluated from left to right. What is called has to be a function before the
arguments are looked at; an element is read only after its key. -/
def eval (calls : Calls σ) (env : String → Value) : Expr → Eval σ Value
  | .literal l => return l.toValue
  | .ident name => return env name
  | .member e name => do
    let base ← e.eval calls env
    if base.isNullish then throw (.propertyOfNullish name base.typeName)
    return base.property name
  | .element e key => do
    let base ← e.eval calls env
    let key ← key.eval calls env
    if base.isNullish then throw (.propertyOfNullish key.text base.typeName)
    return base.element key
  | .call callee args => do
    let target ← callee.eval calls env
    match target with
    | .function f =>
      let args ← evalAll calls env args
      calls.callFunction f args
    | other => throw (.notCallable callee other.typeName)
  | .list items => do
    let items ← evalAll calls env items
    calls.newList items
  | .unary op e => do
    let a ← e.eval calls env
    return op.apply a
  | .binary .and left right => do
    let a ← left.eval calls env
    if a.isTruthy then right.eval calls env else return a
  | .binary .or left right => do
    let a ← left.eval calls env
    if a.isTruthy then return a else right.eval calls env
  | .binary op left right => do
    let a ← left.eval calls env
    let b ← right.eval calls env
    return op.apply a b
  | .conditional test yes no => do
    let a ← test.eval calls env
    if a.isTruthy then yes.eval calls env else no.eval calls env

def evalAll (calls : Calls σ) (env : String → Value) : List Expr → Eval σ (List Value)
  | [] => return []
  | e :: rest => do
    let v ← e.eval calls env
    let vs ← evalAll calls env rest
    return v :: vs

end

end Expr
end LiveTemplate
