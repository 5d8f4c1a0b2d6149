import LiveTemplate.Number.Reading
import LiveTemplate.Number.Shortest
import LiveTemplate.Table
import LiveTemplate.Text.Blank

/-!
# LiveTemplate.Value

The dynamic values that scopes hold and expressions produce, with their truth, number and text,
the equalities between them and the reads on them.

Lists, maps and functions are shared: a list or map carries the reference under which it was
made, and two of them are identical when they are the same one, not when they look alike.
-/

namespace LiveTemplate

/-- Tells apart two lists, or two maps, made at different times. -/
abbrev Ref := Nat

/-- A function of the host. Expressions can call it and compare it; what it does is the host's
business. -/
structure Function where
  name : String
  deriving DecidableEq, Repr

inductive Value where
  | undefined
  | null
  | bool (b : Bool)
  | number (x : Float)
  | string (s : String)
  | list (ref : Ref) (items : List Value)
  | map (ref : Ref) (entries : List (String × Value))
  | function (f : Function)
  deriving Inhabited

namespace Value

def typeName : Value → String
  | .undefined => "undefined"
  | .null => "null"
  | .bool _ => "boolean"
  | .number _ => "number"
  | .string _ => "string"
  | .list _ _ => "list"
  | .map _ _ => "object"
  | .function _ => "function"

def isNullish : Value → Bool
  | .undefined | .null => true
  | _ => false

def isTruthy : Value → Bool
  | .undefined | .null => false
  | .bool b => b
  | .number x => x != 0 && !x.isNaN
  | .string s => s ≠ ""
  | .list _ _ | .map _ _ | .function _ => true

def asFunction? : Value → Option Function
  | .function f => some f
  | _ => none

def asString? : Value → Option String
  | .string s => some s
  | _ => none

/-! ## Number and text of a value -/

/-- Blank text counts as zero, text that spells no number as NaN. A list of one item has that
item's number. -/
def toNumber : Value → Float
  | .undefined => Number.nan
  | .null => 0
  | .bool b => if b then 1 else 0
  | .number x => x
  | .string s =>
    let cs := Text.trimChars s.toList
    if cs.isEmpty then 0 else (Number.read? cs).getD Number.nan
  | .list _ [] => 0
  | .list _ [only] => only.toNumber
  | .list _ _ => Number.nan
  | .map _ _ | .function _ => Number.nan

mutual

/-- The text of a value. Inside a list, undefined and null are empty. -/
def text : Value → String
  | .undefined => "undefined"
  | .null => "null"
  | .bool b => if b then "true" else "false"
  | .number x => Number.text x
  | .string s => s
  | .list _ items => ",".intercalate (itemTexts items)
  | .map _ _ => "[object Object]"
  | .function _ => "function"

def itemTexts : List Value → List String
  | [] => []
  | item :: rest => (if item.isNullish then "" else item.text) :: itemTexts rest

end

/-! ## Equalities -/

/-- The relation `===`: numbers as numbers (so NaN differs from itself), strings by content, lists,
maps and functions by what they are and not by what they hold. -/
def identical : Value → Value → Bool
  | .undefined, .undefined => true
  | .null, .null => true
  | .bool a, .bool b => a == b
  | .number a, .number b => a == b
  | .string a, .string b => a == b
  | .list a _, .list b _ => a == b
  | .map a _, .map b _ => a == b
  | .function a, .function b => a == b
  | _, _ => false

/-- The relation `==`: undefined and null equal each other and nothing else, and a mix of number,
string and boolean is compared by number. All else is `===`. -/
def looselyEqual (a b : Value) : Bool :=
  if a.isNullish && b.isNullish then true
  else if a.isNullish || b.isNullish then false
  else
    match a, b with
    | .number _, .string _ | .number _, .bool _ | .string _, .number _ | .bool _, .number _
    | .bool _, .string _ | .string _, .bool _ => a.toNumber == b.toNumber
    | _, _ => a.identical b

mutual

/-- Equality of content: like `identical`, but lists and maps are compared by what they hold. -/
def alike : Value → Value → Bool
  | .undefined, .undefined => true
  | .null, .null => true
  | .bool a, .bool b => a == b
  | .number a, .number b => a == b
  | .string a, .string b => a == b
  | .list _ as, .list _ bs => itemsAlike as bs
  | .map _ as, .map _ bs => entriesAlike as bs
  | .function a, .function b => a == b
  | _, _ => false

def itemsAlike : List Value → List Value → Bool
  | [], [] => true
  | a :: as, b :: bs => a.alike b && itemsAlike as bs
  | _, _ => false

def entriesAlike : List (String × Value) → List (String × Value) → Bool
  | [], [] => true
  | (m, a) :: as, (n, b) :: bs => m == n && a.alike b && entriesAlike as bs
  | _, _ => false

end

/-! ## Reads -/

/-- The property of that name, undefined if there is none. -/
def property (v : Value) (name : String) : Value :=
  match v with
  | .map _ entries => (entries.lookup name).getD .undefined
  | .list _ items => if name = "length" then .number (Float.ofNat items.length) else .undefined
  | .string s => if name = "length" then .number (Float.ofNat s.length) else .undefined
  | _ => .undefined

/-- The element at a key. Lists and strings take positions; every other key is read as the name of
a property. -/
def element (v key : Value) : Value :=
  match v, key with
  | .list _ items, .number x =>
    match Number.position? x with
    | some i => items[i]?.getD .undefined
    | none => v.property key.text
  | .string s, .number x =>
    match Number.position? x with
    | some i =>
      match s.toList[i]? with
      | some c => .string (String.singleton c)
      | none => .undefined
    | none => v.property key.text
  | _, _ => v.property key.text

end Value
end LiveTemplate
