import NaturalTemplate.Decimal.Shortest

/-!
# Values

The data that templates are filled with, and what expressions evaluate to. The entries of an object
stand in the order of their keys, each key once.
-/
namespace NaturalTemplate

inductive Value where
  | null
  | bool (b : Bool)
  | integer (n : Int64)
  | float (x : Float)
  | string (s : String)
  | array (items : List Value)
  | object (entries : List (String × Value))
deriving Inhabited

/-- What kind of value a value is. -/
inductive ValueType where
  | null
  | boolean
  | integer
  | float
  | string
  | array
  | object
deriving DecidableEq, Inhabited

def ValueType.name : ValueType → String
  | null => "null"
  | boolean => "boolean"
  | integer => "integer"
  | float => "float"
  | string => "string"
  | array => "array"
  | object => "object"

namespace Value

def type : Value → ValueType
  | null => .null
  | bool _ => .boolean
  | integer _ => .integer
  | float _ => .float
  | string _ => .string
  | array _ => .array
  | object _ => .object

def isNull : Value → Bool
  | null => true
  | _ => false

/-- The strings that count as false. -/
def falseWords : List String := ["", "false", "off", "no"]

/-- Whether a value counts as true: all do but null, false, zero, the empty string, array and
object, and the words that say no. -/
def isTruthy : Value → Bool
  | null => false
  | bool b => b
  | integer n => n != 0
  | float x => x != 0.0
  | string s => !falseWords.contains s
  | array items => !items.isEmpty
  | object entries => !entries.isEmpty

/-- What a value is written as in markup. Arrays and objects cannot be written. -/
def text? : Value → Option String
  | null => some ""
  | bool b => some (if b then "true" else "false")
  | integer n => some (toString n.toInt)
  | float x => some (Decimal.toText x)
  | string s => some s
  | array _ | object _ => none

/-- A count. One that is too large for an integer is the largest integer. -/
def ofNat (n : Nat) : Value := integer (Int64.ofNat (min n Int64.maxValue.toInt.toNat))

/-- The floating-point number that a number is. -/
def number? : Value → Option Float
  | integer n => some (Float.ofInt n.toInt)
  | float x => some x
  | _ => none

/-! ## Objects -/

/-- The value under a key in a list of entries. -/
def find? (key : String) (entries : List (String × Value)) : Option Value :=
  entries.lookup key

/-- Puts a value under a key, in the place where the key belongs. -/
def insert (key : String) (value : Value) : List (String × Value) → List (String × Value)
  | [] => [(key, value)]
  | (k, v) :: entries =>
    if key < k then (key, value) :: (k, v) :: entries
    else if key = k then (key, value) :: entries
    else (k, v) :: insert key value entries

/-- The object with some entries, of which the last under a key counts. -/
def ofEntries (entries : List (String × Value)) : Value :=
  object (entries.foldl (fun sorted (key, value) => insert key value sorted) [])

/-- The value under a key, if this is an object that has the key. -/
def get? (v : Value) (key : String) : Option Value :=
  match v with
  | object entries => find? key entries
  | _ => none

/-- What there is to repeat over: the items of an array, the entries of an object as objects with a
key and a value, nothing of null. -/
def items? : Value → Option (List Value)
  | null => some []
  | array items => some items
  | object entries =>
    some (entries.map fun (key, value) => ofEntries [("key", string key), ("value", value)])
  | _ => none

/-! ## Equality -/

mutual

/-- Equality of kind and content. NaN differs from itself. -/
def same : Value → Value → Bool
  | null, null => true
  | bool a, bool b => a == b
  | integer a, integer b => a == b
  | float a, float b => a == b
  | string a, string b => a == b
  | array as, array bs => sameItems as bs
  | object as, object bs => sameEntries as bs
  | _, _ => false

def sameItems : List Value → List Value → Bool
  | [], [] => true
  | a :: as, b :: bs => a.same b && sameItems as bs
  | _, _ => false

def sameEntries : List (String × Value) → List (String × Value) → Bool
  | [], [] => true
  | (k, a) :: as, (l, b) :: bs => k == l && a.same b && sameEntries as bs
  | _, _ => false

end

/-- Equality as templates see it: an integer and a floating-point number are compared as numbers. -/
def looselyEquals : Value → Value → Bool
  | integer a, float b => Float.ofInt a.toInt == b
  | float a, integer b => a == Float.ofInt b.toInt
  | a, b => a.same b

end Value
end NaturalTemplate
