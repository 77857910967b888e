import RichDoc.Json.Number

/-! JSON values. The members of an object are kept as a list; a reader that adds them with `insert`
has them sorted by their keys, each key once. -/

namespace RichDoc.Json

inductive Value where
  | null
  | bool (b : Bool)
  | number (n : Number)
  | string (s : String)
  | array (items : List Value)
  | object (members : List (String × Value))
  deriving Inhabited

inductive Shape where
  | null
  | boolean
  | number
  | string
  | array
  | object
  deriving DecidableEq

def Shape.words : Shape → String
  | null => "null"
  | boolean => "a boolean"
  | number => "a number"
  | string => "a string"
  | array => "an array"
  | object => "an object"

namespace Value

def shape : Value → Shape
  | null => .null
  | bool _ => .boolean
  | number _ => .number
  | string _ => .string
  | array _ => .array
  | object _ => .object

def items? : Value → Option (List Value)
  | array items => some items
  | _ => none

def members? : Value → Option (List (String × Value))
  | object members => some members
  | _ => none

def string? : Value → Option String
  | string s => some s
  | _ => none

def number? : Value → Option Number
  | number n => some n
  | _ => none

end Value

/-- The members of an object, in the order in which they are written. -/
abbrev Members := List (String × Value)

namespace Members

def get? (ms : Members) (key : String) : Option Value := ms.lookup key

/-- The members, sorted by their keys, with a value under a key in place of any other that was
there. -/
def insert (key : String) (v : Value) : Members → Members
  | [] => [(key, v)]
  | (k, w) :: rest =>
    if key = k then (key, v) :: rest
    else if key < k then (key, v) :: (k, w) :: rest
    else (k, w) :: insert key v rest

end Members

/-- The value under a key; only objects have any. -/
def Value.get? (v : Value) (key : String) : Option Value := v.members?.bind (Members.get? · key)

end RichDoc.Json
