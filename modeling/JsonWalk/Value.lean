import JsonWalk.Number

/-!
# JSON values

Members of an object keep their order. The texts that are read and the walks over documents give
every object distinct names; a value by itself may repeat them.
-/

namespace JsonWalk

inductive Value where
  | null
  | bool (b : Bool)
  | number (n : Number)
  | string (s : String)
  | array (items : List Value)
  | object (members : List (String × Value))
deriving Repr, Inhabited

/-- What a walk can meet: the six kinds of values, and the members of objects. -/
inductive NodeKind where
  | string
  | number
  | boolean
  | null
  | array
  | object
  | member
deriving DecidableEq, Repr

namespace NodeKind

def text : NodeKind → String
  | .string => "string"
  | .number => "number"
  | .boolean => "boolean"
  | .null => "null"
  | .array => "array"
  | .object => "object"
  | .member => "property"

def isContainer : NodeKind → Bool
  | .array | .object => true
  | _ => false

end NodeKind

namespace Value

def kind : Value → NodeKind
  | .null => .null
  | .bool _ => .boolean
  | .number _ => .number
  | .string _ => .string
  | .array _ => .array
  | .object _ => .object

/-- Puts a value in the place of an array's element, and tells the element. There is none outside
arrays and beyond their end. -/
def replaceItem? (position : Nat) (new : Value) : Value → Option (Value × Value)
  | .array items => items[position]?.map fun old => (old, .array (items.set position new))
  | _ => none

end Value
end JsonWalk
