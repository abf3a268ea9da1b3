import JsonWalk.Limits.Record
import JsonWalk.Listener
import JsonWalk.Path.Record

/-!
# Values of a type

A listener may ask for the value of a node as a number of some kind, a text, a list of texts, a path
or limits. A floating point number is never taken for an integer.
-/

namespace JsonWalk

inductive Target where
  | int64
  | word
  | float
  | bool
  | string
  | strings
  | path
  | limits
deriving DecidableEq, Repr

namespace Target

def isString : Value → Bool
  | .string _ => true
  | _ => false

def decode? : Target → Value → Option Value
  | .int64, .number n => n.asInt64?.map fun i => .number (.int i)
  | .word, .number n => n.asWord?.map fun i => .number (.int i)
  | .float, .number n => n.toFloat?.map fun x => .number (.float x)
  | .bool, .bool b => some (.bool b)
  | .string, .string s => some (.string s)
  | .strings, .array items => if items.all isString then some (.array items) else none
  | .path, v => (Path.ofValue? v).map Path.toValue
  | .limits, v => (Limits.ofValue? v).map Limits.toValue
  | _, _ => none

end Target

def Exit.decode (e : Exit) (t : Target) : Except WalkError Value :=
  match t.decode? e.value with
  | some v => .ok v
  | none => .error .undecodable

end JsonWalk
