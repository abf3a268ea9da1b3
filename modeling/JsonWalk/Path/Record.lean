import JsonWalk.Path
import JsonWalk.Value

/-!
# Paths as JSON values

A path is an array with an object of one member for each step.
-/

namespace JsonWalk

namespace Segment

def toValue : Segment → Value
  | .member name => .object [("Property", .string name)]
  | .index position => .object [("Index", .number (.int position))]

def ofValue? : Value → Option Segment
  | .object [("Property", .string name)] => some (.member name)
  | .object [("Index", .number n)] => n.asWord?.map .index
  | _ => none

end Segment

namespace Path

def toValue (p : Path) : Value := .array (p.map Segment.toValue)

def ofValue? : Value → Option Path
  | .array items => items.mapM Segment.ofValue?
  | _ => none

end Path
end JsonWalk
