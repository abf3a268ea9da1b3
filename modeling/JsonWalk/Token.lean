import JsonWalk.Value

/-!
# Tokens

A document in pieces: brackets, member names and scalars, without the punctuation between them. A
source of tokens says that the input has ended as often as it is asked.
-/

namespace JsonWalk

inductive Token where
  | beginObject
  | endObject
  | beginArray
  | endArray
  | name (s : String)
  | string (s : String)
  | number (n : Number)
  | bool (b : Bool)
  | null
  | endOfInput
deriving DecidableEq, Repr

inductive TokenKind where
  | beginObject
  | endObject
  | beginArray
  | endArray
  | name
  | string
  | number
  | bool
  | null
  | endOfInput
deriving DecidableEq, Repr

namespace TokenKind

def text : TokenKind → String
  | .beginObject => "begin of object"
  | .endObject => "end of object"
  | .beginArray => "begin of array"
  | .endArray => "end of array"
  | .name => "member name"
  | .string => "string"
  | .number => "number"
  | .bool => "boolean"
  | .null => "null"
  | .endOfInput => "end of input"

end TokenKind

namespace Token

def kind : Token → TokenKind
  | .beginObject => .beginObject
  | .endObject => .endObject
  | .beginArray => .beginArray
  | .endArray => .endArray
  | .name _ => .name
  | .string _ => .string
  | .number _ => .number
  | .bool _ => .bool
  | .null => .null
  | .endOfInput => .endOfInput

end Token

namespace Value

mutual

def tokens : Value → List Token
  | .null => [.null]
  | .bool b => [.bool b]
  | .number n => [.number n]
  | .string s => [.string s]
  | .array items => .beginArray :: (itemTokens items ++ [.endArray])
  | .object members => .beginObject :: (memberTokens members ++ [.endObject])

def itemTokens : List Value → List Token
  | [] => []
  | v :: rest => tokens v ++ itemTokens rest

def memberTokens : List (String × Value) → List Token
  | [] => []
  | (name, v) :: rest => .name name :: (tokens v ++ memberTokens rest)

end

end Value
end JsonWalk
