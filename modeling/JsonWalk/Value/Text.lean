import JsonWalk.Value

/-!
# The compact text of a value

No blanks, members in their order. In strings only quotes, backslashes and control characters are
escaped.
-/

namespace JsonWalk.Value

def stringCharText (c : Char) : List Char :=
  match c with
  | '"' => ['\\', '"']
  | '\\' => ['\\', '\\']
  | '\x08' => ['\\', 'b']
  | '\x0c' => ['\\', 'f']
  | '\n' => ['\\', 'n']
  | '\r' => ['\\', 'r']
  | '\t' => ['\\', 't']
  | c =>
    if c.toNat < 0x20 then
      ['\\', 'u', '0', '0', Nat.digitChar (c.toNat / 16), Nat.digitChar (c.toNat % 16)]
    else [c]

def stringText (s : String) : List Char :=
  '"' :: (s.toList.flatMap stringCharText ++ ['"'])

mutual

def chars : Value → List Char
  | .null => ['n', 'u', 'l', 'l']
  | .bool true => ['t', 'r', 'u', 'e']
  | .bool false => ['f', 'a', 'l', 's', 'e']
  | .number n => n.chars
  | .string s => stringText s
  | .array [] => ['[', ']']
  | .array (v :: rest) => '[' :: (chars v ++ laterItems rest)
  | .object [] => ['{', '}']
  | .object ((name, v) :: rest) => '{' :: (stringText name ++ ':' :: (chars v ++ laterMembers rest))

/-- The elements after the first one and the bracket that ends the array. -/
def laterItems : List Value → List Char
  | [] => [']']
  | v :: rest => ',' :: (chars v ++ laterItems rest)

/-- The members after the first one and the brace that ends the object. -/
def laterMembers : List (String × Value) → List Char
  | [] => ['}']
  | (name, v) :: rest => ',' :: (stringText name ++ ':' :: (chars v ++ laterMembers rest))

end

def text (v : Value) : String := String.ofList v.chars

end JsonWalk.Value
