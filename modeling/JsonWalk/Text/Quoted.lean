import JsonWalk.Text.Printable

/-!
# Text quoted for a message

A text is shown between double quotes. Quotes, backslashes and the four common controls get a short
escape, every other character that cannot be shown by itself its code point in hexadecimal.
-/

namespace JsonWalk.Quoted

def charText (c : Char) : String :=
  match c with
  | '"' => "\\\""
  | '\\' => "\\\\"
  | '\x00' => "\\0"
  | '\t' => "\\t"
  | '\n' => "\\n"
  | '\r' => "\\r"
  | c =>
    if Printable.isPrintable c then c.toString
    else "\\u\x7b" ++ String.ofList (Nat.toDigits 16 c.toNat) ++ "\x7d"

def quote (text : List Char) : String :=
  "\"" ++ String.join (text.map charText) ++ "\""

example : quote "it's \"x\"\n".toList = "\"it's \\\"x\\\"\\n\"" := by decide +kernel
example : quote ['\x01', '\u200b'] = "\"\\u\x7b1\x7d\\u\x7b200b\x7d\"" := by decide +kernel

end JsonWalk.Quoted
