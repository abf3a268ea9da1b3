import JsonWalk.Query
import JsonWalk.Value.Text

/-!
# The command line

The values of the document on the standard input whose paths a pattern accepts, one to a line, on
request behind their paths. The exit code is zero if there is one, one if there is none, and two if
the arguments, the pattern or the document are at fault.
-/

namespace JsonWalk.CommandLine

structure Options where
  pattern : Option String := none
  limit : Option Nat := none
  limits : Limits := {}
  showPaths : Bool := false

structure Outcome where
  code : Nat
  output : String
  errors : String
deriving DecidableEq, Repr

def usage : String :=
  "usage: json-visit <pattern> [--first | --limit N] [--max-depth N] [--paths]"

/-- A count, which may have a plus sign. -/
def count? (arg : String) : Option Nat :=
  match arg.toList with
  | '+' :: ds => Decimal.word? ds
  | ds => Decimal.word? ds

def readOptions (o : Options) : List String → Except String Options
  | [] => .ok o
  | "--first" :: rest => readOptions { o with limit := some 1 } rest
  | "--limit" :: rest =>
    match rest with
    | arg :: rest =>
      match count? arg with
      | some n => readOptions { o with limit := some n } rest
      | none => .error "--limit expects a non-negative integer"
    | [] => .error "--limit expects a non-negative integer"
  | "--max-depth" :: rest =>
    match rest with
    | arg :: rest =>
      match count? arg with
      | some n => readOptions { o with limits := { o.limits with maxDepth := n } } rest
      | none => .error "--max-depth expects a non-negative integer"
    | [] => .error "--max-depth expects a non-negative integer"
  | "--paths" :: rest => readOptions { o with showPaths := true } rest
  | arg :: rest =>
    match o.pattern with
    | none => readOptions { o with pattern := some arg } rest
    | some _ => .error ("unexpected argument '" ++ arg ++ "'")

def line (showPaths : Bool) (h : Hit) : List Char :=
  (if showPaths then h.path.chars ++ ['\t'] else []) ++ h.value.chars ++ ['\n']

/-- The hits of a query over the standard input, or the message of what is at fault. -/
def search (args : List String) (input : List UInt8) : Except String (Options × List Hit) := do
  let o ← readOptions {} args
  let some text := o.pattern | .error usage
  let pattern ← (Pattern.compile text).mapError fun e =>
    "bad pattern '" ++ text ++ "': " ++ e.message
  let query : Query := { pattern, limits := o.limits }
  let hits ← (query.findBytes input o.limit Predicate.always ()).1.mapError fun e =>
    e.message?.getD ""
  return (o, hits)

def run (args : List String) (input : List UInt8) : Outcome :=
  match search args input with
  | .error message => ⟨2, "", "json-visit: " ++ message ++ "\n"⟩
  | .ok (o, hits) =>
    ⟨if hits.isEmpty then 1 else 0, String.ofList (hits.flatMap (line o.showPaths)), ""⟩

end JsonWalk.CommandLine
