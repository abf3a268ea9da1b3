/-!
# Limits of a walk over text

How deep arrays and objects may be nested, the outermost counting as one, and how many bytes the
buffer in front of a reader holds.
-/

namespace JsonWalk

structure Limits where
  maxDepth : Nat := 512
  readBuffer : Nat := 8192
deriving DecidableEq, Repr, Inhabited

end JsonWalk
