import JsonWalk.Input

/-!
# Readers with a schedule

A reader that hands out a row of bytes in pieces, is interrupted before every piece if so wanted,
and fails for good on reaching a position.
-/

namespace JsonWalk

structure Schedule where
  /-- The most bytes handed out at a time; zero counts as one. -/
  piece : Option Nat
  interrupted : Bool
  /-- The position where every request fails. One beyond the end is never reached. -/
  failAt : Option Nat
deriving Inhabited

namespace Schedule

def pieces (more : Nat) : List UInt8 → List Delivery
  | [] => []
  | b :: bs => .bytes b (bs.take more) :: pieces more (bs.drop more)
termination_by bytes => bytes.length
decreasing_by
  simp only [List.length_drop, List.length_cons]
  omega

def answers (s : Schedule) (bytes : List UInt8) : List Delivery :=
  let cut := match s.failAt with
    | some k => if k ≤ bytes.length then some k else none
    | none => none
  let sent := match cut with
    | some k => bytes.take k
    | none => bytes
  let row := pieces ((s.piece.getD sent.length) - 1) sent
  let row := if s.interrupted then row.flatMap fun d => [.interruption, d] else row
  row ++ if cut.isSome then [.failure] else []

end Schedule
end JsonWalk
