import JsonWalk.WalkError

/-!
# Where tokens come from

A source hands out tokens one by one and may fail. It is spent at every token before the end of the
input, so a walk over it ends.
-/

namespace JsonWalk

class TokenSource (τ : Type) where
  next : EStateM WalkError τ Token
  remaining : τ → Nat
  remaining_lt {s s' : τ} {t : Token} :
    next s = .ok t s' → t ≠ .endOfInput → remaining s' < remaining s

def nextListed : EStateM WalkError (List Token) Token
  | [] => .ok .endOfInput []
  | t :: rest => .ok t rest

instance : TokenSource (List Token) where
  next := nextListed
  remaining := List.length
  remaining_lt {s _ _} h ht := by
    cases s with
    | nil => cases h; exact absurd rfl ht
    | cons t rest => cases h; exact Nat.lt_succ_self _

/-- Feeds the tokens of `x` one after another. This ends with the input, or where a token is refused
or the source fails; the source is then behind the last token taken. -/
def TokenSource.run {τ κ α : Type} [TokenSource τ] (feed : Token → EStateM WalkError κ Unit)
    (finish : κ → Except WalkError α) (k : κ) (x : τ) : Except WalkError α × κ × τ :=
  match _h : next x with
  | .error e y => (.error e, k, y)
  | .ok t y =>
    if _ht : t = .endOfInput then (finish k, k, y)
    else
      match feed t k with
      | .error e k => (.error e, k, y)
      | .ok _ k => run feed finish k y
termination_by remaining x
decreasing_by exact remaining_lt ‹_› ‹_›

end JsonWalk
