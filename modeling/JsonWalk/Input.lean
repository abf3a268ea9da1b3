/-!
# Bytes from a reader

A reader answers each request with some bytes, an interruption or a failure, and has ended when it
has no answer left. A buffer of limited capacity stands in front of it and is filled again only when
it is empty. Interruptions are not seen; a failure lasts.
-/

namespace JsonWalk

/-- An answer of a reader. It never hands out an empty row of bytes. -/
inductive Delivery where
  | bytes (first : UInt8) (more : List UInt8)
  | interruption
  | failure
deriving DecidableEq, Repr

structure Input where
  buffer : List UInt8
  pending : List Delivery
  /-- How much the buffer holds; zero counts as one. -/
  capacity : Nat
deriving DecidableEq, Repr

namespace Input

def ofBytes (bytes : List UInt8) : Input := ⟨bytes, [], bytes.length⟩

def ofReader (capacity : Nat) (answers : List Delivery) : Input := ⟨[], answers, capacity⟩

/-- The next bytes of a reader, at most `more + 1`, and its answers from then on; no bytes at its
end, and nothing at all if it fails. -/
def request (more : Nat) : List Delivery → Option (List UInt8 × List Delivery)
  | [] => some ([], [])
  | .interruption :: rest => request more rest
  | .failure :: _ => none
  | .bytes b bs :: rest =>
    match bs.drop more with
    | [] => some (b :: bs, rest)
    | c :: cs => some (b :: bs.take more, .bytes c cs :: rest)

/-- The same input with a byte in the buffer, unless it has ended. -/
def fill (i : Input) : Option Input :=
  match i.buffer with
  | _ :: _ => some i
  | [] => (request (i.capacity - 1) i.pending).map fun (buffer, pending) =>
    { i with buffer, pending }

def drop (i : Input) : Input := { i with buffer := i.buffer.tail }

def pendingBytes : List Delivery → List UInt8
  | [] => []
  | .bytes b bs :: rest => b :: bs ++ pendingBytes rest
  | .interruption :: rest => pendingBytes rest
  | .failure :: _ => []

/-- The bytes that are still to come. -/
def content (i : Input) : List UInt8 := i.buffer ++ pendingBytes i.pending

theorem request_content {more : Nat} {answers rest : List Delivery} {bytes : List UInt8}
    (h : request more answers = some (bytes, rest)) :
    bytes ++ pendingBytes rest = pendingBytes answers := by
  fun_induction request more answers with
  | case1 => cases h; rfl
  | case2 answers ih => exact ih h
  | case3 => cases h
  | case4 => cases h; simp [pendingBytes]
  | case5 b bs answers c cs hd =>
    cases h
    simp [pendingBytes, ← hd, ← List.append_assoc, List.take_append_drop]

theorem fill_content {i j : Input} (h : i.fill = some j) : j.content = i.content := by
  unfold fill at h
  split at h
  · cases h; rfl
  · next hb =>
    obtain ⟨⟨bytes, rest⟩, hr, rfl⟩ := Option.map_eq_some_iff.1 h
    simp [content, hb, request_content hr]

end Input
end JsonWalk
