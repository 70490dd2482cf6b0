import HashLine.Byte

/-! A source of bytes, given by what each read of it brings. Bytes come in pieces; a read may also be
interrupted, fail, or find the end. When the list is used up every further read finds the end. -/

namespace HashLine

/-- An operation that the system could not do, in the system's own words. -/
structure SystemError where
  message : String
deriving DecidableEq, Repr

inductive Read where
  /-- At least one byte. -/
  | data (head : UInt8) (tail : Bytes)
  | ended
  /-- To be tried again; no reader of the source notices. -/
  | interrupted
  | failed (error : SystemError)
deriving DecidableEq, Repr

abbrev Source := List Read

namespace Source

def ofBytes : Bytes → Source
  | [] => []
  | b :: rest => [.data b rest]

/-- Bytes at hand come in one piece, and nothing can fail. -/
instance : Coe Bytes Source where
  coe := ofBytes

/-- The next byte, or `none` at an end of the stream. -/
def pull : Source → Except SystemError (Option UInt8) × Source
  | [] => (.ok none, [])
  | .data b [] :: rest => (.ok (some b), rest)
  | .data b (b' :: tail) :: rest => (.ok (some b), .data b' tail :: rest)
  | .ended :: rest => (.ok none, rest)
  | .interrupted :: rest => pull rest
  | .failed e :: rest => (.error e, rest)

/-- All bytes up to the first end of the stream, unless a read fails before it. -/
def contents : Source → Except SystemError Bytes
  | [] => .ok []
  | .data b tail :: rest => (b :: tail ++ ·) <$> contents rest
  | .ended :: _ => .ok []
  | .interrupted :: rest => contents rest
  | .failed e :: _ => .error e

/-- The number of bytes that reads can still bring. -/
def size : Source → Nat
  | [] => 0
  | .data _ tail :: rest => tail.length + 1 + size rest
  | _ :: rest => size rest

theorem size_pull (s : Source) : s.pull.2.size ≤ s.size := by
  fun_induction pull s with
  | case1 => exact Nat.le_refl _
  | case2 b rest => exact Nat.le_add_left (size rest) 1
  | case3 b b' tail rest => simp [size]
  | case4 rest => exact Nat.le_refl (size rest)
  | case5 rest ih => exact ih
  | case6 e rest => exact Nat.le_refl (size rest)

theorem size_lt_of_pull {s rest : Source} {b : UInt8} (h : s.pull = (.ok (some b), rest)) :
    rest.size < s.size := by
  fun_induction pull s with
  | case1 => simp at h
  | case2 => simp_all [size]
  | case3 =>
    obtain ⟨-, rfl⟩ := Prod.mk.inj h
    simp [size]
  | case4 => simp at h
  | case5 _ ih => simpa [size] using ih h
  | case6 => simp at h

end Source

end HashLine
