import HashLine.Byte

/-! Half-open ranges of byte offsets. -/

namespace HashLine

structure Span where
  start : Nat
  stop : Nat
deriving DecidableEq, Repr

structure ReversedBounds where
  start : Nat
  stop : Nat
deriving DecidableEq, Repr

namespace Span

/-- What every range of offsets satisfies: it does not end before it starts. -/
def Ordered (s : Span) : Prop :=
  s.start ≤ s.stop

instance (s : Span) : Decidable s.Ordered :=
  inferInstanceAs (Decidable (s.start ≤ s.stop))

def isEmpty (s : Span) : Bool :=
  s.start == s.stop

def text (s : Span) : String :=
  toString s.start ++ ".." ++ toString s.stop

def ofBounds (start stop : Nat) : Except ReversedBounds Span :=
  if start ≤ stop then .ok ⟨start, stop⟩ else .error ⟨start, stop⟩

/-- The bytes of `input` in the range, if it does not reach past the end. -/
def slice? (s : Span) (input : Bytes) : Option Bytes :=
  if s.start ≤ s.stop ∧ s.stop ≤ input.length then
    some ((input.drop s.start).take (s.stop - s.start))
  else none

/-- The common part of two ranges. Ranges that only touch have an empty one. -/
def intersect? (s t : Span) : Option Span :=
  let start := max s.start t.start
  let stop := min s.stop t.stop
  if start ≤ stop then some ⟨start, stop⟩ else none

end Span

def ReversedBounds.message (r : ReversedBounds) : String :=
  "span must have positive length (got span " ++ Span.text ⟨r.start, r.stop⟩ ++ ")"

end HashLine
