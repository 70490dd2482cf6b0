import HashLine.Byte

/-! String and character literals, followed byte by byte. One value tells which kind of quotes is
open, so the two kinds are never open at once. -/

namespace HashLine

inductive Quotes where
  | unquoted
  | double
  | single
deriving DecidableEq, Repr

namespace Quotes

def isOpen : Quotes → Bool
  | unquoted => false
  | double => true
  | single => true

/-- A quote toggles its own kind of region and is plain text inside the other kind. -/
def toggle (q : Quotes) (b : UInt8) : Quotes :=
  match q with
  | unquoted =>
    if b = Byte.doubleQuote then double
    else if b = Byte.singleQuote then single
    else unquoted
  | double => if b = Byte.doubleQuote then unquoted else double
  | single => if b = Byte.singleQuote then unquoted else single

/-- The state once `current` has been read after `prev`. A byte after a backslash never toggles,
whatever stands before that backslash. -/
def update (q : Quotes) (prev current : Option UInt8) : Quotes :=
  if prev = some Byte.backslash then q
  else match current with
    | none => q
    | some b => q.toggle b

/-- The state after each of a list of steps, a step being a byte with the one before it. -/
def states (q : Quotes) : List (Option UInt8 × Option UInt8) → List Quotes
  | [] => []
  | (prev, current) :: rest =>
    let q' := q.update prev current
    q' :: q'.states rest

def steps (prev : Option UInt8) : Bytes → List (Option UInt8 × Option UInt8)
  | [] => []
  | b :: rest => (prev, some b) :: steps (some b) rest

/-- The state after all of `bytes`, `prev` being the byte before the first. -/
def after (q : Quotes) (prev : Option UInt8) : Bytes → Quotes
  | [] => q
  | b :: rest => (q.update prev (some b)).after (some b) rest

end Quotes

end HashLine
