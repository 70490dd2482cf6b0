/-! What a scan does where the input leaves it a choice. -/

namespace HashLine

/-- What to do with a backslash in a directive that a blank or the end of the input follows. -/
inductive ContinuationPolicy where
  | lenient
  | warn
  | strict
deriving DecidableEq, Repr

/-- What to do with a directive that the end of the input cuts off. -/
inductive EndPolicy where
  | flush
  | discard
deriving DecidableEq, Repr

structure Options where
  continuations : ContinuationPolicy := .lenient
  onEnd : EndPolicy := .flush
  /-- Does a `#` inside quotes start no directive? -/
  gateQuotes : Bool := false
deriving DecidableEq, Repr

end HashLine
