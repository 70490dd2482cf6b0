import HashLine.Source
import HashLine.Span

/-! What can be wrong with an input: remarks that let a scan go on, and the failures that stop it. -/

namespace HashLine

/-- A backslash that splices nothing: a blank or the end of the input follows it. -/
structure StrayBackslash where
  line : Nat
  span : Span
  /-- What follows, `none` at the end of the input. -/
  found : Option UInt8
deriving DecidableEq, Repr

inductive Warning where
  | stray (backslash : StrayBackslash)
  /-- A directive, given by the line of its `#`, that runs into the end of the input. -/
  | unterminated (line : Nat) (span : Span)
deriving DecidableEq, Repr

inductive Failure where
  | unreadable (error : SystemError)
  | stray (backslash : StrayBackslash)
deriving DecidableEq, Repr

def atLine (line : Nat) (text : String) : String :=
  "line " ++ toString line ++ ": " ++ text

namespace StrayBackslash

def complaint (found : String) : String :=
  "backslash followed by " ++ found ++ " does not continue the directive"

def message (s : StrayBackslash) : String :=
  atLine s.line (complaint (Byte.describe s.found))

end StrayBackslash

namespace Warning

def unterminatedComplaint : String :=
  "directive is not terminated by a linefeed before the end of input"

def line : Warning → Nat
  | stray s => s.line
  | unterminated line _ => line

def span : Warning → Span
  | stray s => s.span
  | unterminated _ span => span

def message : Warning → String
  | stray s => s.message
  | unterminated line _ => atLine line unterminatedComplaint

end Warning

def Failure.message : Failure → String
  | unreadable e => "failed to read input: " ++ e.message
  | stray s => s.message

end HashLine
