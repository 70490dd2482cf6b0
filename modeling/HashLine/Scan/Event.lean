import HashLine.Directive
import HashLine.Quotes
import HashLine.Warning

/-! What a scan does, in order. Everything that is told about a scan, to its caller or to a log, is
read off this one list and its outcome. -/

namespace HashLine

inductive Delivery where
  | directive (d : Directive)
  | warning (w : Warning)
deriving DecidableEq, Repr

inductive Event where
  | started (line : Nat)
  /-- A backslash and the linefeed on this line were joined. -/
  | continued (line : Nat)
  /-- A `#` that begins its line was passed over because it stands in quotes. -/
  | gated (line : Nat) (quotes : Quotes)
  /-- A stray backslash was kept as text without a word to the caller. -/
  | tolerated (backslash : StrayBackslash)
  | delivered (delivery : Delivery)
deriving DecidableEq, Repr

/-- What a scan that reached the end of its input has seen. -/
structure Summary where
  lines : Nat
  directives : Nat
  strayBackslashes : Nat
  unterminated : Bool
  quotes : Quotes
deriving DecidableEq, Repr

structure Run where
  events : List Event
  outcome : Except Failure Summary

def Event.delivery? : Event → Option Delivery
  | delivered d => some d
  | _ => none

def Delivery.directive? : Delivery → Option Directive
  | directive d => some d
  | warning _ => none

def Delivery.warning? : Delivery → Option Warning
  | directive _ => none
  | warning w => some w

namespace Run

def deliveries (r : Run) : List Delivery :=
  r.events.filterMap Event.delivery?

def directives (r : Run) : List Directive :=
  r.deliveries.filterMap Delivery.directive?

def warnings (r : Run) : List Warning :=
  r.deliveries.filterMap Delivery.warning?

end Run

end HashLine
