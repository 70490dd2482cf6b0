import HashLine.Diagnostic.Window
import HashLine.Warning

/-! Messages about a place in an input, ready for a terminal. -/

namespace HashLine

inductive Severity where
  | error
  | warning
  | note
deriving DecidableEq, Repr

def Severity.label : Severity → String
  | error => "error"
  | warning => "warning"
  | note => "note"

def Severity.style : Severity → Style
  | error => .boldRed
  | warning => .boldYellow
  | note => .boldCyan

inductive Remark where
  | strayBackslash (found : String)
  | unterminatedDirective
  | directive (name : String)
  | obsoleteIdentifier (name : String)
deriving DecidableEq, Repr

def Remark.text : Remark → String
  | strayBackslash found => StrayBackslash.complaint found
  | unterminatedDirective => Warning.unterminatedComplaint
  | directive name => "`#" ++ name ++ "` directive"
  | obsoleteIdentifier name => "directive mentions obsolete identifier `" ++ name ++ "`"

structure Diagnostic where
  severity : Severity
  remark : Remark
  span : Span
deriving DecidableEq, Repr

namespace Diagnostic

def text (d : Diagnostic) : String :=
  d.severity.label ++ ": " ++ d.remark.text

def header (d : Diagnostic) : String :=
  d.severity.style.paint d.severity.label ++ ": " ++ Style.bold.paint d.remark.text

def location (file : String) : String :=
  " " ++ Style.boldBlue.paint "-->" ++ " " ++ file

/-- With a line that is already known, where the source is not at hand. -/
def printAt (d : Diagnostic) (file : String) (line : Nat) : String :=
  d.severity.style.paint d.severity.label ++ ": " ++ Style.bold.paint d.remark.text ++ "\n " ++
    Style.boldBlue.paint "-->" ++ " " ++ file ++ ":" ++ toString line

/-- With the line that the source has at the span, and below it the lines that the span touches, if it
touches any. -/
def printIn (d : Diagnostic) (file source : String) : String :=
  let window := Window.render d.severity.style d.span source
  let place := location file ++ ":" ++ toString (lineNumber source.toList d.span.start)
  if window.isEmpty then d.header ++ "\n" ++ place else d.header ++ "\n" ++ place ++ "\n" ++ window

def printBare (d : Diagnostic) (file : String) : String :=
  d.header ++ "\n" ++ location file

def print (d : Diagnostic) (file : String) (source : Option String) : String :=
  match source with
  | none => d.printBare file
  | some source => d.printIn file source

end Diagnostic

def StrayBackslash.remark (s : StrayBackslash) : Remark :=
  .strayBackslash (Byte.describe s.found)

def Warning.diagnostic : Warning → Diagnostic
  | stray s => ⟨.warning, s.remark, s.span⟩
  | unterminated _ span => ⟨.warning, .unterminatedDirective, span⟩

/-- A source that cannot be read gives no place to point to. -/
def Failure.diagnostic? : Failure → Option Diagnostic
  | unreadable _ => none
  | stray s => some ⟨.error, s.remark, s.span⟩

end HashLine
