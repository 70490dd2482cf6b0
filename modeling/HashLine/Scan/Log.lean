import HashLine.Scan

/-! The log of a scan: one line for its options, one for each event worth a line, and one for the
summary of a scan that was completed. -/

namespace HashLine

/-- A value's name in log lines. -/
class LogName (α : Type) where
  logName : α → String

export LogName (logName)

instance : LogName Nat where
  logName n := toString n

instance : LogName Bool where
  logName b := if b then "true" else "false"

instance : LogName (Option UInt8) where
  logName
    | none => "None"
    | some b => "Some(" ++ toString b.toNat ++ ")"

instance : LogName Quotes where
  logName
    | .unquoted => "Unquoted"
    | .double => "Double"
    | .single => "Single"

instance : LogName ContinuationPolicy where
  logName
    | .lenient => "Lenient"
    | .warn => "Warn"
    | .strict => "Strict"

instance : LogName EndPolicy where
  logName
    | .flush => "Flush"
    | .discard => "Discard"

def logRecord (name : String) (fields : List (String × String)) : String :=
  name ++ " \x7b " ++ ", ".intercalate (fields.map fun (key, value) => key ++ ": " ++ value) ++ " \x7d"

instance : LogName Options where
  logName o := logRecord "ScanOptions"
    [("continuations", logName o.continuations), ("on_eof", logName o.onEnd),
      ("gate_quotes", logName o.gateQuotes)]

instance : LogName Summary where
  logName s := logRecord "ScanSummary"
    [("lines", logName s.lines), ("directives", logName s.directives),
      ("malformed_continuations", logName s.strayBackslashes),
      ("unterminated", logName s.unterminated), ("quotes", logName s.quotes)]

inductive LogLevel where
  | trace
  | debug
  | warn
deriving DecidableEq, Repr

def LogLevel.label : LogLevel → String
  | trace => "TRACE"
  | debug => "DEBUG"
  | warn => "WARN"

def logLine (level : LogLevel) (message : String) (fields : List (String × String)) : String :=
  " ".intercalate (level.label :: message :: fields.map fun (key, value) => key ++ "=" ++ value)

namespace Event

def log (options : Options) : Event → String
  | started line => logLine .trace "directive started" [("line", logName line)]
  | continued line => logLine .trace "directive continued" [("line", logName line)]
  | gated line quotes =>
    logLine .trace "`#` inside quotes ignored" [("line", logName line), ("quotes", logName quotes)]
  | tolerated stray =>
    logLine .trace "malformed continuation kept as text"
      [("line", logName stray.line), ("found", logName stray.found)]
  | delivered (.warning (.stray stray)) =>
    logLine .warn "backslash does not continue the directive"
      [("line", logName stray.line), ("found", logName stray.found)]
  | delivered (.warning (.unterminated line _)) =>
    logLine .warn "input ended inside a directive"
      [("line", logName line), ("on_eof", logName options.onEnd)]
  | delivered (.directive d) =>
    logLine .debug "directive emitted"
      [("line", logName d.line), ("end_line", logName d.endLine), ("len", logName d.text.length),
        ("terminated", logName d.terminated)]

end Event

/-- The log of a run whose receiver adds lines of its own about what it is given. -/
def Run.log (options : Options) (receiver : Delivery → List String) (r : Run) : List String :=
  let opening := logLine .debug "span run" [("options", logName options)]
  let body := r.events.flatMap fun event =>
    event.log options :: (event.delivery?.map receiver).getD []
  let closing := match r.outcome with
    | .error _ => []
    | .ok summary => [logLine .debug "scan complete" [("summary", logName summary)]]
  opening :: body ++ closing

end HashLine
