import HashLine.Filter
import HashLine.Scan.Log

/-! What a filter lets through of a scan. -/

namespace HashLine

structure Finding where
  directive : Directive
  matched : List String
deriving DecidableEq, Repr

structure Report where
  findings : List Finding
  warnings : List Warning
  summary : Summary
deriving DecidableEq, Repr

namespace Filter

def finding? (f : Filter) (d : Directive) : Option Finding :=
  (f.matches? d).map fun matched => ⟨d, matched⟩

/-- A directive that is left out gets a line in the log. -/
def log (f : Filter) : Delivery → List String
  | .warning _ => []
  | .directive d =>
    if (f.matches? d).isSome then []
    else [logLine .debug "directive filtered out" [("line", logName d.line)]]

end Filter

namespace Report

def ofRun (filter : Filter) (r : Run) : Except Failure Report :=
  r.outcome.map fun summary => ⟨r.directives.filterMap filter.finding?, r.warnings, summary⟩

def ofSource (options : Options) (filter : Filter) (source : Source) : Except Failure Report :=
  ofRun filter (scan options source)

def hasObsolete (r : Report) : Bool :=
  r.findings.any fun finding => !finding.matched.isEmpty

theorem ofSource_eq_ok {options : Options} {filter : Filter} {source : Source} {r : Report} :
    ofSource options filter source = .ok r ↔
      ∃ summary, (scan options source).outcome = .ok summary ∧
        r = ⟨(scan options source).directives.filterMap filter.finding?,
          (scan options source).warnings, summary⟩ := by
  simp only [ofSource, ofRun]
  cases (scan options source).outcome with
  | error failure => simp [Except.map]
  | ok summary => simp [Except.map, eq_comm]

end Report

end HashLine
