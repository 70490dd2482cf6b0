import HashLine.Arguments
import HashLine.Filter.Names

/-! The program: scan each input that the command line names and write a report of it. What the
program asks of its surroundings is a `Host`, so the same program runs on a real system and on a
folder held in memory. -/

namespace HashLine

/-- The surroundings of a run. -/
structure Host (m : Type → Type) where
  openInput : String → m (Except SystemError Source)
  /-- Open and empty the place that reports go to. -/
  openOutput : String → m (Except SystemError Unit)
  writeOutput : Bytes → m Unit
  print : String → m Unit
  complain : String → m Unit

/-- The path that stands for standard input or standard output. -/
def standardStream : String := "-"

def inputName (path : String) : String :=
  if path = standardStream then "<stdin>" else path

structure Processed where
  /-- Lines for the user, apart from the report. -/
  complaint : String
  /-- The report, if the input could be read and scanned. -/
  report : Option (Report × Bytes)

namespace Processed

def failed (complaint : String) : Processed :=
  ⟨complaint ++ "\n", none⟩

def ofReport (format : Format) (name : String) (content : Option Bytes) (r : Report) : Processed where
  complaint := if r.warnings.isEmpty then "" else renderWarnings name content r.warnings ++ "\n"
  report := some (r, r.render format name content)

/-- A failure is shown in its source lines if the content is at hand as text. -/
def ofFailure (name : String) (content : Option Bytes) (failure : Failure) : Processed :=
  match failure.diagnostic?, content.bind decode? with
  | some d, some text => failed (d.printIn name text)
  | _, _ => failed ("error: " ++ name ++ ": " ++ failure.message)

def ofScan (format : Format) (name : String) (content : Option Bytes) :
    Except Failure Report → Processed
  | .ok r => ofReport format name content r
  | .error failure => ofFailure name content failure

end Processed

namespace Settings

/-- The pretty format needs the whole content before the scan; the others scan as they read. -/
def process (s : Settings) (filter : Filter) (path : String) (opened : Except SystemError Source) :
    Processed :=
  let unreadable (e : SystemError) :=
    Processed.failed ("error: could not read " ++ path ++ ": " ++ e.message)
  let name := inputName path
  match opened with
  | .error e => unreadable e
  | .ok source =>
    if s.format = .pretty then
      match source.contents with
      | .error e => unreadable e
      | .ok content =>
        .ofScan s.format name (some content)
          (Report.ofSource s.options filter (Source.ofBytes content))
    else .ofScan s.format name none (Report.ofSource s.options filter source)

end Settings

structure Tally where
  reported : Nat := 0
  failed : Bool := false
  obsolete : Bool := false
deriving DecidableEq, Repr

def Tally.add (t : Tally) (p : Processed) : Tally :=
  match p.report with
  | none => { t with failed := true }
  | some (r, _) =>
    { t with reported := t.reported + r.findings.length, obsolete := t.obsolete || r.hasObsolete }

def Tally.exitCode (t : Tally) : Nat :=
  if t.failed ∨ t.obsolete then 1 else 0

namespace Program

def versionLine : String := "dirscan 0.1.0"

variable {m : Type → Type} [Monad m]

/-- Scan the inputs one by one, each report being written before the next input is opened. -/
def scanInputs (host : Host m) (s : Settings) (filter : Filter) : Tally → List String → m Tally
  | tally, [] => pure tally
  | tally, path :: rest => do
    let opened ← host.openInput path
    let processed := s.process filter path opened
    host.complain processed.complaint
    if let some (_, written) := processed.report then
      host.writeOutput written
    scanInputs host s filter (tally.add processed) rest

def abandon (host : Host m) (message : String) : m Nat := do
  host.complain ("Error: " ++ message ++ "\n")
  return 1

/-- Carry out a command line and return the exit code. Nothing is opened before the filter has been
checked, and no input before the output. -/
def run (host : Host m) (s : Settings) (environment : Option Bytes) : m Nat := do
  if s.version then
    host.print (versionLine ++ "\n")
    return 0
  match Filter.ofNames s.directives s.obsolete environment with
  | .error e => abandon host e.message
  | .ok filter =>
    match ← host.openOutput s.outFile with
    | .error e => abandon host e.message
    | .ok () =>
      let paths := if s.paths.isEmpty then [standardStream] else s.paths
      let tally ← scanInputs host s filter {} paths
      host.complain ("Scan complete: " ++ toString tally.reported ++ " directive(s) reported.\n")
      return tally.exitCode

end Program

end HashLine
