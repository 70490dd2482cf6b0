import HashLine.Options
import HashLine.Report.Render

/-! The command line. Options may stand before, between and after the paths. A long option takes its
value from the next argument or after `=`; short ones may be joined, and a value may follow its
option directly. After `--` everything is a path.

An option or a run of paths stays open until the next argument shows that it is complete, and its
values are checked only then. -/

namespace HashLine

/-- Why a command line is not carried out. -/
inductive Refusal where
  | unknownOption
  /-- A value that is missing or not one of those allowed. -/
  | badValue
  /-- An option that may be given once was given again. -/
  | repeated
  | unexpectedValue
  | help
deriving DecidableEq, Repr

structure Settings where
  version : Bool
  paths : List String
  outFile : String
  format : Format
  directives : List String
  obsolete : List String
  continuations : ContinuationPolicy
  onEnd : EndPolicy
  gateQuotes : Bool
deriving DecidableEq, Repr

def Settings.options (s : Settings) : Options where
  continuations := s.continuations
  onEnd := s.onEnd
  gateQuotes := s.gateQuotes

namespace Arguments

inductive Flag where
  | version
  | gateQuotes
deriving DecidableEq, Repr

inductive Key where
  | outFile
  | format
  | directive
  | obsolete
  | continuations
  | onEnd
deriving DecidableEq, Repr

inductive Switch where
  | help
  | flag (f : Flag)
  | key (k : Key)
deriving DecidableEq, Repr

def Switch.ofLong? : String → Option Switch
  | "help" => some .help
  | "version" => some (.flag .version)
  | "gate-quotes" => some (.flag .gateQuotes)
  | "out-file" => some (.key .outFile)
  | "format" => some (.key .format)
  | "directive" => some (.key .directive)
  | "obsolete" => some (.key .obsolete)
  | "continuations" => some (.key .continuations)
  | "on-eof" => some (.key .onEnd)
  | _ => none

def Switch.ofShort? : Char → Option Switch
  | 'h' => some .help
  | 'v' => some (.flag .version)
  | 'o' => some (.key .outFile)
  | 'd' => some (.key .directive)
  | 'x' => some (.key .obsolete)
  | _ => none

def format? : String → Option Format
  | "plain" => some .plain
  | "source" => some .source
  | "pretty" => some .pretty
  | _ => none

def continuations? : String → Option ContinuationPolicy
  | "lenient" => some .lenient
  | "warn" => some .warn
  | "strict" => some .strict
  | _ => none

def onEnd? : String → Option EndPolicy
  | "flush" => some .flush
  | "discard" => some .discard
  | _ => none

/-- A path is never empty. -/
def path? (value : String) : Option String :=
  if value.isEmpty then none else some value

structure Draft where
  version : Bool := false
  gateQuotes : Bool := false
  paths : List String := []
  outFile : Option String := none
  format : Option Format := none
  directives : List String := []
  obsolete : List String := []
  continuations : Option ContinuationPolicy := none
  onEnd : Option EndPolicy := none
deriving DecidableEq, Repr

/-- The first value of an option that may be given once. -/
def once {α : Type} (given : Option α) (value : Option α) : Except Refusal (Option α) :=
  match given, value with
  | some _, _ => .error .repeated
  | none, none => .error .badValue
  | none, some a => .ok (some a)

namespace Draft

def raise (d : Draft) : Flag → Except Refusal Draft
  | .version => if d.version then .error .repeated else .ok { d with version := true }
  | .gateQuotes => if d.gateQuotes then .error .repeated else .ok { d with gateQuotes := true }

def assign (d : Draft) (key : Key) (value : String) : Except Refusal Draft :=
  match key with
  | .outFile => (once d.outFile (path? value)).map fun v => { d with outFile := v }
  | .format => (once d.format (format? value)).map fun v => { d with format := v }
  | .directive => .ok { d with directives := d.directives ++ [value] }
  | .obsolete => .ok { d with obsolete := d.obsolete ++ [value] }
  | .continuations =>
    (once d.continuations (continuations? value)).map fun v => { d with continuations := v }
  | .onEnd => (once d.onEnd (onEnd? value)).map fun v => { d with onEnd := v }

def addPaths (d : Draft) (paths : List String) : Except Refusal Draft :=
  if paths.any String.isEmpty then .error .badValue else .ok { d with paths := d.paths ++ paths }

def settings (d : Draft) : Settings where
  version := d.version
  paths := d.paths
  outFile := d.outFile.getD "-"
  format := d.format.getD .plain
  directives := d.directives
  obsolete := d.obsolete
  continuations := d.continuations.getD .warn
  onEnd := d.onEnd.getD .flush
  gateQuotes := d.gateQuotes

end Draft

/-- What the arguments so far leave open. -/
inductive Unsettled where
  | nothing
  /-- An option, with the value that came for it as an argument of its own. -/
  | option (key : Key) (value : Option String)
  | paths (values : List String)
deriving DecidableEq, Repr

def settle (d : Draft) : Unsettled → Except Refusal Draft
  | .nothing => .ok d
  | .option _ none => .error .badValue
  | .option key (some value) => d.assign key value
  | .paths values => d.addPaths values

/-- The switches joined in one argument after a dash. -/
def shortSwitches (d : Draft) (u : Unsettled) : List Char → Except Refusal (Draft × Unsettled)
  | [] => .ok (d, u)
  | c :: rest =>
    match Switch.ofShort? c with
    | none => .error .unknownOption
    | some .help => do
      let _ ← settle d u
      .error .help
    | some (.flag f) => do
      let d ← settle d u
      let d ← d.raise f
      shortSwitches d .nothing rest
    | some (.key k) => do
      let d ← settle d u
      match rest with
      | [] => .ok (d, .option k none)
      | '=' :: value => return (← d.assign k (String.ofList value), .nothing)
      | value => return (← d.assign k (String.ofList value), .nothing)

/-- A switch named in full, with the value after its `=`. -/
def longSwitch (d : Draft) (u : Unsettled) (name : String) (value : Option String) :
    Except Refusal (Draft × Unsettled) :=
  match Switch.ofLong? name, value with
  | none, _ => .error .unknownOption
  | some .help, some _ => .error .unexpectedValue
  | some (.flag _), some _ => .error .unexpectedValue
  | some .help, none => do
    let _ ← settle d u
    .error .help
  | some (.flag f), none => do
    let d ← settle d u
    return (← d.raise f, .nothing)
  | some (.key k), none => do
    let d ← settle d u
    return (d, .option k none)
  | some (.key k), some value => do
    let d ← settle d u
    return (← d.assign k value, .nothing)

def pathArgument (d : Draft) (u : Unsettled) (arg : String) : Except Refusal (Draft × Unsettled) :=
  match u with
  | .paths values => .ok (d, .paths (values ++ [arg]))
  | u => do
    let d ← settle d u
    return (d, .paths [arg])

/-- An argument before any `--`. One that starts with a dash is never the value of an open option,
unless it is a dash alone. -/
def argument (d : Draft) (u : Unsettled) (arg : String) : Except Refusal (Draft × Unsettled) :=
  match arg.toList with
  | '-' :: '-' :: long =>
    let name := long.takeWhile (· != '=')
    let value := match long.dropWhile (· != '=') with
      | [] => none
      | _ :: value => some (String.ofList value)
    longSwitch d u (String.ofList name) value
  | '-' :: c :: rest => shortSwitches d u (c :: rest)
  | _ =>
    match u with
    | .option key none => .ok (d, .option key (some arg))
    | u => pathArgument d u arg

def readPaths (d : Draft) (u : Unsettled) : List String → Except Refusal Draft
  | [] => settle d u
  | arg :: rest => do
    let (d, u) ← pathArgument d u arg
    readPaths d u rest

def read (d : Draft) (u : Unsettled) : List String → Except Refusal Draft
  | [] => settle d u
  | arg :: rest =>
    if arg = "--" then readPaths d u rest
    else do
      let (d, u) ← argument d u arg
      read d u rest

def parse (args : List String) : Except Refusal Settings :=
  (read {} .nothing args).map Draft.settings

end Arguments

end HashLine
