import HashLine.Byte.Escape
import HashLine.Diagnostic
import HashLine.Report

/-! Reports in the three formats: a line for each finding, the directives themselves, or
diagnostics with source lines. The last needs the source as text and gives way to the first
without it. -/

namespace HashLine

inductive Format where
  | plain
  | source
  | pretty
deriving DecidableEq, Repr

namespace Finding

def lineRange (f : Finding) : String :=
  if f.directive.endLine = f.directive.line then toString f.directive.line
  else toString f.directive.line ++ "-" ++ toString f.directive.endLine

def plainLine (file : String) (f : Finding) : String :=
  file ++ ":" ++ f.lineRange ++ ": " ++ Byte.quoted f.directive.text ++
    if f.matched.isEmpty then "" else " (mentions `" ++ "`, `".intercalate f.matched ++ "`)"

/-- A note on the directive, or a warning for each obsolete identifier in it. -/
def diagnostics (f : Finding) : List Diagnostic :=
  if f.matched.isEmpty then
    [⟨.note, .directive (f.directive.name?.getD ""), f.directive.span⟩]
  else
    f.matched.map fun name => ⟨.warning, .obsoleteIdentifier name, f.directive.span⟩

def pretty (file source : String) (f : Finding) : String :=
  "\n".intercalate (f.diagnostics.map fun d => d.printIn file source)

end Finding

namespace Report

def plain (file : String) (r : Report) : String :=
  String.join (r.findings.map fun f => f.plainLine file ++ "\n")

def pretty (file source : String) (r : Report) : String :=
  String.join (r.findings.map fun f => f.pretty file source ++ "\n")

def source (r : Report) : Bytes :=
  r.findings.flatMap fun f => f.directive.source

def render (format : Format) (file : String) (source : Option Bytes) (r : Report) : Bytes :=
  match format with
  | .plain => utf8 (r.plain file)
  | .source => r.source
  | .pretty =>
    match source.bind decode? with
    | some text => utf8 (r.pretty file text)
    | none => utf8 (r.plain file)

end Report

/-- Warnings one after the other, with source lines if the source is at hand as text. -/
def renderWarnings (file : String) (source : Option Bytes) (warnings : List Warning) : String :=
  let printed := match source.bind decode? with
    | some text => warnings.map fun w => w.diagnostic.printIn file text
    | none => warnings.map fun w => w.diagnostic.printAt file w.line
  "\n".intercalate printed

end HashLine
