import HashLine.Folder
import HashLine.Program

/-! A host in memory: a folder, what reads of standard input will bring, and what has been written to the
two standard outputs. -/

namespace HashLine

structure Surroundings where
  folder : Folder := {}
  stdin : Source := []
  stdout : Bytes := []
  stderr : Bytes := []
  /-- Where reports go; standard output if no file is named. -/
  output : Option Place := none
deriving DecidableEq, Repr

namespace Surroundings

/-- Whoever opens standard input takes all that is left of it. -/
def openInput (path : String) (here : Surroundings) : Except SystemError Source × Surroundings :=
  if path = standardStream then (.ok here.stdin, { here with stdin := [] })
  else (here.folder.openSource path, here)

/-- The name of an input and all that can be read from it. -/
def readInput (path : String) (here : Surroundings) : Except SystemError (String × Bytes) × Surroundings :=
  let (opened, here) := here.openInput path
  (do return (inputName path, ← (← opened).contents), here)

def openOutput (path : String) (here : Surroundings) : Except SystemError Unit × Surroundings :=
  if path = standardStream then (.ok (), { here with output := none })
  else match here.folder.create path with
    | .error e => (.error e.system, here)
    | .ok (place, folder) => (.ok (), { here with folder := folder, output := some place })

def writeOutput (bytes : Bytes) (here : Surroundings) : Surroundings :=
  match here.output with
  | none => { here with stdout := here.stdout ++ bytes }
  | some place => { here with folder := here.folder.append place bytes }

def host : Host (StateM Surroundings) where
  openInput := openInput
  openOutput := openOutput
  writeOutput bytes here := ((), here.writeOutput bytes)
  print text here := ((), { here with stdout := here.stdout ++ utf8 text })
  complain text here := ((), { here with stderr := here.stderr ++ utf8 text })

def run (here : Surroundings) (s : Settings) (environment : Option Bytes) : Nat × Surroundings :=
  (Program.run host s environment).run here

end Surroundings

end HashLine
