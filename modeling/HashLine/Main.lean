import HashLine.Program

/-! The command line on a real system. -/

namespace HashLine

def usageText : String :=
  "Usage: dirscan [OPTIONS] [PATHS]...\n\n" ++
  "  -v, --version                                  print the version\n" ++
  "  -o, --out-file <PATH>                          where the report goes [default: -]\n" ++
  "      --format <plain|source|pretty>             how findings are shown [default: plain]\n" ++
  "  -d, --directive <NAME>                         report these directives only\n" ++
  "  -x, --obsolete <NAME>                          report uses of these identifiers only\n" ++
  "      --continuations <lenient|warn|strict>      stray backslashes [default: warn]\n" ++
  "      --on-eof <flush|discard>                   directives cut off [default: flush]\n" ++
  "      --gate-quotes                              ignore `#` inside quotes\n" ++
  "  -h, --help                                     print this help\n"

def systemError (code : UInt32) (details : String) : SystemError :=
  ⟨details ++ " (os error " ++ toString code.toNat ++ ")"⟩

def SystemError.ofError : IO.Error → SystemError
  | .noFileOrDirectory _ code details => systemError code details
  | .inappropriateType _ code details => systemError code details
  | .permissionDenied _ code details => systemError code details
  | .invalidArgument _ code details => systemError code details
  | .resourceExhausted _ code details => systemError code details
  | e => ⟨toString e⟩

def attempt {α : Type} (action : IO α) : IO (Except SystemError α) := do
  try
    return .ok (← action)
  catch e =>
    return .error (.ofError e)

/-- What each read of a stream brings, up to the end of it or to the first read that fails. -/
def readAll (stream : IO.FS.Stream) : IO Source := do
  let mut reads : Array Read := #[]
  repeat
    match ← attempt (stream.read 65536) with
    | .error e =>
      reads := reads.push (.failed e)
      break
    | .ok piece =>
      match piece.data.toList with
      | [] => break
      | b :: tail => reads := reads.push (.data b tail)
  return reads.toList

def systemHost (output : IO.Ref (Option IO.FS.Handle)) : Host IO where
  openInput path :=
    if path = standardStream then do
      return .ok (← readAll (← IO.getStdin))
    else do
      match ← attempt (IO.FS.Handle.mk path .read) with
      | .error e => return .error e
      | .ok handle => return .ok (← readAll (.ofHandle handle))
  openOutput path :=
    if path = standardStream then return .ok ()
    else do
      match ← attempt (IO.FS.Handle.mk path .write) with
      | .error e => return .error e
      | .ok handle =>
        output.set (some handle)
        return .ok ()
  writeOutput bytes := do
    match ← output.get with
    | some handle =>
      handle.write bytes.toByteArray
      handle.flush
    | none => (← IO.getStdout).write bytes.toByteArray
  print text := do (← IO.getStdout).putStr text
  complain text := do (← IO.getStderr).putStr text

def commandLine (args : List String) : IO UInt32 := do
  match Arguments.parse args with
  | .error .help =>
    IO.print usageText
    return 0
  | .error _ =>
    IO.eprint usageText
    return 2
  | .ok settings =>
    let environment ← IO.getEnv "DIRSCAN_OBSOLETE"
    let output ← IO.mkRef none
    let code ← Program.run (systemHost output) settings (environment.map utf8)
    return UInt32.ofNat code

end HashLine

def main (args : List String) : IO UInt32 :=
  HashLine.commandLine args
