import HashLine.Filter
import HashLine.Text.Split

/-! A filter from names that a user typed or left in the environment. -/

namespace HashLine

inductive NameRole where
  | directive
  | obsolete
deriving DecidableEq, Repr

def NameRole.label : NameRole → String
  | directive => "directive name"
  | obsolete => "obsolete identifier"

structure InvalidName where
  role : NameRole
  name : String
deriving DecidableEq, Repr

def InvalidName.message (e : InvalidName) : String :=
  "invalid " ++ e.role.label ++ " `" ++ e.name ++ "`: expected a C identifier"

/-- Add names to those already taken, each once, up to the first that is no identifier. -/
def takeNames (role : NameRole) (taken : List String) : List String → Except InvalidName (List String)
  | [] => .ok taken
  | name :: rest =>
    if isIdentifier (utf8 name) then
      takeNames role (if taken.contains name then taken else taken ++ [name]) rest
    else .error ⟨role, name⟩

/-- The names in a text, set apart by commas or white space. -/
def listedNames (text : String) : List String :=
  let separated := pieces (fun c => c == ',' || isWhiteSpace c) text.toList
  (separated.filter fun piece => !piece.isEmpty).map String.ofList

/-- Directive names are checked first, then the obsolete identifiers, those from the environment
last. An environment that is not text lists nothing. -/
def Filter.ofNames (directives obsolete : List String) (environment : Option Bytes) :
    Except InvalidName Filter := do
  let directives ← takeNames .directive [] directives
  let listed := ((environment.bind decode?).map listedNames).getD []
  let obsolete ← takeNames .obsolete [] (obsolete ++ listed)
  return ⟨directives, obsolete⟩

end HashLine
