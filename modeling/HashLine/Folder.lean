import HashLine.Source
import HashLine.Text.Split

/-! A working folder: the files in it by the names that lead to them, and how a path is followed. A file is
given by what reads of it bring, which may fail at any byte, and some cannot be opened to read at all.
Outside the folder there are only folders, and nothing in them. -/

namespace HashLine

inductive PathError where
  | notFound
  | notDirectory
  | isDirectory
  | nameTooLong
  | holdsNul
deriving DecidableEq, Repr

def PathError.system : PathError → SystemError
  | notFound => ⟨"No such file or directory (os error 2)"⟩
  | notDirectory => ⟨"Not a directory (os error 20)"⟩
  | isDirectory => ⟨"Is a directory (os error 21)"⟩
  | nameTooLong => ⟨"File name too long (os error 36)"⟩
  | holdsNul => ⟨"file name contained an unexpected NUL byte"⟩

/-- The names that lead to an entry. The working folder is `[]`; a place outside of it starts with
`..` for each step up, or with `/` for the root. -/
abbrev Place := List String

inductive File where
  | readable (source : Source)
  | locked (error : SystemError)
deriving DecidableEq, Repr

def File.openSource : File → Except SystemError Source
  | readable source => .ok source
  | locked e => .error e

inductive Entry where
  | file (file : File)
  | folder
deriving DecidableEq, Repr

structure Folder where
  files : List (Place × File) := []
  folders : List Place := []
deriving DecidableEq, Repr

namespace Place

def isAbove (place : Place) : Bool :=
  place.all (· == "..")

def enter (place : Place) (name : String) : Place :=
  if name = "" ∨ name = "." then place
  else if name = ".." then
    if place = ["/"] then place
    else if place.isAbove then place ++ [".."]
    else place.dropLast
  else place ++ [name]

end Place

/-- The names in a path. An empty one at the end stands for a slash after the last name. -/
def pathNames (path : String) : List String :=
  (pieces (· == '/') path.toList).map String.ofList

/-- The names up to the folder that holds the last one, with a slash after that folder. -/
def parentNames (names : List String) : List String :=
  (names.reverse.dropWhile String.isEmpty).reverse.dropLast ++ [""]

namespace Folder

/-- A working folder with these folders and files in it, all given by paths. The files can be read. -/
def ofPaths (folders : List String) (files : List (String × Bytes)) : Folder where
  files := files.map fun (path, content) => ((pathNames path).foldl Place.enter [], .readable content)
  folders := folders.map fun path => (pathNames path).foldl Place.enter []

/-- A place is a folder if it is listed as one or anything lies below it. -/
def isFolder (f : Folder) (place : Place) : Bool :=
  place.isAbove || place == ["/"] || f.folders.any place.isPrefixOf ||
    f.files.any fun (name, _) => place.isPrefixOf name

def entry? (f : Folder) (place : Place) : Option Entry :=
  match f.files.lookup place with
  | some file => some (.file file)
  | none => if f.isFolder place then some .folder else none

/-- Follow names from a place; all but the last have to lead to folders. -/
def walk (f : Folder) (place : Place) : List String → Except PathError Place
  | [] => .ok place
  | name :: rest =>
    match f.entry? place with
    | none => .error .notFound
    | some (.file _) => .error .notDirectory
    | some .folder =>
      if 255 < name.utf8ByteSize then .error .nameTooLong
      else f.walk (place.enter name) rest

/-- The place that a path names, whether or not something is there. -/
def locate (f : Folder) (path : String) (names : List String) : Except PathError Place :=
  if path.toList.contains '\x00' then .error .holdsNul
  else if path.isEmpty then .error .notFound
  else if 4096 ≤ path.utf8ByteSize then .error .nameTooLong
  else if path.toList.head? = some '/' then f.walk ["/"] names
  else f.walk [] names

def find (f : Folder) (path : String) : Except PathError Entry := do
  let place ← f.locate path (pathNames path)
  match f.entry? place with
  | none => .error .notFound
  | some entry => .ok entry

/-- A folder can be opened like a file, but not read. -/
def openSource (f : Folder) (path : String) : Except SystemError Source :=
  match f.find path with
  | .error e => .error e.system
  | .ok (.file file) => file.openSource
  | .ok .folder => .ok [.failed PathError.isDirectory.system]

def contents (f : Folder) (path : String) : Except SystemError Bytes := do
  (← f.openSource path).contents

def setFile (f : Folder) (place : Place) (source : Source) : Folder :=
  { f with files := (place, .readable source) :: f.files.filter fun (name, _) => name != place }

/-- Make the file that a path names, or empty it. With a slash after it the last name can only mean
a folder, and is not even looked up. -/
def create (f : Folder) (path : String) : Except PathError (Place × Folder) := do
  let names := pathNames path
  if names.getLast? = some "" then
    let _ ← f.locate path (parentNames names)
    .error .isDirectory
  else
    let place ← f.locate path names
    match f.entry? place with
    | some .folder => .error .isDirectory
    | _ => .ok (place, f.setFile place [])

/-- What is written to a file is read behind what it held, in a piece of its own. -/
def append (f : Folder) (place : Place) (bytes : Bytes) : Folder :=
  match f.files.lookup place with
  | some (.readable source) => f.setFile place (source ++ Source.ofBytes bytes)
  | _ => f.setFile place (Source.ofBytes bytes)

end Folder

end HashLine
