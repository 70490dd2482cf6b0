/-! The lines of a source text, with their byte offsets. A linefeed ends a line, and so does a
carriage return with a linefeed after it; neither is part of the line. A lone carriage return is
text, and no empty line follows a final linefeed. -/

namespace HashLine

structure SourceLine where
  start : Nat
  text : List Char
deriving DecidableEq, Repr

/-- The length of a text in UTF-8. -/
def byteSize : List Char → Nat
  | [] => 0
  | c :: rest => c.utf8Size + byteSize rest

def SourceLine.stop (line : SourceLine) : Nat :=
  line.start + byteSize line.text

def sourceLines (offset : Nat) : List Char → List SourceLine
  | [] => []
  | '\n' :: rest => ⟨offset, []⟩ :: sourceLines (offset + 1) rest
  | '\r' :: '\n' :: rest => ⟨offset, []⟩ :: sourceLines (offset + 2) rest
  | c :: rest =>
    match sourceLines (offset + c.utf8Size) rest with
    | [] => [⟨offset, [c]⟩]
    | line :: lines => ⟨offset, c :: line.text⟩ :: lines

def withOffsets (offset : Nat) : List Char → List (Nat × Char)
  | [] => []
  | c :: rest => (offset, c) :: withOffsets (offset + c.utf8Size) rest

/-- The number of the line that the byte at `offset` stands on, counting linefeeds. -/
def lineNumber (text : List Char) (offset : Nat) : Nat :=
  1 + (withOffsets 0 text).countP fun (i, c) => i < offset && c == '\n'

end HashLine
