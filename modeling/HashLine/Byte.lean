/-! The bytes that steer a scan, and the classes a scan tells apart: blanks, which may stand before
a `#` on its line, and the bytes of C identifiers. -/

namespace HashLine

abbrev Bytes := List UInt8

namespace Byte

@[match_pattern] abbrev tab : UInt8 := 0x09
@[match_pattern] abbrev linefeed : UInt8 := 0x0a
@[match_pattern] abbrev carriageReturn : UInt8 := 0x0d
@[match_pattern] abbrev space : UInt8 := 0x20
@[match_pattern] abbrev doubleQuote : UInt8 := 0x22
@[match_pattern] abbrev hash : UInt8 := 0x23
@[match_pattern] abbrev singleQuote : UInt8 := 0x27
@[match_pattern] abbrev backslash : UInt8 := 0x5c
@[match_pattern] abbrev underscore : UInt8 := 0x5f

/-- A linefeed is no blank: it starts a new line instead of extending the blanks of one. -/
def isBlank (b : UInt8) : Bool :=
  b == space || b == tab || b == carriageReturn

def isDigit (b : UInt8) : Bool :=
  0x30 ≤ b && b ≤ 0x39

def isLetter (b : UInt8) : Bool :=
  (0x41 ≤ b && b ≤ 0x5a) || (0x61 ≤ b && b ≤ 0x7a)

/-- Letters and the underscore begin an identifier; digits only continue one. -/
def beginsIdentifier (b : UInt8) : Bool :=
  isLetter b || b == underscore

def inIdentifier (b : UInt8) : Bool :=
  beginsIdentifier b || isDigit b

/-- How a message names the byte after a backslash; `none` is the end of the input. -/
def describe : Option UInt8 → String
  | none => "end of input"
  | some b =>
    if b = space then "a space"
    else if b = tab then "a tab"
    else if b = carriageReturn then "a carriage return"
    else "an unexpected byte"

end Byte

end HashLine
