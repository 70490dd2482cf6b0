import HashLine.Byte

/-! Bytes as quoted text in printable ASCII. A byte becomes itself, a two-character escape, or
`\x` with two hexadecimal digits. -/

namespace HashLine.Byte

def escape (b : UInt8) : List Char :=
  if b = linefeed then ['\\', 'n']
  else if b = tab then ['\\', 't']
  else if b = carriageReturn then ['\\', 'r']
  else if b = doubleQuote then ['\\', '"']
  else if b = backslash then ['\\', '\\']
  else if 0x20 ≤ b ∧ b ≤ 0x7e then [Char.ofNat b.toNat]
  else ['\\', 'x', Nat.digitChar (b.toNat / 16), Nat.digitChar (b.toNat % 16)]

/-- The escaped bytes between double quotes, on one line whatever they hold. -/
def quoted (bytes : Bytes) : String :=
  String.ofList ('"' :: bytes.flatMap escape ++ ['"'])

end HashLine.Byte
