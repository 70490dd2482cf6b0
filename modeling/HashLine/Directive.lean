import HashLine.Identifier
import HashLine.Span
import HashLine.Text

/-! A directive: the bytes after a `#` that begins its line, up to the first linefeed that no
backslash precedes. A backslash and the linefeed after it splice two lines into one. -/

namespace HashLine

structure Directive where
  line : Nat
  endLine : Nat
  /-- From the `#` to just past the last byte of the text. -/
  span : Span
  /-- All bytes after the `#`, the ending linefeed included. -/
  text : Bytes
  /-- Did the linefeed come before the end of the input? -/
  terminated : Bool
deriving DecidableEq, Repr

/-- Remove every backslash-linefeed pair, from left to right. -/
def splice : Bytes → Bytes
  | [] => []
  | Byte.backslash :: Byte.linefeed :: rest => splice rest
  | b :: rest => b :: splice rest

def isSpliced : Bytes → Bool
  | [] => false
  | Byte.backslash :: Byte.linefeed :: _ => true
  | _ :: rest => isSpliced rest

theorem splice_eq_self {t : Bytes} (h : isSpliced t = false) : splice t = t := by
  fun_induction isSpliced t with
  | case1 => rfl
  | case2 rest => cases h
  | case3 b rest hpair ih => rw [splice.eq_3 b rest hpair, ih h]

/-- Drop the spaces, tabs and spliced line ends that may stand before a directive's name. -/
def dropIndent : Bytes → Bytes
  | Byte.space :: rest => dropIndent rest
  | Byte.tab :: rest => dropIndent rest
  | Byte.backslash :: Byte.linefeed :: rest => dropIndent rest
  | bytes => bytes

namespace Directive

/-- The run of identifier bytes that follows the indent, such as `define`. -/
def name? (d : Directive) : Option String :=
  match (dropIndent d.text).takeWhile Byte.inIdentifier with
  | [] => none
  | run => some (String.ofList (run.map fun b => Char.ofNat b.toNat))

/-- The text as one line. A text without a spliced line end is taken as it is. -/
def logicalText (d : Directive) : Bytes :=
  if isSpliced d.text then splice d.text else d.text

theorem logicalText_eq_splice (d : Directive) : d.logicalText = splice d.text := by
  rw [logicalText]
  split
  · rfl
  · next h => exact (splice_eq_self (Bool.eq_false_iff.mpr h)).symm

def mentions (d : Directive) (word : String) : Bool :=
  (findWord d.logicalText (utf8 word)).isSome

/-- The directive as it would stand in a file, closed by a linefeed even if it was cut off. -/
def source (d : Directive) : Bytes :=
  let written := Byte.hash :: d.text
  if written.getLast? = some Byte.linefeed then written else written ++ [Byte.linefeed]

end Directive

end HashLine
