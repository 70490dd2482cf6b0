import HashLine.Diagnostic.Line
import HashLine.Span
import HashLine.Style

/-! The lines of a source that a span touches, each with carets under the part that it covers. -/

namespace HashLine

structure WindowRow where
  number : Nat
  text : List Char
  /-- What stands before the carets: a tab under a tab, a space under anything else. -/
  padding : List Char
  carets : Nat
deriving DecidableEq, Repr

namespace Window

/-- From the first to the last byte of a span; both are its start if it is empty. -/
def covered (span : Span) : Span :=
  let last := if span.isEmpty then span.start else span.stop - 1
  ⟨span.start, max last span.start⟩

/-- The row of a line, if the span has a byte on it. -/
def row? (span : Span) (number : Nat) (line : SourceLine) : Option WindowRow := do
  let extent : Span := ⟨line.start, line.stop⟩
  let _ ← extent.intersect? (covered span)
  let underline ← extent.intersect? span
  let start := underline.start - line.start
  let stop := underline.stop - line.start
  let chars := withOffsets 0 line.text
  let padding := (chars.takeWhile fun (i, _) => i < start).map fun (_, c) =>
    if c = '\t' then '\t' else ' '
  let marked := chars.countP fun (i, _) => start ≤ i && i < stop
  return ⟨number, line.text, padding, max marked 1⟩

def rowsFrom (span : Span) (number : Nat) : List SourceLine → List WindowRow
  | [] => []
  | line :: lines => (row? span number line).toList ++ rowsFrom span (number + 1) lines

def rows (span : Span) (source : String) : List WindowRow :=
  rowsFrom span 1 (sourceLines 0 source.toList)

end Window

namespace WindowRow

def padLeft (width : Nat) (text : String) : String :=
  String.ofList (List.replicate (width - text.length) ' ') ++ text

/-- A line of source after its number, and a line of carets, both in `width` columns. -/
def render (style : Style) (width : Nat) (r : WindowRow) : String :=
  Style.boldBlue.paint (padLeft width (toString r.number) ++ " |") ++ " " ++ String.ofList r.text ++
    "\n" ++ padLeft width "" ++ " " ++ Style.boldBlue.paint "|" ++ " " ++
    style.paint (String.ofList (r.padding ++ List.replicate r.carets '^'))

end WindowRow

namespace Window

/-- Numbers are set one column wider than the longest of them. -/
def width (rows : List WindowRow) : Nat :=
  (rows.map fun r => (toString r.number).length).foldl max 0 + 1

def render (style : Style) (span : Span) (source : String) : String :=
  let rows := rows span source
  "\n".intercalate (rows.map (WindowRow.render style (width rows)))

end Window

end HashLine
