import HashLine.Proofs.Windows

/-! The line that a diagnostic gives in its header and the first row of its window. The header counts the
linefeeds before the span, so it takes a linefeed for a byte of the line that it ends. The window compares
the span with lines that stop before their end; what it counts in is the byte at which a line stops, and
that is not the linefeed where a carriage return goes before it. -/

namespace HashLine

/-- A linefeed with a carriage return before it. -/
def LinefeedAfterReturn (s : Bytes) (k : Nat) : Prop :=
  s[k]? = some Byte.linefeed ∧ byteBefore s k = some Byte.carriageReturn

instance (s : Bytes) (k : Nat) : Decidable (LinefeedAfterReturn s k) :=
  inferInstanceAs (Decidable (_ ∧ _))

/-- The place of an offset in a text: the lines above it, its own line, and what stands behind that. The
linefeed at the end of a line is still on the line. -/
structure CutAt (text : List Char) (k : Nat) (above line tail : List Char) : Prop where
  text_eq : text = above ++ (line ++ tail)
  above_closed : EndsWithLinefeed above
  line_free : '\n' ∉ line
  ended : ∀ c ∈ tail.head?, c = '\n'
  above_le : byteSize above ≤ k
  le_line : k ≤ byteSize above + byteSize line

theorem EndsWithLinefeed.append_cons {rest : List Char} (h : EndsWithLinefeed rest) (line : List Char) :
    EndsWithLinefeed (line ++ '\n' :: rest) := by
  intro c hc
  cases rest with
  | nil => simpa using hc.symm
  | cons d rest =>
    apply h c
    rwa [List.getLast?_append_of_ne_nil _ (by simp), List.getLast?_cons_cons] at hc

theorem exists_cutAt {text : List Char} {k : Nat} (hk : k < byteSize text) :
    ∃ above line tail, CutAt text k above line tail := by
  induction text using line_induction generalizing k with
  | last line hline =>
    exact ⟨[], line, [], by simp, by simp [EndsWithLinefeed], hline, by simp, Nat.zero_le k, by simp; omega⟩
  | more line rest hline ih =>
    rw [byteSize_append, byteSize_cons, utf8Size_linefeed] at hk
    by_cases hon : k ≤ byteSize line
    · exact ⟨[], line, '\n' :: rest, by simp, by simp [EndsWithLinefeed], hline, by simp,
        Nat.zero_le k, by simpa using hon⟩
    · obtain ⟨above, own, tail, h⟩ := @ih (k - (byteSize line + 1)) (by omega)
      have habove := h.above_le
      have hown := h.le_line
      refine ⟨line ++ '\n' :: above, own, tail, by simp [h.text_eq], h.above_closed.append_cons line,
        h.line_free, h.ended, ?_, ?_⟩
      · rw [byteSize_append, byteSize_cons, utf8Size_linefeed]
        omega
      · rw [byteSize_append, byteSize_cons, utf8Size_linefeed]
        omega

theorem getLast?_flatMap_return (text : List Char) :
    (text.flatMap String.utf8EncodeChar).getLast? = some Byte.carriageReturn ↔
      text.getLast? = some '\r' := by
  rcases List.eq_nil_or_concat' text with rfl | ⟨init, c, rfl⟩
  · simp
  · have hne : String.utf8EncodeChar c ≠ [] := by
      apply List.ne_nil_of_length_pos
      rw [String.length_utf8EncodeChar]
      exact c.utf8Size_pos
    rw [List.flatMap_append, List.flatMap_singleton, List.getLast?_append_of_ne_nil _ hne,
      List.getLast?_concat]
    constructor
    · intro hlast
      obtain ⟨-, hval⟩ := utf8EncodeChar_of_ascii_mem (by decide) (List.mem_of_getLast? hlast)
      exact congrArg some (Char.ext (UInt32.toNat_inj.mp hval))
    · rintro ⟨⟩
      decide

section

variable {text above line tail : List Char} {k : Nat}

theorem CutAt.bytes_eq (h : CutAt text k above line tail) :
    text.flatMap String.utf8EncodeChar =
      (above ++ line).flatMap String.utf8EncodeChar ++ tail.flatMap String.utf8EncodeChar := by
  rw [h.text_eq, ← List.append_assoc, List.flatMap_append]

theorem CutAt.linefeed_not_mem (h : CutAt text k above line tail) :
    Byte.linefeed ∉ line.flatMap String.utf8EncodeChar := by
  rw [← List.count_eq_zero, count_linefeed_flatMap, List.count_eq_zero]
  exact h.line_free

theorem CutAt.lineNumber_eq (h : CutAt text k above line tail) :
    lineNumber text k = 1 + above.count '\n' := by
  obtain ⟨j, rfl⟩ := Nat.exists_eq_add_of_le h.above_le
  have hj : j ≤ (line.flatMap String.utf8EncodeChar).length := by
    rw [length_flatMap_utf8EncodeChar]
    exact Nat.le_of_add_le_add_left h.le_line
  have hnone : linefeedsBefore (line.flatMap String.utf8EncodeChar) j = 0 := by
    have hle := linefeedsBefore_le (line.flatMap String.utf8EncodeChar) j
    rwa [List.count_eq_zero.mpr h.linefeed_not_mem, Nat.le_zero] at hle
  show 1 + (withOffsets 0 text).countP _ = _
  rw [countP_withOffsets, h.bytes_eq, List.flatMap_append, List.append_assoc]
  show 1 + linefeedsBefore _ (byteSize above + j) = _
  rw [← length_flatMap_utf8EncodeChar, linefeedsBefore_append_right, linefeedsBefore_append_left _ hj, hnone,
    count_linefeed_flatMap, Nat.zero_add]

/-- The linefeed that ends the line is at the offset itself, and the line has a carriage return last. -/
theorem CutAt.linefeedAfterReturn_iff (h : CutAt text k above line tail) :
    LinefeedAfterReturn (text.flatMap String.utf8EncodeChar) k ↔
      tail ≠ [] ∧ k = byteSize above + byteSize line ∧ line.getLast? = some '\r' := by
  have hlength : ((above ++ line).flatMap String.utf8EncodeChar).length = byteSize above + byteSize line := by
    rw [length_flatMap_utf8EncodeChar, byteSize_append]
  have hlast : byteBefore (text.flatMap String.utf8EncodeChar) (byteSize above + byteSize line) =
      some Byte.carriageReturn ↔ line.getLast? = some '\r' := by
    rw [h.bytes_eq, ← hlength, byteBefore_append_left _ (Nat.le_refl _), Scan.byteBefore_length,
      getLast?_flatMap_return]
    rcases List.eq_nil_or_concat' line with rfl | ⟨init, c, rfl⟩
    · -- before an empty line there is the end of the line above, or nothing
      rw [List.append_nil]
      refine iff_of_false ?_ (by simp)
      intro hreturn
      exact absurd (h.above_closed _ hreturn) (by decide)
    · rw [← List.append_assoc, List.getLast?_concat, List.getLast?_concat]
  constructor
  · rintro ⟨hlinefeed, hreturn⟩
    have hend : k = byteSize above + byteSize line := by
      apply Nat.le_antisymm h.le_line
      apply Nat.le_of_not_lt
      intro hlt
      have habove := h.above_le
      apply h.linefeed_not_mem
      rw [h.bytes_eq, List.getElem?_append_left (by omega), List.flatMap_append,
        List.getElem?_append_right (by rw [length_flatMap_utf8EncodeChar]; exact habove)] at hlinefeed
      exact List.mem_of_getElem? hlinefeed
    refine ⟨?_, hend, hlast.mp (hend ▸ hreturn)⟩
    rintro rfl
    rw [h.bytes_eq, hend, ← hlength] at hlinefeed
    simp at hlinefeed
  · rintro ⟨htail, hend, hreturn⟩
    refine ⟨?_, hend ▸ hlast.mpr hreturn⟩
    obtain ⟨c, rest, rfl⟩ := List.exists_cons_of_ne_nil htail
    obtain rfl := h.ended c rfl
    have henc : String.utf8EncodeChar '\n' = [Byte.linefeed] := by decide
    rw [h.bytes_eq, hend, ← hlength, List.getElem?_append_right (Nat.le_refl _), Nat.sub_self,
      List.flatMap_cons, henc]
    rfl

end

theorem pairwise_start_sourceLines (offset : Nat) (text : List Char) :
    (sourceLines offset text).Pairwise fun a b => a.start < b.start := by
  induction text using line_induction generalizing offset with
  | last line hline =>
    rw [sourceLines_of_no_linefeed offset hline]
    split
    · exact List.Pairwise.nil
    · exact List.pairwise_singleton _ _
  | more line rest hline ih =>
    rw [sourceLines_of_linefeed offset hline, List.pairwise_cons]
    refine ⟨?_, ih _⟩
    intro later hlater
    have hb := bounds_of_mem_sourceLines _ hlater
    dsimp only
    omega

theorem byteSize_withoutReturn (line : List Char) :
    byteSize (withoutReturn line) + (if line.getLast? = some '\r' then 1 else 0) = byteSize line := by
  simp only [withoutReturn]
  split
  · next hreturn =>
    have hsize := congrArg byteSize (List.dropLast_append_getLast? '\r' hreturn)
    rw [byteSize_append] at hsize
    exact hsize
  · rfl

/-- The line of the offset as the window has it: what is left of it when a line end is taken off. -/
theorem CutAt.exists_later {text above line tail : List Char} {k : Nat}
    (h : CutAt text k above line tail) (hk : k < byteSize text) :
    ∃ later, sourceLines 0 text = sourceLines 0 above ++
        ⟨byteSize above, if tail = [] then line else withoutReturn line⟩ :: later ∧
      ∀ l ∈ later, k < l.start := by
  have hline := h.le_line
  rw [h.text_eq, sourceLines_append 0 h.above_closed, Nat.zero_add]
  cases tail with
  | nil =>
    have hne : line ≠ [] := by
      rintro rfl
      rw [h.text_eq, List.append_nil, List.append_nil] at hk
      exact absurd h.above_le (Nat.not_le_of_lt hk)
    exact ⟨[], by rw [List.append_nil, sourceLines_of_no_linefeed _ h.line_free, if_neg hne]; rfl, by simp⟩
  | cons c rest =>
    obtain rfl := h.ended c rfl
    refine ⟨_, by rw [sourceLines_of_linefeed _ h.line_free]; rfl, ?_⟩
    intro l hl
    have hb := bounds_of_mem_sourceLines _ hl
    omega

namespace Window

/-- The span has a byte on the line or right behind it. -/
def Touches (span : Span) (line : SourceLine) : Prop :=
  line.start ≤ (covered span).stop ∧ span.start ≤ line.stop

instance (span : Span) (line : SourceLine) : Decidable (Touches span line) :=
  inferInstanceAs (Decidable (_ ∧ _))

section

variable {span : Span} (hspan : span.Ordered)

include hspan

theorem covered_bounds : span.start ≤ (covered span).stop ∧ (covered span).stop ≤ span.stop := by
  have hle : span.start ≤ span.stop := hspan
  simp only [covered]
  split
  · omega
  · next hempty =>
    have hne : span.start ≠ span.stop := by simpa [Span.isEmpty] using hempty
    omega

theorem row?_isSome_iff (number : Nat) (line : SourceLine) :
    (row? span number line).isSome = true ↔ Touches span line := by
  have hline : line.start ≤ line.stop := Nat.le_add_right _ _
  have hcovered := covered_bounds hspan
  have hstart : (covered span).start = span.start := rfl
  by_cases h : Touches span line
  · obtain ⟨hlow, hup⟩ := h
    have htouch : Span.intersect? ⟨line.start, line.stop⟩ (covered span) = some _ :=
      if_pos (by dsimp only; omega)
    have hunder : Span.intersect? ⟨line.start, line.stop⟩ span = some _ :=
      if_pos (by dsimp only; omega)
    simp [row?, htouch, hunder, Touches, hlow, hup]
  · have hapart : Span.intersect? ⟨line.start, line.stop⟩ (covered span) = none := by
      refine if_neg ?_
      intro hle
      dsimp only at hle
      exact h ⟨by omega, by omega⟩
    simp [row?, hapart, h]

theorem numbers_rowsFrom_cons (number : Nat) (line : SourceLine) (lines : List SourceLine) :
    (rowsFrom span number (line :: lines)).map WindowRow.number =
      (if Touches span line then [number] else []) ++
        (rowsFrom span (number + 1) lines).map WindowRow.number := by
  have hrow := row?_isSome_iff hspan number line
  rw [rowsFrom, List.map_append]
  cases h : row? span number line with
  | none =>
    rw [if_neg (by simpa [h] using hrow.mpr)]
    rfl
  | some row =>
    rw [if_pos (hrow.mp (by rw [h]; rfl))]
    exact congrArg (· :: _) (of_row?_eq_some h).1

/-- Behind the start of a span its lines are the first ones, up to the line of its last byte. -/
theorem exists_numbers_behind {lines : List SourceLine}
    (hsorted : lines.Pairwise fun a b => a.start < b.start)
    (hbehind : ∀ line ∈ lines, span.start < line.start) (number : Nat) :
    ∃ n, (rowsFrom span number lines).map WindowRow.number = List.range' number n := by
  induction lines generalizing number with
  | nil => exact ⟨0, rfl⟩
  | cons line lines ih =>
    obtain ⟨hfirst, hrest⟩ := List.pairwise_cons.mp hsorted
    have hstart := hbehind line List.mem_cons_self
    have hstop : line.start ≤ line.stop := Nat.le_add_right _ _
    by_cases htouches : Touches span line
    · obtain ⟨n, hn⟩ := ih hrest (fun l hl => hbehind l (List.mem_cons_of_mem line hl)) (number + 1)
      refine ⟨n + 1, ?_⟩
      rw [numbers_rowsFrom_cons hspan, if_pos htouches, hn, List.range'_succ]
      rfl
    · -- The lines are in order: when the span does not come as far as this one, it comes to none.
      refine ⟨0, ?_⟩
      have hnone : rowsFrom span (number + 1) lines = [] := by
        apply rowsFrom_eq_nil
        intro l hl m
        have hlater := hfirst l hl
        rw [← Option.not_isSome_iff_eq_none, row?_isSome_iff hspan]
        rintro ⟨hlow, -⟩
        exact htouches ⟨by omega, by omega⟩
      rw [numbers_rowsFrom_cons hspan, if_neg htouches, hnone]
      rfl

end

/-- The rows number lines without a gap, and the first of them is this one. -/
def BeginsAt (line : Nat) (rows : List WindowRow) : Prop :=
  rows ≠ [] ∧ rows.map WindowRow.number = List.range' line rows.length

instance (line : Nat) (rows : List WindowRow) : Decidable (BeginsAt line rows) :=
  inferInstanceAs (Decidable (_ ∧ _))

theorem beginsAt_iff {rows : List WindowRow} {first n : Nat}
    (h : rows.map WindowRow.number = List.range' first n) (line : Nat) :
    BeginsAt line rows ↔ 0 < n ∧ first = line := by
  have hlength : rows.length = n := by simpa using congrArg List.length h
  rw [BeginsAt, h, hlength, ← List.length_pos_iff, hlength]
  cases n with
  | zero => simp
  | succ n =>
    rw [List.range'_succ, List.range'_succ]
    constructor
    · rintro ⟨hpos, heq⟩
      exact ⟨hpos, (List.cons.inj heq).1⟩
    · rintro ⟨hpos, rfl⟩
      exact ⟨hpos, rfl⟩

theorem touches_iff {text above line tail : List Char} {span : Span}
    (h : CutAt text span.start above line tail) (hspan : span.Ordered) :
    Touches span ⟨byteSize above, if tail = [] then line else withoutReturn line⟩ ↔
      ¬ LinefeedAfterReturn (text.flatMap String.utf8EncodeChar) span.start := by
  have hcovered := covered_bounds hspan
  have habove := h.above_le
  have hline := h.le_line
  have hsize := byteSize_withoutReturn line
  rw [h.linefeedAfterReturn_iff, Touches, SourceLine.stop]
  by_cases htail : tail = []
  · simp only [htail, if_true, ne_eq, not_true, false_and, not_false_eq_true, iff_true]
    omega
  · simp only [htail, if_false, ne_eq, not_false_eq_true, true_and, not_and]
    split at hsize
    · next hreturn =>
      simp only [hreturn, not_true, imp_false]
      omega
    · next hreturn =>
      simp only [hreturn, not_false_eq_true, implies_true, iff_true]
      omega

/-- The lines above the span have no rows, and its own line has one unless the span starts at a linefeed
that a carriage return goes before. -/
theorem exists_numbers_rows {span : Span} {source : String} (hspan : span.Ordered)
    (hstart : span.start < (utf8 source).length) :
    ∃ n, (rows span source).map WindowRow.number =
      if LinefeedAfterReturn (utf8 source) span.start
        then List.range' (lineNumber source.toList span.start + 1) n
        else List.range' (lineNumber source.toList span.start) (n + 1) := by
  rw [utf8_eq_flatMap] at hstart ⊢
  rw [length_flatMap_utf8EncodeChar] at hstart
  obtain ⟨above, line, tail, hcut⟩ := exists_cutAt hstart
  obtain ⟨later, hlines, hlater⟩ := hcut.exists_later hstart
  have hnone : rowsFrom span 1 (sourceLines 0 above) = [] := by
    apply rowsFrom_eq_nil
    intro l hl number
    have hstop := stop_lt_of_mem_sourceLines 0 hcut.above_closed hl
    have habove := hcut.above_le
    rw [← Option.not_isSome_iff_eq_none, row?_isSome_iff hspan]
    rintro ⟨-, hup⟩
    omega
  have hsorted := pairwise_start_sourceLines 0 source.toList
  rw [hlines, List.pairwise_append, List.pairwise_cons] at hsorted
  obtain ⟨n, hn⟩ := exists_numbers_behind hspan hsorted.2.1.2 hlater (lineNumber source.toList span.start + 1)
  refine ⟨n, ?_⟩
  rw [rows, hlines, rowsFrom_append, hnone, List.nil_append, length_sourceLines_of_closed 0 hcut.above_closed,
    ← hcut.lineNumber_eq, numbers_rowsFrom_cons hspan, hn]
  by_cases hreturn : LinefeedAfterReturn (source.toList.flatMap String.utf8EncodeChar) span.start
  · rw [if_neg (mt (touches_iff hcut hspan).mp (not_not.mpr hreturn)), if_pos hreturn]
    rfl
  · rw [if_pos ((touches_iff hcut hspan).mpr hreturn), if_neg hreturn, List.range'_succ]
    rfl

theorem render_eq_empty_iff (style : Style) (span : Span) (source : String) :
    render style span source = "" ↔ rows span source = [] := by
  rw [render_eq_printed]
  cases rows span source with
  | nil => exact iff_of_true rfl rfl
  | cons row more =>
    obtain ⟨n, rest, hprinted⟩ := startsWith_printed style (width (row :: more)) row more
    refine iff_of_false ?_ (List.cons_ne_nil row more)
    rw [hprinted]
    simp

end Window

namespace Diagnostic

/-- In print the line behind the name of the file is this one, and below that is a window that has this
number in its first row. -/
def PrintsNumbers (d : Diagnostic) (file source : String) (line first : Nat) : Prop :=
  ∃ window, Window.StartsWith first window ∧ d.print file (some source) =
    d.header ++ "\n \x1b[1;34m-->\x1b[0m " ++ file ++ ":" ++ toString line ++ "\n" ++ window

section

variable (d : Diagnostic) (file source : String)

theorem print_eq_printed :
    let line := lineNumber source.toList d.span.start
    let rows := Window.rows d.span source
    d.print file (some source) = d.printAt file line ++
      (if rows = [] then ""
        else "\n" ++ "\n".intercalate
          (rows.map (WindowRow.printed d.severity.style (Window.width rows)))) := by
  intro line rows
  have hshown : d.ShownAt source line := shownAt_of_lineNumber rfl
  have hprint := hshown.2 file
  simp only [Window.render_eq_empty_iff] at hprint
  rw [Window.render_eq_printed] at hprint
  exact hprint

theorem location_eq : location file = " \x1b[1;34m-->\x1b[0m " ++ file := by
  rw [← String.toList_inj]
  simp [location, Style.paint, Style.code]

/-- The numbers that are printed are the ones that are counted, and no others can be read there. -/
theorem printsNumbers_iff (line first : Nat) : d.PrintsNumbers file source line first ↔
    line = lineNumber source.toList d.span.start ∧
      ((Window.rows d.span source).map WindowRow.number).head? = some first := by
  have hmargin : "\n \x1b[1;34m-->\x1b[0m " = "\n" ++ " \x1b[1;34m-->\x1b[0m " := rfl
  have hlinefeed : "\n".toList.head? = some '\n' := by simp
  rw [PrintsNumbers, print_eq_printed, printAt_eq, location_eq, hmargin]
  simp only [String.append_assoc, String.append_right_inj]
  cases Window.rows d.span source with
  | nil =>
    refine iff_of_false ?_ (by simp)
    rintro ⟨window, -, heq⟩
    rw [if_pos rfl] at heq
    have hnone := (eq_of_number_eq (by simp) (not_isDigit_head_append hlinefeed rfl window) heq).2
    simp at hnone
  | cons row more =>
    have hstarts := Window.startsWith_printed d.severity.style (Window.width (row :: more)) row more
    rw [if_neg (List.cons_ne_nil row more)]
    constructor
    · rintro ⟨window, hfirst, heq⟩
      obtain ⟨hline, hwindow⟩ := eq_of_number_eq (not_isDigit_head_append hlinefeed rfl _)
        (not_isDigit_head_append hlinefeed rfl window) heq
      rw [String.append_right_inj] at hwindow
      rw [hwindow] at hstarts
      exact ⟨hline.symm, congrArg some (hstarts.unique hfirst)⟩
    · rintro ⟨rfl, hfirst⟩
      obtain rfl : row.number = first := Option.some.inj hfirst
      exact ⟨_, hstarts, rfl⟩

end

/-- The window of a diagnostic begins with the line in the header, and the same number is printed in both
places, unless the span starts at a linefeed that a carriage return goes before. Then it begins with the next
line, if it has any rows at all. -/
theorem window_begins_at_header_line_iff {d : Diagnostic} {source : String} (hspan : d.span.Ordered)
    (hstart : d.span.start < (utf8 source).length) (file : String) :
    let line := lineNumber source.toList d.span.start
    let rows := Window.rows d.span source
    d.print file (some source) = d.printAt file line ++
        (if rows = [] then ""
          else "\n" ++ "\n".intercalate
            (rows.map (WindowRow.printed d.severity.style (Window.width rows)))) ∧
      (Window.BeginsAt line rows ↔ ¬ LinefeedAfterReturn (utf8 source) d.span.start) ∧
      (∀ k, d.PrintsNumbers file source k k ↔
        k = line ∧ ¬ LinefeedAfterReturn (utf8 source) d.span.start) ∧
      (LinefeedAfterReturn (utf8 source) d.span.start →
        rows = [] ∨ Window.BeginsAt (line + 1) rows ∧ d.PrintsNumbers file source line (line + 1)) := by
  intro line rows
  have hprints := d.printsNumbers_iff file source
  obtain ⟨n, hn⟩ := Window.exists_numbers_rows hspan hstart
  refine ⟨d.print_eq_printed file source, ?_⟩
  by_cases hreturn : LinefeedAfterReturn (utf8 source) d.span.start
  · rw [if_pos hreturn] at hn
    refine ⟨iff_of_false ?_ (not_not.mpr hreturn), ?_, ?_⟩
    · rw [Window.beginsAt_iff hn]
      rintro ⟨-, hnext⟩
      exact absurd hnext (Nat.succ_ne_self line)
    · intro k
      refine iff_of_false ?_ (fun h => h.2 hreturn)
      rw [hprints, hn]
      rintro ⟨rfl, hfirst⟩
      cases n with
      | zero => cases hfirst
      | succ n =>
        rw [List.range'_succ, List.head?_cons, Option.some.injEq] at hfirst
        exact absurd hfirst (Nat.succ_ne_self _)
    · intro _
      cases n with
      | zero => exact .inl (List.map_eq_nil_iff.mp hn)
      | succ n =>
        refine .inr ⟨(Window.beginsAt_iff hn _).mpr ⟨Nat.succ_pos n, rfl⟩, ?_⟩
        rw [hprints, hn, List.range'_succ]
        exact ⟨rfl, rfl⟩
  · rw [if_neg hreturn] at hn
    refine ⟨iff_of_true ((Window.beginsAt_iff hn _).mpr ⟨Nat.succ_pos n, rfl⟩) hreturn, ?_, ?_⟩
    · intro k
      rw [hprints, hn, List.range'_succ, List.head?_cons, Option.some.injEq]
      exact and_congr_right fun hk => iff_of_true hk.symm hreturn
    · intro hnot
      exact absurd hnot hreturn

/-- A span from the carriage return of one line into the next, and two that start a byte later. -/
theorem window_begins_at_header_line_on_return :
    let source := "é\r\nb\r\nc"
    let noted (span : Span) : Diagnostic := ⟨.note, .directive "", span⟩
    lineNumber source.toList 2 = 1 ∧ Window.BeginsAt 1 (Window.rows ⟨2, 6⟩ source) ∧
      (noted ⟨2, 6⟩).PrintsNumbers "f" source 1 1 ∧
      lineNumber source.toList 3 = 1 ∧ Window.BeginsAt 2 (Window.rows ⟨3, 6⟩ source) ∧
        (noted ⟨3, 6⟩).PrintsNumbers "f" source 1 2 ∧
        Window.rows ⟨3, 4⟩ source = [] ∧ ∀ k, ¬ (noted ⟨3, 4⟩).PrintsNumbers "f" source k k := by
  intro source noted
  have h (span : Span) (hspan : span.Ordered) (hstart : span.start < (utf8 source).length) :=
    window_begins_at_header_line_iff (d := noted span) hspan hstart "f"
  have hline : lineNumber source.toList 2 = 1 := by decide +kernel
  have hline' : lineNumber source.toList 3 = 1 := by decide +kernel
  obtain ⟨-, hbegins, hprints, -⟩ := h ⟨2, 6⟩ (by decide) (by decide +kernel)
  obtain ⟨-, -, -, hnext⟩ := h ⟨3, 6⟩ (by decide) (by decide +kernel)
  obtain ⟨-, -, hnone, -⟩ := h ⟨3, 4⟩ (by decide) (by decide +kernel)
  have hreturn : ¬ LinefeedAfterReturn (utf8 source) 2 := by decide +kernel
  have hlinefeed : LinefeedAfterReturn (utf8 source) 3 := by decide +kernel
  have hfirst := hbegins.mpr hreturn
  obtain ⟨hlater, hnumbers⟩ := (hnext hlinefeed).resolve_left (by decide +kernel)
  dsimp only [noted] at hfirst hlater hnumbers
  rw [hline] at hfirst
  rw [hline'] at hlater hnumbers
  exact ⟨hline, hfirst, (hprints 1).mpr ⟨hline.symm, hreturn⟩, hline', hlater, hnumbers, by decide +kernel,
    fun k hk => ((hnone k).mp hk).2 hlinefeed⟩

/-- The header says line 1, and the only row below it is that of line 2. -/
theorem window_skips_header_line :
    let source := "a\r\nb\n"
    let d : Diagnostic := ⟨.warning, .unterminatedDirective, ⟨2, 4⟩⟩
    d.print "f" (some source) =
        "\x1b[1;33mwarning\x1b[0m: " ++
        "\x1b[1mdirective is not terminated by a linefeed before the end of input\x1b[0m\n" ++
        " \x1b[1;34m-->\x1b[0m f:1\n" ++
        "\x1b[1;34m 2 |\x1b[0m b\n" ++
        "   \x1b[1;34m|\x1b[0m \x1b[1;33m^\x1b[0m" ∧
      ¬ Window.BeginsAt 1 (Window.rows d.span source) ∧ ∀ k, ¬ d.PrintsNumbers "f" source k k := by
  intro source d
  refine ⟨by decide +kernel, by decide +kernel, ?_⟩
  intro k
  have hline : lineNumber source.toList 2 = 1 := by decide +kernel
  have hrows : (Window.rows d.span source).map WindowRow.number = [2] := by decide +kernel
  rw [printsNumbers_iff, hrows]
  rintro ⟨rfl, hfirst⟩
  exact absurd (hline.symm.trans (Option.some.inj hfirst).symm) (by decide)

end Diagnostic

end HashLine
