import HashLine.Proofs.Print
import HashLine.Proofs.Written

/-! The source lines that a diagnostic shows of a directive. The text is cut above the line of the `#` and
behind the directive, and the window is taken part by part: no row for what stands above or below, and a
row for each line between. -/

namespace HashLine

section

variable {text : String} {xs ys : List Char}

theorem utf8_of_toList (h : text.toList = xs ++ ys) :
    utf8 text = xs.flatMap String.utf8EncodeChar ++ ys.flatMap String.utf8EncodeChar := by
  rw [utf8_eq_flatMap, h, List.flatMap_append]

theorem take_byteSize_utf8 (h : text.toList = xs ++ ys) :
    (utf8 text).take (byteSize xs) = xs.flatMap String.utf8EncodeChar := by
  rw [utf8_of_toList h, ← length_flatMap_utf8EncodeChar, List.take_left']
  rfl

theorem linefeedsBefore_byteSize (h : text.toList = xs ++ ys) :
    linefeedsBefore (utf8 text) (byteSize xs) = xs.count '\n' := by
  rw [linefeedsBefore, take_byteSize_utf8 h, count_linefeed_flatMap]

/-- A linefeed takes one byte, so the last byte of a text does not count it. -/
theorem linefeedsBefore_last (h : text.toList = xs ++ ys) (hne : xs ≠ []) :
    linefeedsBefore (utf8 text) (byteSize xs - 1) = xs.dropLast.count '\n' := by
  obtain ⟨init, c, rfl⟩ := (List.eq_nil_or_concat' xs).resolve_left hne
  have hpos := c.utf8Size_pos
  have hlast : byteSize (init ++ [c]) - 1 = byteSize init + (c.utf8Size - 1) := by
    simp only [byteSize_append, byteSize_cons, byteSize_nil]
    omega
  have hnone : ((String.utf8EncodeChar c).take (c.utf8Size - 1)).count Byte.linefeed = 0 := by
    rw [count_linefeed_take_utf8EncodeChar, if_neg]
    rintro ⟨hlong, rfl⟩
    exact absurd hlong (by decide)
  have htake : (utf8 text).take (byteSize init + (c.utf8Size - 1)) =
      init.flatMap String.utf8EncodeChar ++ (String.utf8EncodeChar c).take (c.utf8Size - 1) := by
    rw [List.append_assoc] at h
    rw [utf8_of_toList h, ← length_flatMap_utf8EncodeChar, List.take_length_add_append,
      List.flatMap_append, List.flatMap_singleton, List.take_append_of_le_length]
    rw [String.length_utf8EncodeChar]
    omega
  rw [hlast, linefeedsBefore, htake, List.count_append, hnone, count_linefeed_flatMap,
    List.dropLast_concat, Nat.add_zero]

end

theorem lineHead_byteSize {text : String} {above before after : List Char}
    (h : text.toList = above ++ before ++ after) (habove : EndsWithLinefeed above)
    (hbefore : '\n' ∉ before) :
    lineHead (utf8 text) (byteSize (above ++ before)) = before.flatMap String.utf8EncodeChar := by
  have hall : ∀ b ∈ before.flatMap String.utf8EncodeChar, (b != Byte.linefeed) = true := by
    intro b hb
    obtain ⟨c, hc, hbc⟩ := List.mem_flatMap.mp hb
    rw [bne_iff_ne]
    rintro rfl
    exact linefeed_not_mem_utf8EncodeChar (fun hcn => hbefore (hcn ▸ hc)) hbc
  have hnone : (above.flatMap String.utf8EncodeChar).rtakeWhile (· != Byte.linefeed) = [] := by
    rw [List.rtakeWhile_eq_nil_iff]
    intro hne
    have hlines : above ≠ [] := by
      rintro rfl
      exact hne rfl
    obtain ⟨init, c, rfl⟩ := (List.eq_nil_or_concat' above).resolve_left hlines
    obtain rfl := habove c (by simp)
    have henc : String.utf8EncodeChar '\n' = [Byte.linefeed] := by decide
    simp [henc]
  rw [lineHead, take_byteSize_utf8 h, List.flatMap_append]
  simp only [List.rtakeWhile] at hnone ⊢
  rw [List.reverse_append, List.takeWhile_append_of_pos (by simpa using hall), List.reverse_append,
    hnone, List.nil_append, List.reverse_reverse]

namespace Scan

/-- The place of a directive in its input: from a `#` to a linefeed or to the end. -/
structure StandsIn (s : Bytes) (d : Directive) : Prop where
  hash : s[d.span.start]? = some Byte.hash
  line : d.line = Cursor.lineOf s d.span.start
  endLine : d.endLine = Cursor.lineOf s (d.span.stop - 1)
  start_lt : d.span.start < d.span.stop
  stop_le : d.span.stop ≤ s.length
  closed : d.span.stop = s.length ∨ s[d.span.stop - 1]? = some Byte.linefeed

theorem Delivers.standsIn {gate : Bool} {s : Bytes} {d : Directive}
    (h : Delivers gate s (.directive d)) : StandsIn s d := by
  cases h with
  | @ended i k ho he =>
    have hstart := (openAt_begun ho).1
    have hik := openAt_lt ho
    exact ⟨hstart.1, rfl, rfl, by dsimp only [directiveOf]; omega, he.lt_length, .inr he.1⟩
  | @cutOff i ho =>
    exact ⟨(openAt_begun ho).1.1, rfl, rfl, openAt_lt ho, Nat.le_refl _, .inl rfl⟩

/-- The text around a directive, in characters: the lines above it, its own lines from the beginning of
the first, and what is below. -/
structure Cut (text : String) (d : Directive) (above before body below : List Char) : Prop where
  toList_eq : text.toList = above ++ (before ++ '#' :: body) ++ below
  above_closed : EndsWithLinefeed above
  before_line : '\n' ∉ before
  start_eq : d.span.start = byteSize (above ++ before)
  stop_eq : d.span.stop = byteSize (above ++ (before ++ '#' :: body))
  body_closed : EndsWithLinefeed (before ++ '#' :: body) ∨ below = []

theorem exists_line_head (head : List Char) :
    ∃ above before, head = above ++ before ∧ EndsWithLinefeed above ∧ '\n' ∉ before := by
  refine ⟨head.rdropWhile (· != '\n'), head.rtakeWhile (· != '\n'),
    List.rdropWhile_append_rtakeWhile.symm, ?_, ?_⟩
  · intro c hc
    have hne : head.rdropWhile (· != '\n') ≠ [] := by
      rintro heq
      simp [heq] at hc
    have hlast := List.rdropWhile_last_not (· != '\n') head hne
    rw [List.getLast?_eq_some_getLast hne] at hc
    obtain rfl := Option.some.inj hc
    simpa using hlast
  · intro hmem
    simpa using List.mem_rtakeWhile_imp hmem

/-- Behind its `#` a directive takes all the text, or the text up to a linefeed. -/
theorem StandsIn.exists_body {text : String} {d : Directive} {head tail : List Char}
    (h : StandsIn (utf8 text) d) (htext : text.toList = head ++ '#' :: tail)
    (hstart : d.span.start = byteSize head) :
    ∃ body below, tail = body ++ below ∧ d.span.stop = byteSize head + 1 + byteSize body ∧
      (EndsWithLinefeed ('#' :: body) ∨ below = []) := by
  have hhash : '#'.utf8Size = 1 := rfl
  have hsplit : utf8 text =
      (head ++ ['#']).flatMap String.utf8EncodeChar ++ tail.flatMap String.utf8EncodeChar :=
    utf8_of_toList (by rw [htext, List.append_assoc]; rfl)
  have hsize : byteSize (head ++ ['#']) = byteSize head + 1 := by
    rw [byteSize_append, byteSize_cons, byteSize_nil, hhash]
  rcases h.closed with hstop | hstop
  · refine ⟨tail, [], (List.append_nil tail).symm, ?_, .inr rfl⟩
    rw [hstop, hsplit, List.length_append, length_flatMap_utf8EncodeChar,
      length_flatMap_utf8EncodeChar, hsize]
  · have hlt := h.start_lt
    have hne : d.span.stop - 1 ≠ d.span.start := by
      intro heq
      rw [heq, h.hash] at hstop
      exact absurd (Option.some.inj hstop) (by decide)
    rw [hsplit, List.getElem?_append_right (by rw [length_flatMap_utf8EncodeChar, hsize]; omega),
      length_flatMap_utf8EncodeChar, hsize] at hstop
    obtain ⟨line, c, below, rfl, hline, hc⟩ := exists_split_at_ascii (by decide) hstop
    obtain rfl : c = '\n' := Char.ext (UInt32.toNat_inj.mp hc)
    refine ⟨line ++ ['\n'], below, by simp, ?_, .inl ?_⟩
    · rw [byteSize_append, byteSize_cons, byteSize_nil, utf8Size_linefeed]
      omega
    · intro c hc
      rw [← List.cons_append, List.getLast?_concat] at hc
      exact (Option.some.inj hc).symm

theorem StandsIn.exists_cut {text : String} {d : Directive} (h : StandsIn (utf8 text) d) :
    ∃ above before body below, Cut text d above before body below := by
  have hhash := h.hash
  rw [utf8_eq_flatMap] at hhash
  obtain ⟨head, c, tail, htext, hhead, hc⟩ := exists_split_at_ascii (by decide) hhash
  obtain rfl : c = '#' := Char.ext (UInt32.toNat_inj.mp hc)
  obtain ⟨body, below, rfl, hstop, hclosed⟩ := h.exists_body htext hhead.symm
  obtain ⟨above, before, rfl, habove, hbefore⟩ := exists_line_head head
  refine ⟨above, before, body, below, ?_, habove, hbefore, hhead.symm, ?_, ?_⟩
  · rw [htext]
    simp
  · have hsize : '#'.utf8Size = 1 := rfl
    rw [hstop, ← List.append_assoc above, byteSize_append (above ++ before), byteSize_cons]
    omega
  · refine hclosed.imp_left ?_
    intro hlinefeed c hc
    rw [List.getLast?_append_of_ne_nil before (by simp)] at hc
    exact hlinefeed c hc

end Scan

theorem withOffsets_append (offset : Nat) (xs ys : List Char) :
    withOffsets offset (xs ++ ys) =
      withOffsets offset xs ++ withOffsets (offset + byteSize xs) ys := by
  induction xs generalizing offset with
  | nil => rfl
  | cons c xs ih => simp [withOffsets, ih, Nat.add_assoc]

theorem map_snd_withOffsets (offset : Nat) (xs : List Char) :
    (withOffsets offset xs).map Prod.snd = xs := by
  induction xs generalizing offset with
  | nil => rfl
  | cons c xs ih => simp [withOffsets, ih]

theorem bounds_of_mem_withOffsets {offset : Nat} {xs : List Char} {p : Nat × Char}
    (h : p ∈ withOffsets offset xs) : offset ≤ p.1 ∧ p.1 < offset + byteSize xs := by
  induction xs generalizing offset with
  | nil => cases h
  | cons c xs ih =>
    have hpos := c.utf8Size_pos
    rw [byteSize_cons]
    rcases List.mem_cons.mp h with rfl | h
    · dsimp only
      omega
    · have hb := ih h
      omega

namespace Window

/-- What stands in the line of carets below a character in front of them. -/
def padUnder (c : Char) : Char :=
  if c = '\t' then '\t' else ' '

theorem takeWhile_before (before after : List Char) :
    ((withOffsets 0 (before ++ after)).takeWhile fun (i, _) => i < byteSize before).map
      (fun (_, c) => padUnder c) = before.map padUnder := by
  have hin : ∀ p ∈ withOffsets 0 before, decide (p.1 < byteSize before) = true := by
    intro p hp
    have hb := bounds_of_mem_withOffsets hp
    rw [decide_eq_true_eq]
    omega
  have hout : (withOffsets (0 + byteSize before) after).takeWhile
      (fun (i, _) => decide (i < byteSize before)) = [] := by
    cases after with
    | nil => rfl
    | cons c after => simp [withOffsets]
  rw [withOffsets_append, List.takeWhile_append_of_pos hin, hout, List.append_nil]
  conv_rhs => rw [← map_snd_withOffsets 0 before, List.map_map]
  rfl

theorem countP_behind (before after : List Char) :
    (withOffsets 0 (before ++ after)).countP (fun (i, _) => byteSize before ≤ i &&
      i < byteSize (before ++ after)) = after.length := by
  have hout : (withOffsets 0 before).countP (fun (i, _) => byteSize before ≤ i &&
      i < byteSize (before ++ after)) = 0 := by
    rw [List.countP_eq_zero]
    intro p hp
    have hb := bounds_of_mem_withOffsets hp
    simp only [Bool.and_eq_true, decide_eq_true_eq]
    omega
  have hin : (withOffsets (0 + byteSize before) after).countP (fun (i, _) => byteSize before ≤ i &&
      i < byteSize (before ++ after)) = (withOffsets (0 + byteSize before) after).length := by
    rw [List.countP_eq_length]
    intro p hp
    have hb := bounds_of_mem_withOffsets hp
    rw [byteSize_append]
    simp only [Bool.and_eq_true, decide_eq_true_eq]
    omega
  rw [withOffsets_append, List.countP_append, hout, hin, Nat.zero_add]
  conv_rhs => rw [← map_snd_withOffsets (0 + byteSize before) after, List.length_map]

/-- The row of a line that the span covers from some character on. -/
theorem row?_of_covered {span : Span} {line : SourceLine} {before after : List Char}
    (htext : line.text = before ++ after)
    (hstart : max line.start span.start = line.start + byteSize before)
    (hstop : line.stop ≤ span.stop) (hlast : line.start < span.stop)
    (hspan : span.start < span.stop) (number : Nat) :
    row? span number line =
      some ⟨number, line.text, before.map padUnder, max after.length 1⟩ := by
  have hend : line.stop = line.start + (byteSize before + byteSize after) := by
    rw [SourceLine.stop, htext, byteSize_append]
  have hempty : span.isEmpty = false := by
    rw [Span.isEmpty, beq_eq_false_iff_ne]
    omega
  have hcovered : covered span = ⟨span.start, span.stop - 1⟩ := by
    rw [covered, hempty]
    have hmax : max (span.stop - 1) span.start = span.stop - 1 := by omega
    simp [hmax]
  have htouch : Span.intersect? ⟨line.start, line.stop⟩ (covered span) =
      some ⟨max line.start span.start, min line.stop (span.stop - 1)⟩ := by
    rw [hcovered, Span.intersect?]
    exact if_pos (by dsimp only; omega)
  have hunder : Span.intersect? ⟨line.start, line.stop⟩ span =
      some ⟨line.start + byteSize before, line.stop⟩ := by
    rw [Span.intersect?]
    dsimp only
    rw [hstart, Nat.min_eq_left hstop]
    exact if_pos (by omega)
  have hfrom : line.start + byteSize before - line.start = byteSize before := by omega
  have hto : line.stop - line.start = byteSize (before ++ after) := by
    rw [byteSize_append]
    omega
  simp only [row?, htouch, hunder, hfrom, hto, htext, bind, Option.bind, pure]
  have hpadding := takeWhile_before before after
  simp only [padUnder] at hpadding
  rw [countP_behind, hpadding]

theorem row?_of_apart {span : Span} {line : SourceLine} (hspan : span.start < span.stop)
    (h : line.stop < span.start ∨ span.stop ≤ line.start) (number : Nat) :
    row? span number line = none := by
  have hline : line.start ≤ line.stop := Nat.le_add_right _ _
  have hempty : span.isEmpty = false := by
    rw [Span.isEmpty, beq_eq_false_iff_ne]
    omega
  have htouch : Span.intersect? ⟨line.start, line.stop⟩ (covered span) = none := by
    rw [Span.intersect?, covered, hempty]
    exact if_neg (by dsimp only; simp only [Bool.false_eq_true, if_false]; omega)
  simp only [row?, htouch, bind, Option.bind]

theorem of_row?_eq_some {span : Span} {number : Nat} {line : SourceLine} {row : WindowRow}
    (h : row? span number line = some row) : row.number = number ∧ row.text = line.text := by
  simp only [row?, bind, Option.bind_eq_some_iff] at h
  obtain ⟨-, -, underline, -, hrow⟩ := h
  obtain rfl := Option.some.inj hrow
  exact ⟨rfl, rfl⟩

section

variable {span : Span}

theorem rowsFrom_append (number : Nat) (xs ys : List SourceLine) :
    rowsFrom span number (xs ++ ys) =
      rowsFrom span number xs ++ rowsFrom span (number + xs.length) ys := by
  induction xs generalizing number with
  | nil => rfl
  | cons line xs ih =>
    have hnumber : number + (xs.length + 1) = number + 1 + xs.length := by omega
    rw [List.cons_append, rowsFrom, rowsFrom, ih, List.length_cons, hnumber, List.append_assoc]

theorem rowsFrom_eq_nil {lines : List SourceLine}
    (h : ∀ line ∈ lines, ∀ number, row? span number line = none) (number : Nat) :
    rowsFrom span number lines = [] := by
  induction lines generalizing number with
  | nil => rfl
  | cons line lines ih =>
    rw [rowsFrom, h line List.mem_cons_self, ih fun line hline => h line (List.mem_cons_of_mem _ hline)]
    rfl

theorem numbers_rowsFrom {lines : List SourceLine}
    (h : ∀ line ∈ lines, ∀ number, ∃ row, row? span number line = some row) (number : Nat) :
    (rowsFrom span number lines).map WindowRow.number = List.range' number lines.length := by
  induction lines generalizing number with
  | nil => rfl
  | cons line lines ih =>
    obtain ⟨row, hrow⟩ := h line List.mem_cons_self number
    rw [rowsFrom, hrow, List.map_append, ih fun line hline => h line (List.mem_cons_of_mem _ hline),
      List.length_cons, List.range'_succ]
    exact congrArg (· :: _) (of_row?_eq_some hrow).1

theorem exists_of_mem_rowsFrom {lines : List SourceLine} {number : Nat} {row : WindowRow}
    (h : row ∈ rowsFrom span number lines) :
    ∃ k line, lines[k]? = some line ∧ row? span (number + k) line = some row := by
  induction lines generalizing number with
  | nil => cases h
  | cons line lines ih =>
    rw [rowsFrom] at h
    rcases List.mem_append.mp h with h | h
    · exact ⟨0, line, rfl, Option.mem_toList.mp h⟩
    · obtain ⟨k, line', hline', hrow⟩ := ih h
      refine ⟨k + 1, line', hline', ?_⟩
      rwa [Nat.add_right_comm] at hrow

end

/-- Every row of a window shows the line of the text that has its number. -/
theorem getElem?_textLines_of_mem_rows {span : Span} {source : String} {row : WindowRow}
    (h : row ∈ rows span source) : (textLines source.toList)[row.number - 1]? = some row.text := by
  obtain ⟨k, line, hline, hrow⟩ := exists_of_mem_rowsFrom h
  obtain ⟨hnumber, htext⟩ := of_row?_eq_some hrow
  have hk : row.number - 1 = k := by omega
  rw [hk, ← map_text_sourceLines 0, List.getElem?_map, hline, htext]
  rfl

/-- The rows are those of the lines of a directive: none is missing, none too many, and the carets are
under the directive and nothing else. -/
structure Shows (text : String) (d : Directive) (rows : List WindowRow) : Prop where
  ordered : 1 ≤ d.line ∧ d.line ≤ d.endLine
  numbers : rows.map WindowRow.number = List.range' d.line (d.endLine - d.line + 1)
  lines : ∀ row ∈ rows, (textLines text.toList)[row.number - 1]? = some row.text
  first : ∃ row ∈ rows.head?, ∃ before after, row.text = before ++ '#' :: after ∧
    before.flatMap String.utf8EncodeChar = lineHead (utf8 text) d.span.start ∧
      row.padding = before.map padUnder ∧ row.carets = ('#' :: after).length
  later : ∀ row ∈ rows.tail, row.padding = [] ∧ row.carets = max 1 row.text.length

end Window

namespace Scan

/-- The first line of a directive has the `#` in it; its other lines begin behind that. -/
theorem sourceLines_of_hash (offset : Nat) {before : List Char} (hbefore : '\n' ∉ before)
    (body : List Char) :
    ∃ after later, sourceLines offset (before ++ '#' :: body) =
        ⟨offset, before ++ '#' :: after⟩ :: later ∧
      ∀ line ∈ later, offset + byteSize before < line.start := by
  by_cases hmem : '\n' ∈ body
  · obtain ⟨line, rest, rfl, hline⟩ := List.eq_append_cons_of_mem hmem
    have hfirst : '\n' ∉ before ++ '#' :: line := by
      simp [hbefore, hline]
    refine ⟨withoutReturn line, sourceLines (offset + byteSize (before ++ '#' :: line) + 1) rest, ?_, ?_⟩
    · rw [← List.cons_append, ← List.append_assoc, sourceLines_of_linefeed offset hfirst,
        withoutReturn_append before (by simp), withoutReturn_cons (by decide)]
    · intro later hlater
      have hb := bounds_of_mem_sourceLines _ hlater
      rw [byteSize_append] at hb
      omega
  · have hfirst : '\n' ∉ before ++ '#' :: body := by
      simp [hbefore, hmem]
    exact ⟨body, [], by rw [sourceLines_of_no_linefeed offset hfirst, if_neg (by simp)], by simp⟩

section

variable {text : String} {d : Directive} {above before body below : List Char}

theorem Cut.sourceLines_eq (h : Cut text d above before body below) :
    sourceLines 0 text.toList = sourceLines 0 above ++
      (sourceLines (byteSize above) (before ++ '#' :: body) ++ sourceLines d.span.stop below) := by
  rw [h.toList_eq, List.append_assoc, sourceLines_append 0 h.above_closed, Nat.zero_add, h.stop_eq,
    byteSize_append above]
  rcases h.body_closed with hclosed | rfl
  · rw [sourceLines_append _ hclosed]
  · simp [sourceLines]

theorem Cut.line_eq (h : Cut text d above before body below) (hd : StandsIn (utf8 text) d)
    (hl : (utf8 text).count Byte.linefeed < Cursor.lastLine) :
    d.line = 1 + (sourceLines 0 above).length := by
  have htext : text.toList = (above ++ before) ++ ('#' :: body ++ below) := by
    rw [h.toList_eq]
    simp
  rw [hd.line, Cursor.lineOf_of_count_lt hl, h.start_eq, linefeedsBefore_byteSize htext,
    length_sourceLines_of_closed 0 h.above_closed, List.count_append,
    List.count_eq_zero.mpr h.before_line, Nat.add_zero]

theorem Cut.endLine_eq (h : Cut text d above before body below) (hd : StandsIn (utf8 text) d)
    (hl : (utf8 text).count Byte.linefeed < Cursor.lastLine) :
    d.endLine + 1 = d.line + (sourceLines (byteSize above) (before ++ '#' :: body)).length := by
  have hne : before ++ '#' :: body ≠ [] := by simp
  rw [h.line_eq hd hl, hd.endLine, Cursor.lineOf_of_count_lt hl, h.stop_eq,
    linefeedsBefore_last h.toList_eq (by simp), List.dropLast_append_of_ne_nil hne,
    List.count_append, length_sourceLines_of_closed 0 h.above_closed, length_sourceLines _ hne]
  omega

theorem Cut.start_lt_stop (h : Cut text d above before body below) : d.span.start < d.span.stop := by
  have hpos : 0 < byteSize ('#' :: body) := byteSize_pos (by simp)
  rw [h.start_eq, h.stop_eq, ← List.append_assoc, byteSize_append (above ++ before)]
  omega

/-- Only the lines of the directive itself have rows. -/
theorem Cut.rows_eq (h : Cut text d above before body below) :
    Window.rows d.span text = Window.rowsFrom d.span (1 + (sourceLines 0 above).length)
      (sourceLines (byteSize above) (before ++ '#' :: body)) := by
  have hlt := h.start_lt_stop
  have hstart := h.start_eq
  rw [byteSize_append] at hstart
  have habove : ∀ line ∈ sourceLines 0 above, ∀ number,
      Window.row? d.span number line = none := by
    intro line hline number
    have hstop := stop_lt_of_mem_sourceLines 0 h.above_closed hline
    exact Window.row?_of_apart hlt (.inl (by omega)) number
  have hbelow : ∀ line ∈ sourceLines d.span.stop below, ∀ number,
      Window.row? d.span number line = none := by
    intro line hline number
    have hb := bounds_of_mem_sourceLines _ hline
    exact Window.row?_of_apart hlt (.inr hb.1) number
  rw [Window.rows, h.sourceLines_eq, Window.rowsFrom_append, Window.rowsFrom_append,
    Window.rowsFrom_eq_nil habove, Window.rowsFrom_eq_nil hbelow, List.nil_append, List.append_nil]

/-- The row of the `#`, and below it a row for each further line of the directive. -/
theorem Cut.exists_rows (h : Cut text d above before body below) (hd : StandsIn (utf8 text) d)
    (hl : (utf8 text).count Byte.linefeed < Cursor.lastLine) :
    ∃ after later, d.endLine = d.line + later.length ∧
      Window.rows d.span text =
        ⟨d.line, before ++ '#' :: after, before.map Window.padUnder, ('#' :: after).length⟩ ::
          Window.rowsFrom d.span (d.line + 1) later ∧
      ∀ line ∈ later, ∀ number, Window.row? d.span number line =
        some ⟨number, line.text, [], max 1 line.text.length⟩ := by
  have hlt := h.start_lt_stop
  have hstart := h.start_eq
  have hstop := h.stop_eq
  rw [byteSize_append] at hstart hstop
  have hend := h.endLine_eq hd hl
  obtain ⟨after, later, hlines, hbehind⟩ := sourceLines_of_hash (byteSize above) h.before_line body
  have hbounds : ∀ line ∈ sourceLines (byteSize above) (before ++ '#' :: body),
      line.start < d.span.stop ∧ line.stop ≤ d.span.stop := by
    intro line hmem
    have hb := bounds_of_mem_sourceLines _ hmem
    omega
  rw [hlines] at hend hbounds
  refine ⟨after, later, ?_, ?_, ?_⟩
  · rw [List.length_cons] at hend
    omega
  · have hb := hbounds _ List.mem_cons_self
    rw [h.rows_eq, ← h.line_eq hd hl, hlines, Window.rowsFrom,
      Window.row?_of_covered rfl (by dsimp only; omega) hb.2 hb.1 hlt, Nat.max_eq_left (by simp)]
    rfl
  · intro line hmem number
    have hb := hbounds line (List.mem_cons_of_mem _ hmem)
    have hs := hbehind line hmem
    rw [Window.row?_of_covered (List.nil_append line.text).symm (by simp; omega) hb.2 hb.1 hlt,
      Nat.max_comm]
    rfl

theorem Cut.shows (h : Cut text d above before body below) (hd : StandsIn (utf8 text) d)
    (hl : (utf8 text).count Byte.linefeed < Cursor.lastLine) :
    Window.Shows text d (Window.rows d.span text) := by
  obtain ⟨after, later, hend, hrows, hlater⟩ := h.exists_rows hd hl
  have hline := h.line_eq hd hl
  refine ⟨by omega, ?_, fun row hmem => Window.getElem?_textLines_of_mem_rows hmem, ?_, ?_⟩
  · have hcount : d.endLine - d.line + 1 = later.length + 1 := by omega
    have hnumbers := Window.numbers_rowsFrom (fun line hmem number => ⟨_, hlater line hmem number⟩)
      (d.line + 1)
    rw [hrows, List.map_cons, hnumbers, hcount, List.range'_succ]
  · have htext : text.toList = above ++ before ++ ('#' :: body ++ below) := by
      rw [h.toList_eq]
      simp
    refine ⟨_, by rw [hrows]; rfl, before, after, rfl, ?_, rfl, rfl⟩
    rw [h.start_eq, lineHead_byteSize htext h.above_closed h.before_line]
  · intro row hmem
    rw [hrows, List.tail_cons] at hmem
    obtain ⟨k, line, hk, hrow⟩ := Window.exists_of_mem_rowsFrom hmem
    rw [hlater line (List.mem_of_getElem? hk)] at hrow
    obtain rfl := Option.some.inj hrow
    exact ⟨rfl, rfl⟩

end

/-- The window of a directive shows the lines of the directive, each once and with its number, and
nothing else; its carets are under the directive. In print the rows are as wide as the last number needs. -/
theorem directive_window_shows_its_lines {options : Options} {s : Bytes} {text : String}
    (hs : decode? s = some text) (hl : s.count Byte.linefeed < Cursor.lastLine) {d : Directive}
    (hd : d ∈ (scan options (.ofBytes s)).directives) :
    let rows := Window.rows d.span text
    let columns := (toString d.endLine).length + 1
    Window.Shows text d rows ∧ ∀ style, Window.render style d.span text =
      "\n".intercalate (rows.map (WindowRow.printed style columns)) := by
  intro rows columns
  obtain rfl : utf8 text = s := utf8_of_decode? hs
  have hdelivers := delivers_of_mem_scan options _ (Run.mem_directives.mp hd)
  rw [Source.supply_ofBytes] at hdelivers
  obtain ⟨above, before, body, below, hcut⟩ := hdelivers.standsIn.exists_cut
  have hshows := hcut.shows hdelivers.standsIn hl
  have hcolumns : Window.width rows = columns := by
    rw [Window.width_of_numbers hshows.numbers, Nat.add_sub_cancel' hshows.ordered.2]
  refine ⟨hshows, ?_⟩
  intro style
  rw [Window.render_eq_printed, hcolumns]

/-- A tab and a carriage return before the `#`, characters of two bytes, and a last line with nothing on
it but the carriage return that goes with its linefeed. -/
theorem directive_window_of_spliced_lines :
    let text := "é\n\t\r#é\\\nb\\\n\r\nc"
    let d : Directive := ⟨2, 4, ⟨5, 15⟩, utf8 "é\\\nb\\\n\r\n", true⟩
    d ∈ (scan {} (.ofBytes (utf8 text))).directives ∧ Window.Shows text d
      [⟨2, "\t\r#é\\".toList, ['\t', ' '], 3⟩, ⟨3, "b\\".toList, [], 2⟩, ⟨4, [], [], 1⟩] ∧
      Window.render .boldCyan d.span text =
        "\x1b[1;34m 2 |\x1b[0m \t\r#é\\\n   \x1b[1;34m|\x1b[0m \x1b[1;36m\t ^^^\x1b[0m\n" ++
        "\x1b[1;34m 3 |\x1b[0m b\\\n   \x1b[1;34m|\x1b[0m \x1b[1;36m^^\x1b[0m\n" ++
        "\x1b[1;34m 4 |\x1b[0m \n   \x1b[1;34m|\x1b[0m \x1b[1;36m^\x1b[0m" := by
  intro text d
  have hd : d ∈ (scan {} (.ofBytes (utf8 text))).directives := by decide +kernel
  obtain ⟨hshows, hprinted⟩ :=
    directive_window_shows_its_lines (decode?_utf8 text) (by decide +kernel) hd
  have hrows : Window.rows d.span text =
      [⟨2, "\t\r#é\\".toList, ['\t', ' '], 3⟩, ⟨3, "b\\".toList, [], 2⟩, ⟨4, [], [], 1⟩] := by
    decide +kernel
  rw [hrows] at hshows hprinted
  exact ⟨hd, hshows, (hprinted .boldCyan).trans (by decide +kernel)⟩

end Scan

end HashLine
