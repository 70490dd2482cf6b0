import HashLine.Proofs.Location

/-! The lines of a source text, line by line instead of character by character. A text is a line with no
linefeed in it, or such a line, a linefeed and a further text, and what is said here of `sourceLines` is
proved along that split. -/

namespace HashLine

@[elab_as_elim]
theorem line_induction {motive : List Char → Prop} (text : List Char)
    (last : ∀ line, '\n' ∉ line → motive line)
    (more : ∀ line rest, '\n' ∉ line → motive rest → motive (line ++ '\n' :: rest)) :
    motive text := by
  induction hn : text.length using Nat.strong_induction_on generalizing text with
  | _ n ih =>
    by_cases hmem : '\n' ∈ text
    · obtain ⟨line, rest, rfl, hline⟩ := List.eq_append_cons_of_mem hmem
      have hshort : rest.length < n := by
        rw [← hn, List.length_append, List.length_cons]
        omega
      exact more line rest hline (ih rest.length hshort rest rfl)
    · exact last text hmem

/-- A line without the carriage return that a linefeed took with it. -/
def withoutReturn (line : List Char) : List Char :=
  if line.getLast? = some '\r' then line.dropLast else line

/-- The lines of a text: the pieces between its linefeeds, and what follows the last linefeed unless
that is nothing. -/
def textLines (text : List Char) : List (List Char) :=
  let pieces := text.splitOn '\n'
  pieces.dropLast.map withoutReturn ++ pieces.getLast?.toList.filter fun last => !last.isEmpty

theorem withoutReturn_append (xs : List Char) {ys : List Char} (hys : ys ≠ []) :
    withoutReturn (xs ++ ys) = xs ++ withoutReturn ys := by
  simp only [withoutReturn]
  rw [List.getLast?_append_of_ne_nil xs hys, List.dropLast_append_of_ne_nil hys]
  split <;> rfl

theorem withoutReturn_cons {c : Char} (hc : c ≠ '\r') (line : List Char) :
    withoutReturn (c :: line) = c :: withoutReturn line := by
  cases line with
  | nil => simp [withoutReturn, hc]
  | cons d rest => exact withoutReturn_append [c] (by simp)

theorem linefeed_not_mem_withoutReturn {line : List Char} (h : '\n' ∉ line) :
    '\n' ∉ withoutReturn line := by
  simp only [withoutReturn]
  split
  · exact fun hmem => h (List.dropLast_subset line hmem)
  · exact h

/-- All of the line but its carriage return. -/
theorem exists_append_withoutReturn (line : List Char) :
    ∃ cut, line = withoutReturn line ++ cut := by
  simp only [withoutReturn]
  split
  · next h => exact ⟨['\r'], (List.dropLast_append_getLast? '\r' h).symm⟩
  · exact ⟨[], (List.append_nil line).symm⟩

@[simp] theorem byteSize_nil : byteSize [] = 0 := rfl

@[simp] theorem byteSize_cons (c : Char) (rest : List Char) :
    byteSize (c :: rest) = c.utf8Size + byteSize rest := rfl

@[simp] theorem byteSize_append (xs ys : List Char) :
    byteSize (xs ++ ys) = byteSize xs + byteSize ys := by
  induction xs with
  | nil => simp
  | cons c xs ih => simp [ih, Nat.add_assoc]

theorem utf8Size_linefeed : '\n'.utf8Size = 1 := rfl

theorem byteSize_pos {text : List Char} (h : text ≠ []) : 0 < byteSize text := by
  cases text with
  | nil => exact absurd rfl h
  | cons c rest =>
    have hc := c.utf8Size_pos
    rw [byteSize_cons]
    omega

theorem length_flatMap_utf8EncodeChar (text : List Char) :
    (text.flatMap String.utf8EncodeChar).length = byteSize text := by
  induction text with
  | nil => rfl
  | cons c rest ih =>
    rw [List.flatMap_cons, List.length_append, ih, String.length_utf8EncodeChar, byteSize_cons]

/-- An ASCII byte in the UTF-8 form of a text is a character of the text. -/
theorem exists_split_at_ascii {text : List Char} {k : Nat} {b : UInt8} (hb : b.toNat < 128)
    (h : (text.flatMap String.utf8EncodeChar)[k]? = some b) :
    ∃ before c after, text = before ++ c :: after ∧ byteSize before = k ∧ c.toNat = b.toNat := by
  induction text generalizing k with
  | nil => simp at h
  | cons c rest ih =>
    rw [List.flatMap_cons] at h
    by_cases hk : k < c.utf8Size
    · rw [List.getElem?_append_left (by rwa [String.length_utf8EncodeChar])] at h
      obtain ⟨hself, hval⟩ := utf8EncodeChar_of_ascii_mem hb (List.mem_of_getElem? h)
      have hsize : c.utf8Size = 1 := by
        rw [← String.length_utf8EncodeChar, hself]
        rfl
      exact ⟨[], c, rest, rfl, by rw [byteSize_nil]; omega, hval⟩
    · rw [List.getElem?_append_right (by rw [String.length_utf8EncodeChar]; omega),
        String.length_utf8EncodeChar] at h
      obtain ⟨before, d, after, hrest, hsize, hval⟩ := ih h
      exact ⟨c :: before, d, after, by rw [hrest]; rfl, by rw [byteSize_cons]; omega, hval⟩

theorem count_linefeed_flatMap (text : List Char) :
    (text.flatMap String.utf8EncodeChar).count Byte.linefeed = text.count '\n' := by
  induction text with
  | nil => rfl
  | cons c rest ih =>
    have hc := count_linefeed_take_utf8EncodeChar c c.utf8Size
    rw [← String.length_utf8EncodeChar, List.take_length, String.length_utf8EncodeChar] at hc
    have hpos := c.utf8Size_pos
    rw [List.flatMap_cons, List.count_append, ih, hc, List.count_cons, Nat.add_comm]
    simp only [hpos, true_and, beq_iff_eq]

section

variable (offset : Nat)

theorem sourceLines_of_linefeed {line : List Char} (h : '\n' ∉ line) (rest : List Char) :
    sourceLines offset (line ++ '\n' :: rest) =
      ⟨offset, withoutReturn line⟩ :: sourceLines (offset + byteSize line + 1) rest := by
  induction line generalizing offset with
  | nil => rfl
  | cons c line ih =>
    obtain ⟨hc, hline⟩ := not_or.mp fun hmem => h (List.mem_cons.mpr hmem)
    have hnext := ih (offset + c.utf8Size) hline
    by_cases hr : c = '\r' ∧ line = []
    · obtain ⟨rfl, rfl⟩ := hr
      rfl
    · have hsplit : ∀ rest', c = '\r' → line ++ '\n' :: rest = '\n' :: rest' → False := by
        intro rest' hcr heq
        cases line with
        | nil => exact hr ⟨hcr, rfl⟩
        | cons d line => exact hline (List.mem_cons.mpr (.inl (List.cons.inj heq).1.symm))
      have htext : withoutReturn (c :: line) = c :: withoutReturn line := by
        cases line with
        | nil => exact withoutReturn_cons (fun hcr => hr ⟨hcr, rfl⟩) []
        | cons d line => exact withoutReturn_append [c] (by simp)
      rw [List.cons_append, sourceLines.eq_4 _ _ _ (fun hcn => hc hcn.symm) hsplit, hnext, htext,
        byteSize_cons, Nat.add_assoc offset]

theorem sourceLines_of_no_linefeed {line : List Char} (h : '\n' ∉ line) :
    sourceLines offset line = if line = [] then [] else [⟨offset, line⟩] := by
  induction line generalizing offset with
  | nil => rfl
  | cons c line ih =>
    obtain ⟨hc, hline⟩ := not_or.mp fun hmem => h (List.mem_cons.mpr hmem)
    have hsplit : ∀ rest', c = '\r' → line = '\n' :: rest' → False := by
      rintro rest' - rfl
      exact hline List.mem_cons_self
    rw [sourceLines.eq_4 _ _ _ (fun hcn => hc hcn.symm) hsplit, ih _ hline]
    by_cases hnil : line = []
    · simp [hnil]
    · simp [hnil]

/-- Where a line comes from: it has a beginning in the text, no linefeed in it, and something of the
text is its own, if only the linefeed that ends it. -/
theorem exists_of_mem_sourceLines {text : List Char} {line : SourceLine}
    (h : line ∈ sourceLines offset text) :
    ∃ before after, text = before ++ (line.text ++ after) ∧ line.start = offset + byteSize before ∧
      line.text ++ after ≠ [] ∧ '\n' ∉ line.text := by
  induction text using line_induction generalizing offset with
  | last last hlast =>
    rw [sourceLines_of_no_linefeed offset hlast] at h
    split at h
    · cases h
    · next hne =>
      obtain rfl := List.mem_singleton.mp h
      exact ⟨[], [], by simp, rfl, by simpa using hne, hlast⟩
  | more first rest hfirst ih =>
    rw [sourceLines_of_linefeed offset hfirst] at h
    rcases List.mem_cons.mp h with rfl | h
    · obtain ⟨cut, hcut⟩ := exists_append_withoutReturn first
      refine ⟨[], cut ++ '\n' :: rest, ?_, rfl, by simp, linefeed_not_mem_withoutReturn hfirst⟩
      rw [List.nil_append, ← List.append_assoc, ← hcut]
    · obtain ⟨before, after, hrest, hstart, hown, hfree⟩ := ih _ h
      refine ⟨first ++ '\n' :: before, after, ?_, ?_, hown, hfree⟩
      · rw [hrest]
        simp
      · rw [hstart, byteSize_append, byteSize_cons, utf8Size_linefeed]
        omega

theorem bounds_of_mem_sourceLines {text : List Char} {line : SourceLine}
    (h : line ∈ sourceLines offset text) :
    offset ≤ line.start ∧ line.start < offset + byteSize text ∧
      line.stop ≤ offset + byteSize text := by
  obtain ⟨before, after, rfl, hstart, hown, -⟩ := exists_of_mem_sourceLines offset h
  have hpos := byteSize_pos hown
  rw [byteSize_append] at hpos
  rw [SourceLine.stop, byteSize_append, byteSize_append]
  omega

/-- Nothing, or text up to and with a linefeed. -/
def EndsWithLinefeed (text : List Char) : Prop :=
  ∀ c ∈ text.getLast?, c = '\n'

theorem EndsWithLinefeed.of_append_cons {line rest : List Char}
    (h : EndsWithLinefeed (line ++ '\n' :: rest)) : EndsWithLinefeed rest := by
  cases rest with
  | nil => simp [EndsWithLinefeed]
  | cons d rest =>
    intro c hc
    refine h c ?_
    rw [List.getLast?_append_of_ne_nil _ (by simp), List.getLast?_cons_cons]
    exact hc

theorem EndsWithLinefeed.eq_nil {line : List Char} (h : EndsWithLinefeed line) (hn : '\n' ∉ line) :
    line = [] := by
  by_contra hne
  have hlast := List.getLast?_eq_some_getLast hne
  exact hn (h _ hlast ▸ List.getLast_mem hne)

/-- If a linefeed ends the text it also stands behind each of its lines. -/
theorem stop_lt_of_mem_sourceLines {text : List Char} {line : SourceLine}
    (hclosed : EndsWithLinefeed text) (h : line ∈ sourceLines offset text) :
    line.stop < offset + byteSize text := by
  obtain ⟨before, after, rfl, hstart, hown, hfree⟩ := exists_of_mem_sourceLines offset h
  have hafter : after ≠ [] := by
    rintro rfl
    rw [List.append_nil] at hown hclosed
    have hlast := List.getLast?_eq_some_getLast hown
    have hc := hclosed (line.text.getLast hown) (by rw [List.getLast?_append_of_ne_nil _ hown, hlast]; rfl)
    exact hfree (hc ▸ List.getLast_mem hown)
  have hpos := byteSize_pos hafter
  rw [SourceLine.stop, byteSize_append, byteSize_append]
  omega

theorem sourceLines_append {text : List Char} (hclosed : EndsWithLinefeed text) (rest : List Char) :
    sourceLines offset (text ++ rest) =
      sourceLines offset text ++ sourceLines (offset + byteSize text) rest := by
  induction text using line_induction generalizing offset with
  | last last hlast =>
    rw [hclosed.eq_nil hlast]
    rfl
  | more line more hline ih =>
    rw [List.append_assoc, List.cons_append, sourceLines_of_linefeed offset hline,
      sourceLines_of_linefeed offset hline, ih _ hclosed.of_append_cons, List.cons_append,
      byteSize_append, byteSize_cons, utf8Size_linefeed]
    simp only [Nat.add_assoc, Nat.add_comm 1]

theorem length_sourceLines_of_closed {text : List Char} (hclosed : EndsWithLinefeed text) :
    (sourceLines offset text).length = text.count '\n' := by
  induction text using line_induction generalizing offset with
  | last last hlast =>
    rw [hclosed.eq_nil hlast]
    rfl
  | more line more hline ih =>
    rw [sourceLines_of_linefeed offset hline, List.length_cons, ih _ hclosed.of_append_cons,
      List.count_append, List.count_eq_zero.mpr hline, List.count_cons_self, Nat.zero_add]

/-- The last character is no matter: if it is a linefeed it ends the last line. -/
theorem length_sourceLines {text : List Char} (hne : text ≠ []) :
    (sourceLines offset text).length = text.dropLast.count '\n' + 1 := by
  induction text using line_induction generalizing offset with
  | last last hlast =>
    have hcount : last.dropLast.count '\n' = 0 :=
      List.count_eq_zero.mpr fun hmem => hlast (List.dropLast_subset last hmem)
    rw [sourceLines_of_no_linefeed offset hlast, if_neg hne, hcount]
    rfl
  | more line rest hline ih =>
    rw [sourceLines_of_linefeed offset hline, List.length_cons,
      List.dropLast_append_of_ne_nil (by simp), List.count_append, List.count_eq_zero.mpr hline]
    by_cases hrest : rest = []
    · simp [hrest, sourceLines]
    · rw [ih _ hrest, List.dropLast_cons_of_ne_nil hrest, List.count_cons_self, Nat.zero_add]

end

theorem textLines_of_linefeed {line : List Char} (h : '\n' ∉ line) (rest : List Char) :
    textLines (line ++ '\n' :: rest) = withoutReturn line :: textLines rest := by
  have hsplit : (line ++ '\n' :: rest).splitOn '\n' = line :: rest.splitOn '\n' := by
    apply List.splitOnP_append_cons_of_forall_mem
    · intro c hc
      rw [beq_eq_false_iff_ne]
      rintro rfl
      exact h hc
    · rfl
  have hne : rest.splitOn '\n' ≠ [] := List.splitOnP_ne_nil _ _
  simp only [textLines]
  rw [hsplit, List.dropLast_cons_of_ne_nil hne, List.getLast?_cons, List.map_cons, List.cons_append]
  cases hl : (rest.splitOn '\n').getLast? with
  | none => exact absurd (List.getLast?_eq_none_iff.mp hl) hne
  | some last => rfl

theorem textLines_of_no_linefeed {line : List Char} (h : '\n' ∉ line) :
    textLines line = if line = [] then [] else [line] := by
  have hsplit : line.splitOn '\n' = [line] := by
    apply List.splitOnP_eq_singleton
    intro c hc
    rw [beq_eq_false_iff_ne]
    rintro rfl
    exact h hc
  simp only [textLines]
  rw [hsplit]
  by_cases hnil : line = [] <;> simp [hnil]

/-- The source lines are the lines of the text, whatever offset the text stands at. -/
theorem map_text_sourceLines (offset : Nat) (text : List Char) :
    (sourceLines offset text).map SourceLine.text = textLines text := by
  induction text using line_induction generalizing offset with
  | last line hline =>
    rw [sourceLines_of_no_linefeed offset hline, textLines_of_no_linefeed hline]
    split <;> rfl
  | more line rest hline ih =>
    rw [sourceLines_of_linefeed offset hline, textLines_of_linefeed hline, List.map_cons, ih]

end HashLine
