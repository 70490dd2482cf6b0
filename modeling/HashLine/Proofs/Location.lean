import HashLine.Proofs.Deliveries
import HashLine.Report.Render

/-! Two counts of one line. A scan counts linefeeds as they pass under its cursor; a diagnostic counts
them again in the text, before the place that its span starts at. -/

namespace HashLine

/-- An ASCII byte is in the form of no character but its own, and there it stands alone. -/
theorem utf8EncodeChar_of_ascii_mem {c : Char} {b : UInt8} (hb : b.toNat < 128)
    (hmem : b ∈ String.utf8EncodeChar c) : String.utf8EncodeChar c = [b] ∧ c.toNat = b.toNat := by
  have hbyte (n : Nat) (h : b = UInt8.ofNat n) : b.toNat = n % 256 :=
    (congrArg UInt8.toNat h).trans UInt8.toNat_ofNat'
  rcases Nat.lt_or_ge c.val.toNat 0x80 with hascii | hlong
  · have hself : String.utf8EncodeChar c = [UInt8.ofNat c.val.toNat] := by
      rw [String.utf8EncodeChar, if_pos (by omega)]
    rw [hself, List.mem_singleton] at hmem
    have hval : c.val.toNat = b.toNat := by
      have h := hbyte _ hmem
      omega
    exact ⟨by rw [hself, hmem], hval⟩
  · -- Every byte of a longer form has its highest bit set.
    have hhigh : ∀ b ∈ String.utf8EncodeChar c, ∃ n, b = UInt8.ofNat n ∧ 128 ≤ n ∧ n < 256 := by
      intro b hb
      rw [String.utf8EncodeChar, if_neg (by omega)] at hb
      split at hb
      · rcases List.mem_pair.mp hb with rfl | rfl <;> exact ⟨_, rfl, by omega, by omega⟩
      · split at hb
        · simp only [List.mem_cons, List.not_mem_nil, or_false] at hb
          rcases hb with rfl | rfl | rfl <;> exact ⟨_, rfl, by omega, by omega⟩
        · simp only [List.mem_cons, List.not_mem_nil, or_false] at hb
          rcases hb with rfl | rfl | rfl | rfl <;> exact ⟨_, rfl, by omega, by omega⟩
    obtain ⟨n, hn, hlow, hup⟩ := hhigh _ hmem
    have h := hbyte n hn
    omega

theorem linefeed_not_mem_utf8EncodeChar {c : Char} (hc : c ≠ '\n') :
    Byte.linefeed ∉ String.utf8EncodeChar c := by
  intro hmem
  obtain ⟨-, hval⟩ := utf8EncodeChar_of_ascii_mem (by decide) hmem
  exact hc (Char.ext (UInt32.toNat_inj.mp hval))

theorem count_linefeed_take_utf8EncodeChar (c : Char) (n : Nat) :
    ((String.utf8EncodeChar c).take n).count Byte.linefeed =
      if 0 < n ∧ c = '\n' then 1 else 0 := by
  by_cases hc : c = '\n'
  · subst hc
    have hself : String.utf8EncodeChar '\n' = [Byte.linefeed] := by decide
    rw [hself]
    cases n with
    | zero => rfl
    | succ n => simp
  · rw [if_neg fun h => hc h.2, List.count_eq_zero]
    exact fun h => linefeed_not_mem_utf8EncodeChar hc ((List.take_sublist _ _).subset h)

theorem countP_withOffsets (text : List Char) (offset k : Nat) :
    (withOffsets offset text).countP (fun (i, c) => i < k && c == '\n') =
      ((text.flatMap String.utf8EncodeChar).take (k - offset)).count Byte.linefeed := by
  induction text generalizing offset with
  | nil => simp [withOffsets]
  | cons c rest ih =>
    have hrest : k - (offset + c.utf8Size) = k - offset - c.utf8Size := by omega
    have hhead : ((if (decide (offset < k) && c == '\n') = true then 1 else 0) : Nat) =
        if 0 < k - offset ∧ c = '\n' then 1 else 0 := by
      have hlt : 0 < k - offset ↔ offset < k := by omega
      simp [hlt]
    rw [withOffsets, List.countP_cons, ih, hrest, List.flatMap_cons, List.take_append,
      List.count_append, String.length_utf8EncodeChar, count_linefeed_take_utf8EncodeChar, Nat.add_comm]
    exact congrArg (· + _) hhead

/-- The line of an offset as a diagnostic finds it, by counting linefeeds in the text. -/
theorem lineNumber_eq (text : String) (k : Nat) :
    lineNumber text.toList k = 1 + linefeedsBefore (utf8 text) k := by
  rw [lineNumber, countP_withOffsets, Nat.sub_zero, linefeedsBefore, utf8_eq_flatMap]

namespace Delivery

def line : Delivery → Nat
  | directive d => d.line
  | warning w => w.line

def span : Delivery → Span
  | directive d => d.span
  | warning w => w.span

end Delivery

namespace Scan

theorem Delivers.line_eq {gate : Bool} {s : Bytes} {d : Delivery} (h : Delivers gate s d) :
    d.line = Cursor.lineOf s d.span.start := by
  cases h <;> rfl

theorem Delivers.line_eq_lineNumber {gate : Bool} {text : String} {d : Delivery}
    (hl : (utf8 text).count Byte.linefeed < Cursor.lastLine) (h : Delivers gate (utf8 text) d) :
    lineNumber text.toList d.span.start = d.line := by
  rw [h.line_eq, lineNumber_eq, Cursor.lineOf_of_count_lt hl]

end Scan

namespace Diagnostic

/-- Counted in its source, the diagnostic starts on this line; and shown in its source it is what is
shown at this line, with the lines of the source that it touches below. -/
def ShownAt (d : Diagnostic) (source : String) (line : Nat) : Prop :=
  lineNumber source.toList d.span.start = line ∧
    ∀ file, d.print file (some source) = d.printAt file line ++
      let window := Window.render d.severity.style d.span source
      if window = "" then "" else "\n" ++ window

/-- The two ways to write a place are one. -/
theorem printAt_eq (d : Diagnostic) (file : String) (line : Nat) :
    d.printAt file line = d.header ++ "\n" ++ (location file ++ ":" ++ toString line) := by
  have hmargin : "\n " = "\n" ++ " " := rfl
  simp only [printAt, header, location, hmargin, String.append_assoc]

theorem shownAt_of_lineNumber {d : Diagnostic} {source : String} {line : Nat}
    (h : lineNumber source.toList d.span.start = line) : d.ShownAt source line := by
  refine ⟨h, ?_⟩
  intro file
  simp only [print, printIn, h, String.isEmpty_iff, printAt_eq]
  split
  · rw [String.append_empty]
  · rw [String.append_assoc]

end Diagnostic

theorem Finding.span_of_mem_diagnostics {f : Finding} {d : Diagnostic} (hd : d ∈ f.diagnostics) :
    d.span = f.directive.span := by
  simp only [diagnostics] at hd
  split at hd
  · rw [List.mem_singleton.mp hd]
  · obtain ⟨name, -, rfl⟩ := List.mem_map.mp hd
    rfl

theorem Filter.directive_of_finding? {filter : Filter} {d : Directive} {f : Finding}
    (h : filter.finding? d = some f) : f.directive = d := by
  obtain ⟨matched, -, rfl⟩ := Option.map_eq_some_iff.mp h
  rfl

namespace Scan

/-- The line that a scan gives a place is the line that a diagnostic finds there: for every warning,
for the stray backslash that stops a strict scan, and for every finding. -/
theorem counted_line_eq_shown_line {options : Options} {s : Bytes} {text : String}
    (hs : decode? s = some text) (hl : s.count Byte.linefeed < Cursor.lastLine) :
    (∀ w ∈ (scan options (.ofBytes s)).warnings, w.diagnostic.ShownAt text w.line) ∧
      (∀ b, (scan options (.ofBytes s)).outcome = .error (.stray b) →
        ∃ d, (Failure.stray b).diagnostic? = some d ∧ d.ShownAt text b.line) ∧
      ∀ filter report, Report.ofSource options filter (.ofBytes s) = .ok report →
        ∀ f ∈ report.findings, ∀ d ∈ f.diagnostics, d.ShownAt text f.directive.line := by
  obtain rfl : utf8 text = s := utf8_of_decode? hs
  have hsupply : (Source.ofBytes (utf8 text)).supply.1 = utf8 text := by
    rw [Source.supply_ofBytes]
  have hline {d : Delivery} (hd : d ∈ (scan options (.ofBytes (utf8 text))).deliveries) :
      lineNumber text.toList d.span.start = d.line := by
    have h := delivers_of_mem_scan options _ hd
    rw [hsupply] at h
    exact h.line_eq_lineNumber hl
  refine ⟨?_, ?_, ?_⟩
  · intro w hw
    obtain ⟨x, hx, hxw⟩ := List.mem_filterMap.mp hw
    cases x with
    | directive d => cases hxw
    | warning w' =>
      obtain rfl := Option.some.inj hxw
      apply Diagnostic.shownAt_of_lineNumber
      cases w' <;> exact hline hx
  · intro b hb
    have h := delivers_of_stray_outcome hb
    rw [hsupply] at h
    exact ⟨_, rfl, Diagnostic.shownAt_of_lineNumber (h.line_eq_lineNumber hl)⟩
  · intro filter report hreport f hf d hd
    obtain ⟨summary, -, rfl⟩ := Report.ofSource_eq_ok.mp hreport
    obtain ⟨directive, hdirective, hfinding⟩ := List.mem_filterMap.mp hf
    obtain ⟨x, hx, hxd⟩ := List.mem_filterMap.mp hdirective
    cases x with
    | warning w => cases hxd
    | directive d' =>
      obtain rfl := Option.some.inj hxd
      apply Diagnostic.shownAt_of_lineNumber
      rw [Finding.span_of_mem_diagnostics hd, Filter.directive_of_finding? hfinding]
      exact hline hx

/-- Behind a two-byte character, a carriage return and a spliced line end. -/
theorem counted_line_behind_splice :
    let text := "é\r\n\t#a\\\n\\ b\r\n"
    let stray : StrayBackslash := ⟨3, ⟨9, 10⟩, some Byte.space⟩
    Diagnostic.ShownAt ⟨.warning, stray.remark, ⟨9, 10⟩⟩ text 3 ∧
      Diagnostic.ShownAt ⟨.error, stray.remark, ⟨9, 10⟩⟩ text 3 ∧
      Diagnostic.ShownAt ⟨.note, .directive "a", ⟨5, 14⟩⟩ text 2 := by
  intro text stray
  have hs : decode? (utf8 text) = some text := decode?_utf8 text
  have hl : (utf8 text).count Byte.linefeed < Cursor.lastLine := by decide +kernel
  obtain ⟨hwarn, -, hfound⟩ := @counted_line_eq_shown_line ⟨.warn, .flush, false⟩ _ _ hs hl
  obtain ⟨-, hstrict, -⟩ := @counted_line_eq_shown_line ⟨.strict, .flush, false⟩ _ _ hs hl
  refine ⟨hwarn (.stray stray) (by decide +kernel), ?_, ?_⟩
  · obtain ⟨d, hd, hshown⟩ := hstrict stray (by decide +kernel)
    rw [← Option.some.inj hd] at hshown
    exact hshown
  · exact hfound {} ⟨[⟨⟨2, 3, ⟨5, 14⟩, utf8 "a\\\n\\ b\r\n", true⟩, []⟩], [.stray stray],
      ⟨3, 1, 1, false, .unquoted⟩⟩ (by decide +kernel) _ List.mem_cons_self _ (by decide +kernel)

end Scan

end HashLine
