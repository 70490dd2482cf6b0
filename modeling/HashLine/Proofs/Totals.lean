import HashLine.Proofs.Policies
import HashLine.Proofs.Strays

/-! The totals of a scan. Each number in the summary is kept up byte by byte, on its own; at the end it is
the number of what was delivered, or what the input as a whole says. -/

namespace HashLine

/-- A summary that agrees with the input, with what its scan delivered, and with what a scan delivers
that warns of stray backslashes. -/
structure Summary.Exact (summary : Summary) (s : Bytes) (calls warned : List Delivery) : Prop where
  lines : summary.lines =
    s.count Byte.linefeed + if s = [] ∨ s.getLast? = some Byte.linefeed then 0 else 1
  directives : summary.directives = (calls.filterMap Delivery.directive?).length
  strays : summary.strayBackslashes = (warned.filterMap Delivery.stray?).length
  unterminated : summary.unterminated = true ↔
    ∃ line span, .warning (.unterminated line span) ∈ calls
  quotes : summary.quotes = Quotes.after .unquoted none s

namespace Scan

section

variable {options : Options} {s : Bytes}

theorem unterminated_summaryOf (hc : options.continuations ≠ .strict) :
    (summaryOf options s).unterminated = true ↔
      ∃ line span, .warning (.unterminated line span) ∈ (scan options (.ofBytes s)).deliveries := by
  rw [deliveries_scan_ofBytes hc]
  simp only [summaryOf]
  constructor
  · intro ho
    obtain ⟨i, hi⟩ := Option.isSome_iff_exists.mp ho
    refine ⟨Cursor.lineOf s i, ⟨i, s.length⟩, List.mem_append_right _ ?_⟩
    rw [closing, hi]
    exact List.mem_cons_self
  · rintro ⟨line, span, hmem⟩
    rcases List.mem_append.mp hmem with hcourse | hclosing
    · obtain ⟨k, -, hk⟩ := List.mem_flatMap.mp hcourse
      exact (delivered_of_mem hk).elim
    · rw [closing] at hclosing
      cases ho : openAt options.gateQuotes s s.length with
      | none => simp [ho] at hclosing
      | some i => rfl

theorem summaryOf_exact (hc : options.continuations ≠ .strict)
    (hl : s.count Byte.linefeed < Cursor.lastLine) :
    (summaryOf options s).Exact s (scan options (.ofBytes s)).deliveries
      (scan (warning options) (.ofBytes s)).deliveries where
  lines := lines_summaryOf hl options
  directives := by
    have hdirectives := congrArg List.length (directives_scan_eq_ended hc s)
    rw [List.length_append, ← endsBefore_eq_length] at hdirectives
    exact hdirectives.symm
  strays := by
    rw [strays_scan_ofBytes rfl, List.length_map, ← List.countP_eq_length_filter]
    rfl
  unterminated := unterminated_summaryOf hc
  quotes := by
    show quotesBefore s s.length = _
    rw [quotesBefore, List.take_length]

/-- A strict scan that succeeds has delivered what the warning one delivers. -/
theorem deliveries_of_strictly_ok {source : Source} {summary : Summary}
    (h : (scan (strictly options) source).outcome = .ok summary) :
    (scan (strictly options) source).deliveries = (scan (warning options) source).deliveries := by
  have hquiet := (quiet_of_strictly_ok options source h).1
  rw [deliveries_strictly, List.takeWhile_eq_self_iff]
  intro d hd
  rw [hquiet d hd]
  rfl

end

/-- The summary of a scan that succeeds is exact, whatever the options. -/
theorem summary_is_exact {options : Options} {s : Bytes} {summary : Summary}
    (hl : s.count Byte.linefeed < Cursor.lastLine)
    (h : (scan options (.ofBytes s)).outcome = .ok summary) :
    summary.Exact s (scan options (.ofBytes s)).deliveries
      (scan { options with continuations := .warn } (.ofBytes s)).deliveries := by
  by_cases hc : options.continuations = .strict
  · rw [← strictly_eq_self hc] at h ⊢
    have hwarned := (quiet_of_strictly_ok options _ h).2
    rw [outcome_scan_ofBytes (warning_not_strict options)] at hwarned
    rw [deliveries_of_strictly_ok h, ← Except.ok.inj hwarned]
    exact summaryOf_exact (warning_not_strict options) hl
  · rw [outcome_scan_ofBytes hc] at h
    rw [← Except.ok.inj h]
    exact summaryOf_exact hc hl

/-- A stray backslash that nobody is told of, an input that stops inside a directive which is then
dropped, and a quote left open in it. -/
theorem summary_of_dropped_directive :
    let s := utf8 "#a \\ \n#b\\\n\"c"
    let run := scan ⟨.lenient, .discard, false⟩ (.ofBytes s)
    run.outcome = .ok ⟨3, 1, 1, true, .double⟩ ∧
      (⟨3, 1, 1, true, .double⟩ : Summary).Exact s run.deliveries
        (scan ⟨.warn, .discard, false⟩ (.ofBytes s)).deliveries := by
  intro s run
  have hsummary : run.outcome = .ok ⟨3, 1, 1, true, .double⟩ := by decide +kernel
  exact ⟨hsummary, summary_is_exact (by decide +kernel) hsummary⟩

end Scan

end HashLine
