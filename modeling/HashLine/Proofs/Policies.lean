import HashLine.Proofs.Directives
import HashLine.Proofs.Strictness

/-! How a scan reports does not change what it recognises. Scans of one input that differ only in
what they do with stray backslashes and with a directive cut off by the end find the same directives
and count the same, and what they deliver differs by exactly the reports in question. -/

namespace HashLine

/-- A directive that the end of the input cut off. -/
def Delivery.isCutOff : Delivery → Bool
  | directive d => !d.terminated
  | warning _ => false

namespace Scan

section

variable (policy : ContinuationPolicy) (onEnd : EndPolicy) (gate : Bool) (s : Bytes)

theorem deliveriesAt_lenient (k : Nat) :
    deliveriesAt ⟨.lenient, onEnd, gate⟩ s k =
      (deliveriesAt ⟨.warn, onEnd, gate⟩ s k).filter (·.stray?.isNone) := by
  simp only [deliveriesAt]
  cases openAt gate s k with
  | none => rfl
  | some i =>
    dsimp only
    simp only [deliveriesIn]
    by_cases hs : StrayAt s k
    · rw [if_pos hs, if_pos hs]
      rfl
    · rw [if_neg hs, if_neg hs]
      split <;> rfl

theorem closing_lenient :
    closing ⟨.lenient, onEnd, gate⟩ s =
      (closing ⟨.warn, onEnd, gate⟩ s).filter (·.stray?.isNone) := by
  refine (List.filter_eq_self.mpr ?_).symm
  intro d hd
  rcases mem_closing hd with ⟨line, span, rfl⟩ | ⟨i, rfl⟩ <;> rfl

theorem deliveries_lenient :
    (scan ⟨.lenient, onEnd, gate⟩ (.ofBytes s)).deliveries =
      (scan ⟨.warn, onEnd, gate⟩ (.ofBytes s)).deliveries.filter (·.stray?.isNone) := by
  rw [deliveries_scan_ofBytes (by simp), deliveries_scan_ofBytes (by simp), List.filter_append,
    List.filter_flatMap, closing_lenient]
  congr 1
  exact List.flatMap_congr fun k _ => deliveriesAt_lenient onEnd gate s k

theorem isCutOff_of_mem_deliveriesAt {options : Options} {k : Nat} {d : Delivery}
    (hd : d ∈ deliveriesAt options s k) : d.isCutOff = false := by
  rcases mem_deliveriesAt hd with rfl | ⟨i, rfl⟩ <;> rfl

theorem isCutOff_course (options : Options) :
    ∀ d ∈ (List.range s.length).flatMap (deliveriesAt options s), d.isCutOff = false := by
  intro d hd
  obtain ⟨k, -, hd⟩ := List.mem_flatMap.mp hd
  exact isCutOff_of_mem_deliveriesAt s hd

theorem closing_discard :
    closing ⟨policy, .discard, gate⟩ s =
      (closing ⟨policy, .flush, gate⟩ s).filter (!·.isCutOff) := by
  simp only [closing]
  cases openAt gate s s.length with
  | none => rfl
  | some i => rfl

theorem deliveries_discard (hc : policy ≠ .strict) :
    (scan ⟨policy, .discard, gate⟩ (.ofBytes s)).deliveries =
      (scan ⟨policy, .flush, gate⟩ (.ofBytes s)).deliveries.filter (!·.isCutOff) := by
  rw [deliveries_scan_ofBytes hc, deliveries_scan_ofBytes hc, List.filter_append, closing_discard]
  congr 1
  refine (List.filter_eq_self.mpr ?_).symm
  intro d hd
  rw [isCutOff_course s ⟨policy, .flush, gate⟩ d hd]
  rfl

theorem countP_isCutOff (hc : policy ≠ .strict) :
    (scan ⟨policy, onEnd, gate⟩ (.ofBytes s)).deliveries.countP Delivery.isCutOff =
      if (openAt gate s s.length).isSome ∧ onEnd = .flush then 1 else 0 := by
  have hcourse : ((List.range s.length).flatMap
      (deliveriesAt ⟨policy, onEnd, gate⟩ s)).countP Delivery.isCutOff = 0 := by
    rw [List.countP_eq_zero]
    intro d hd
    simp [isCutOff_course s _ d hd]
  rw [deliveries_scan_ofBytes hc, List.countP_append, hcourse, Nat.zero_add]
  simp only [closing]
  cases openAt gate s s.length with
  | none => rfl
  | some i => cases onEnd <;> rfl

theorem isSome_endedAt_iff {k : Nat} : (endedAt gate s k).isSome = true ↔ EndsInside gate s k := by
  simp only [endedAt, EndsInside]
  cases openAt gate s k with
  | none => simp
  | some i => by_cases he : EndsAt s k <;> simp [he]

theorem endsBefore_eq_length :
    endsBefore gate s s.length = ((List.range s.length).filterMap (endedAt gate s)).length := by
  simp only [endsBefore]
  rw [List.length_filterMap_eq_countP]
  refine List.countP_congr ?_
  intro k _
  rw [isSome_endedAt_iff, decide_eq_true_eq]

theorem directives_summaryOf :
    (summaryOf ⟨policy, onEnd, gate⟩ s).directives =
      ((List.range s.length).filterMap (endedAt gate s)).length +
        if (openAt gate s s.length).isSome ∧ onEnd = .flush then 1 else 0 := by
  simp only [summaryOf]
  rw [endsBefore_eq_length]
  simp only [closing]
  cases openAt gate s s.length with
  | none => rfl
  | some i => cases onEnd <;> rfl

theorem terminated_directives (hc : policy ≠ .strict) :
    (scan ⟨policy, onEnd, gate⟩ (.ofBytes s)).directives.filter (·.terminated) =
      (List.range s.length).filterMap (endedAt gate s) := by
  have hended : ((List.range s.length).filterMap (endedAt gate s)).filter (·.terminated) =
      (List.range s.length).filterMap (endedAt gate s) := by
    rw [List.filter_eq_self]
    intro d hd
    obtain ⟨k, -, hd⟩ := List.mem_filterMap.mp hd
    obtain ⟨i, rfl⟩ := eq_directiveOf_of_endedAt hd
    rfl
  have hclosing : ((closing ⟨policy, onEnd, gate⟩ s).filterMap Delivery.directive?).filter
      (·.terminated) = [] := by
    rw [List.filter_eq_nil_iff]
    intro d hd
    obtain ⟨x, hx, hd⟩ := List.mem_filterMap.mp hd
    rcases mem_closing hx with ⟨line, span, rfl⟩ | ⟨i, rfl⟩
    · simp [Delivery.directive?] at hd
    · rw [← Option.some.inj hd]
      simp [directiveOf]
  rw [directives_scan_eq_ended hc, List.filter_append, hended, hclosing, List.append_nil]

end

/-- However a scan reports, it finds the same ended directives and counts the same lines, stray
backslashes and open ends. Silence about stray backslashes takes away their warnings and nothing
else; a discarding end takes away the one directive that is cut off. -/
theorem reporting_keeps_recognition (gate : Bool) (s : Bytes) :
    let run := fun policy onEnd => scan ⟨policy, onEnd, gate⟩ (.ofBytes s)
    (∃ (complete : List Directive) (lines strays : Nat) (unterminated : Bool) (quotes : Quotes),
      ∀ policy onEnd, policy ≠ .strict →
        let cut := if unterminated ∧ onEnd = .flush then 1 else 0
        (run policy onEnd).outcome =
            .ok ⟨lines, complete.length + cut, strays, unterminated, quotes⟩ ∧
          (run policy onEnd).directives.filter (·.terminated) = complete ∧
          (run policy onEnd).deliveries.countP Delivery.isCutOff = cut) ∧
      (∀ onEnd, (run .lenient onEnd).deliveries =
        (run .warn onEnd).deliveries.filter (·.stray?.isNone)) ∧
      ∀ policy, policy ≠ .strict →
        (run policy .discard).deliveries = (run policy .flush).deliveries.filter (!·.isCutOff) := by
  intro run
  refine ⟨?_, fun onEnd => deliveries_lenient onEnd gate s,
    fun policy hc => deliveries_discard policy gate s hc⟩
  let seen := summaryOf ⟨.lenient, .discard, gate⟩ s
  refine ⟨(List.range s.length).filterMap (endedAt gate s), seen.lines, seen.strayBackslashes,
    (openAt gate s s.length).isSome, seen.quotes, ?_⟩
  intro policy onEnd hc cut
  refine ⟨?_, terminated_directives policy onEnd gate s hc, countP_isCutOff policy onEnd gate s hc⟩
  have hd := directives_summaryOf policy onEnd gate s
  have ho : (run policy onEnd).outcome = .ok (summaryOf ⟨policy, onEnd, gate⟩ s) :=
    outcome_scan_ofBytes hc s
  rw [ho, ← hd]
  rfl

/-- A backslash before a space and one that ends the input, told of by one scan and not by the
other. -/
theorem reporting_keeps_recognition_last_backslash :
    let s := utf8 "#a\\ \n#c\\"
    (scan ⟨.lenient, .flush, true⟩ (.ofBytes s)).deliveries =
        [.directive ⟨1, 1, ⟨0, 5⟩, utf8 "a\\ \n", true⟩, .warning (.unterminated 2 ⟨5, 8⟩),
          .directive ⟨2, 2, ⟨5, 8⟩, utf8 "c\\", false⟩] ∧
      (scan ⟨.warn, .discard, true⟩ (.ofBytes s)).deliveries =
        [.warning (.stray ⟨1, ⟨2, 3⟩, some Byte.space⟩),
          .directive ⟨1, 1, ⟨0, 5⟩, utf8 "a\\ \n", true⟩, .warning (.stray ⟨2, ⟨7, 8⟩, none⟩),
          .warning (.unterminated 2 ⟨5, 8⟩)] ∧
      ∃ lines strays quotes,
        (scan ⟨.lenient, .flush, true⟩ (.ofBytes s)).outcome =
            .ok ⟨lines, 2, strays, true, quotes⟩ ∧
          (scan ⟨.warn, .discard, true⟩ (.ofBytes s)).outcome =
            .ok ⟨lines, 1, strays, true, quotes⟩ := by
  intro s
  obtain ⟨⟨complete, lines, strays, unterminated, quotes, hrun⟩, hlenient, hdiscard⟩ :=
    reporting_keeps_recognition true s
  refine ⟨(hlenient .flush).trans (by decide +kernel),
    (hdiscard .warn (by decide)).trans (by decide +kernel), lines, strays, quotes, ?_⟩
  obtain ⟨hflush, hcomplete, -⟩ := hrun .lenient .flush (by decide)
  obtain ⟨hwarn, -, -⟩ := hrun .warn .discard (by decide)
  have hlength : complete.length = 1 := by
    rw [← hcomplete]
    decide +kernel
  have hopen : unterminated = true := by
    have hu : (scan ⟨.warn, .discard, true⟩ (.ofBytes s)).outcome.toOption.map (·.unterminated) =
        some true := by
      decide +kernel
    rw [hwarn] at hu
    exact Option.some.inj hu
  rw [hflush, hwarn, hlength, hopen]
  exact ⟨rfl, rfl⟩

end Scan

end HashLine
