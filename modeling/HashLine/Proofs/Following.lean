import HashLine.Proofs.Rounds

/-! A scan that is not strict follows the course of its input from its first round to its last. -/

namespace HashLine

namespace Scan

section

variable {options : Options} {s : Bytes} {st : State}

theorem line_atOffset_length (s : Bytes) :
    (Cursor.atOffset s s.length).line = Cursor.lineOf s (s.length - 1) := by
  simp [Cursor.atOffset]

theorem endOffset_atOffset_length (s : Bytes) :
    (Cursor.atOffset s s.length).endOffset = s.length := by
  simp [Cursor.endOffset, Cursor.atOffset]

theorem linesSeen_atOffset_length (s : Bytes) : (Cursor.atOffset s s.length).linesSeen =
    if s.length = 0 then 0 else Cursor.lineOf s (s.length - 1) := by
  simp only [Cursor.linesSeen]
  rw [line_atOffset_length]
  simp [Cursor.atOffset]

theorem quotesBefore_length_succ (s : Bytes) :
    quotesBefore s (s.length + 1) = quotesBefore s s.length := by
  simp only [quotesBefore]
  rw [List.take_of_length_le (Nat.le_succ _), List.take_length]

theorem Before.delivery?_finish (h : Before options s s.length st) :
    ((reading s s.length st).finish options).1.filterMap Event.delivery? = closing options s := by
  have hp := h.pending
  simp only [State.finish, closing]
  cases ho : openAt options.gateQuotes s s.length with
  | none =>
    rw [ho] at hp
    simp [hp]
  | some i =>
    rw [ho] at hp
    cases he : options.onEnd <;>
      simp [hp, pendingOf, cutOff, he, State.emit, Event.delivery?, directiveOf,
        endOffset_atOffset_length, line_atOffset_length]

theorem Before.summary_finish (h : Before options s s.length st) :
    ((reading s s.length st).finish options).2 = summaryOf options s := by
  have hp := h.pending
  simp only [State.finish, summaryOf, closing]
  cases ho : openAt options.gateQuotes s s.length with
  | none =>
    rw [ho] at hp
    simp [hp, State.summary, linesSeen_atOffset_length, quotesBefore_length_succ, h.emitted,
      h.strays]
  | some i =>
    rw [ho] at hp
    cases he : options.onEnd <;>
      simp [hp, cutOff, he, State.emit, State.summary, Delivery.directive?, List.filterMap_cons,
        linesSeen_atOffset_length, quotesBefore_length_succ, h.emitted, h.strays]

theorem Before.finish (h : Before options s s.length st) :
    ∃ events, st.round options = .finished events (summaryOf options s) ∧
      events.filterMap Event.delivery? = closing options s := by
  have hb : s[s.length]? = none := List.getElem?_eq_none (Nat.le_refl _)
  refine ⟨((reading s s.length st).finish options).1, ?_, h.delivery?_finish⟩
  simp only [State.round]
  rw [h.step, hb, ← h.summary_finish]

end

theorem range'_cut {m n : Nat} (h : n ≤ m) (k : Nat) :
    List.range' k m = List.range' k n ++ List.range' (k + n) (m - n) := by
  rw [List.range'_append_1, Nat.add_sub_cancel' h]

/-- The deliveries of one round, before those of the rounds behind it. -/
theorem deliveries_past {f : Nat → List Delivery} {events seen : List Event} {k m n : Nat}
    (hn : n ≤ m) (hd : events.filterMap Event.delivery? = (List.range' k n).flatMap f) :
    (events.reverse ++ seen).reverse.filterMap Event.delivery? ++
        (List.range' (k + n) (m - n)).flatMap f =
      seen.reverse.filterMap Event.delivery? ++ (List.range' k m).flatMap f := by
  rw [range'_cut hn, List.flatMap_append, List.reverse_append, List.filterMap_append,
    List.reverse_reverse, hd, List.append_assoc]

theorem resume_before {options : Options} {s : Bytes} {k : Nat} {st : State}
    (h : Before options s k st) (hc : options.continuations ≠ .strict) (hk : k ≤ s.length)
    (seen : List Event) :
    (resume options st seen).deliveries =
        seen.reverse.filterMap Event.delivery? ++
          (List.range' k (s.length - k)).flatMap (deliveriesAt options s) ++ closing options s ∧
      (resume options st seen).outcome = .ok (summaryOf options s) := by
  -- A round reads one byte or two, so the induction is strong, on the number of bytes left.
  induction hm : s.length - k using Nat.strong_induction_on generalizing k st seen with
  | _ m ih =>
    by_cases hlt : k < s.length
    · obtain ⟨n, hn, hkn, st', events, hr, hnext, hd⟩ := h.leads_on hc hlt
      have hi := ih (m - n) (by omega) hnext hkn (events.reverse ++ seen) (by omega)
      rw [resume_of_moved hr]
      refine ⟨?_, hi.2⟩
      rw [hi.1, deliveries_past (by omega) hd]
    · have hend : k = s.length := by omega
      subst hend
      obtain ⟨events, hr, hd⟩ := h.finish
      have hm0 : m = 0 := by omega
      rw [resume_of_finished hr]
      simp [Run.deliveries, hd, hm0]

/-- A scan that is not strict delivers at each offset what the course of its input says. -/
theorem deliveries_scan_ofBytes {options : Options} (hc : options.continuations ≠ .strict)
    (s : Bytes) :
    (scan options (.ofBytes s)).deliveries =
      (List.range s.length).flatMap (deliveriesAt options s) ++ closing options s := by
  have h := (resume_before (before_start options s) hc (Nat.zero_le _) []).1
  simpa [scan, List.range_eq_range'] using h

theorem outcome_scan_ofBytes {options : Options} (hc : options.continuations ≠ .strict)
    (s : Bytes) : (scan options (.ofBytes s)).outcome = .ok (summaryOf options s) :=
  (resume_before (before_start options s) hc (Nat.zero_le _) []).2

end Scan

end HashLine
