import HashLine.Proofs.Breakage

/-! Where each delivery of a scan comes from. Whatever the options and however the source comes to its
end, a delivery belongs to a place of the bytes that the source has brought. -/

namespace HashLine

namespace Run

theorem mem_directives {r : Run} {d : Directive} :
    d ∈ r.directives ↔ .directive d ∈ r.deliveries := by
  rw [directives, List.mem_filterMap]
  constructor
  · rintro ⟨x, hx, hxd⟩
    cases x with
    | directive d' =>
      obtain rfl := Option.some.inj hxd
      exact hx
    | warning w => cases hxd
  · intro hd
    exact ⟨_, hd, rfl⟩

theorem mem_warnings {r : Run} {w : Warning} : w ∈ r.warnings ↔ .warning w ∈ r.deliveries := by
  rw [warnings, List.mem_filterMap]
  constructor
  · rintro ⟨x, hx, hxw⟩
    cases x with
    | directive d => cases hxw
    | warning w' =>
      obtain rfl := Option.some.inj hxw
      exact hx
  · intro hw
    exact ⟨_, hw, rfl⟩

end Run

namespace Scan

inductive Delivers (gate : Bool) (s : Bytes) : Delivery → Prop where
  | stray {k : Nat} (h : StrayInside gate s k) : Delivers gate s (.warning (.stray (strayOf s k)))
  | ended {i k : Nat} (ho : openAt gate s k = some i) (he : EndsAt s k) :
    Delivers gate s (.directive (directiveOf s i (k + 1) true))
  | unterminated {i : Nat} (ho : openAt gate s s.length = some i) :
    Delivers gate s (.warning (.unterminated (Cursor.lineOf s i) ⟨i, s.length⟩))
  | cutOff {i : Nat} (ho : openAt gate s s.length = some i) :
    Delivers gate s (.directive (directiveOf s i s.length false))

section

variable {options : Options} {s : Bytes} {d : Delivery}

theorem delivers_of_mem_deliveriesAt {k : Nat} (hd : d ∈ deliveriesAt options s k) :
    Delivers options.gateQuotes s d := by
  simp only [deliveriesAt] at hd
  cases ho : openAt options.gateQuotes s k with
  | none => simp [ho] at hd
  | some i =>
    rw [ho] at hd
    simp only [deliveriesIn] at hd
    by_cases hs : StrayAt s k
    · rw [if_pos hs] at hd
      split at hd
      · rw [List.mem_singleton.mp hd]
        exact .stray ⟨by rw [ho]; rfl, hs⟩
      · simp at hd
    · rw [if_neg hs] at hd
      split at hd
      · next he =>
        rw [List.mem_singleton.mp hd]
        exact .ended ho he
      · simp at hd

theorem delivers_of_mem_closing (hd : d ∈ closing options s) : Delivers options.gateQuotes s d := by
  simp only [closing] at hd
  cases ho : openAt options.gateQuotes s s.length with
  | none => simp [ho] at hd
  | some i =>
    rw [ho] at hd
    rcases List.mem_cons.mp hd with rfl | hd
    · exact .unterminated ho
    · split at hd
      · rw [List.mem_singleton.mp hd]
        exact .cutOff ho
      · simp at hd

theorem delivers_of_mem_loose (hc : options.continuations ≠ .strict) (source : Source)
    (hd : d ∈ (scan options source).deliveries) :
    Delivers options.gateQuotes source.supply.1 d := by
  rcases hs : source.supply with ⟨b, _ | e⟩
  · rw [scan_of_supply options hs, deliveries_scan_ofBytes hc] at hd
    rcases List.mem_append.mp hd with hd | hd
    · obtain ⟨k, -, hd⟩ := List.mem_flatMap.mp hd
      exact delivers_of_mem_deliveriesAt hd
    · exact delivers_of_mem_closing hd
  · rw [(deliveries_broken hs hc []).1, List.append_nil] at hd
    obtain ⟨k, -, hd⟩ := List.mem_flatMap.mp hd
    exact delivers_of_mem_deliveriesAt hd

end

theorem mem_deliveries_of_strictly {options : Options} {source : Source} {d : Delivery}
    (hd : d ∈ (scan (strictly options) source).deliveries) :
    d ∈ (scan (warning options) source).deliveries := by
  rw [deliveries_strictly] at hd
  exact (List.takeWhile_sublist _).subset hd

/-- What a scan delivers comes from a place of the bytes that its source brings. -/
theorem delivers_of_mem_scan (options : Options) (source : Source) {d : Delivery}
    (hd : d ∈ (scan options source).deliveries) :
    Delivers options.gateQuotes source.supply.1 d := by
  by_cases hc : options.continuations = .strict
  · rw [← strictly_eq_self hc] at hd
    have hw := mem_deliveries_of_strictly hd
    exact delivers_of_mem_loose (warning_not_strict options) source hw
  · exact delivers_of_mem_loose hc source hd

theorem eq_of_stray? {d : Delivery} {b : StrayBackslash} (h : d.stray? = some b) :
    d = .warning (.stray b) := by
  match d with
  | .directive _ => cases h
  | .warning (.stray _) => rw [Option.some.inj h]
  | .warning (.unterminated _ _) => cases h

/-- Only a strict scan fails at a stray backslash, at the first that the warning one tells of. -/
theorem delivers_of_stray_outcome {options : Options} {source : Source} {b : StrayBackslash}
    (h : (scan options source).outcome = .error (.stray b)) :
    Delivers options.gateQuotes source.supply.1 (.warning (.stray b)) := by
  have hloose (options : Options) (hc : options.continuations ≠ .strict) :
      (scan options source).outcome ≠ .error (.stray b) := by
    rcases hs : source.supply with ⟨s, _ | e⟩
    · rw [scan_of_supply options hs, outcome_scan_ofBytes hc]
      simp
    · rw [(deliveries_broken hs hc []).2]
      simp
  by_cases hc : options.continuations = .strict
  · rw [← strictly_eq_self hc, outcome_strictly] at h
    split at h
    · exact absurd h (hloose (warning options) (warning_not_strict options))
    · next b' hfirst =>
      obtain ⟨d, hd, hb⟩ := List.exists_of_findSome?_eq_some hfirst
      rw [← Failure.stray.inj (Except.error.inj h), ← eq_of_stray? hb]
      exact delivers_of_mem_loose (warning_not_strict options) source hd
  · exact absurd h (hloose options hc)

end Scan

end HashLine
