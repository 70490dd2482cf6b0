import HashLine.Proofs.Following
import HashLine.Proofs.Regions

/-! The directives that a scan delivers are those of the regions of its input, in their order. -/

namespace HashLine

namespace Scan

def endedAt (gate : Bool) (s : Bytes) (k : Nat) : Option Directive :=
  (openAt gate s k).bind fun i =>
    if EndsAt s k then some (directiveOf s i (k + 1) true) else none

/-- The directive of a region as a scan counts its lines. -/
def Region.found? (onEnd : EndPolicy) (s : Bytes) (r : Region) : Option Directive :=
  match r.stop, onEnd with
  | some j, _ => some (directiveOf s r.start (j + 1) true)
  | none, .flush => some (directiveOf s r.start s.length false)
  | none, .discard => none

theorem endedAt_of_none {gate : Bool} {s : Bytes} {k : Nat} (ho : openAt gate s k = none) :
    endedAt gate s k = none := by
  simp [endedAt, ho]

theorem endedAt_of_not_ends {gate : Bool} {s : Bytes} {k : Nat} (he : ¬ EndsAt s k) :
    endedAt gate s k = none := by
  simp only [endedAt]
  cases openAt gate s k with
  | none => rfl
  | some i => exact if_neg he

theorem endedAt_of_ends {gate : Bool} {s : Bytes} {i k : Nat} (ho : openAt gate s k = some i)
    (he : EndsAt s k) : endedAt gate s k = some (directiveOf s i (k + 1) true) := by
  simp [endedAt, ho, he]

theorem eq_directiveOf_of_endedAt {gate : Bool} {s : Bytes} {k : Nat} {d : Directive}
    (h : endedAt gate s k = some d) : ∃ i, d = directiveOf s i (k + 1) true := by
  obtain ⟨i, -, hd⟩ := Option.bind_eq_some_iff.mp h
  split at hd
  · exact ⟨i, (Option.some.inj hd).symm⟩
  · cases hd

theorem directives_deliveriesAt (options : Options) (s : Bytes) (k : Nat) :
    (deliveriesAt options s k).filterMap Delivery.directive? =
      (endedAt options.gateQuotes s k).toList := by
  simp only [deliveriesAt, endedAt]
  cases openAt options.gateQuotes s k with
  | none => rfl
  | some i =>
    dsimp only [Option.bind_some]
    simp only [deliveriesIn]
    by_cases hs : StrayAt s k
    · have he : ¬ EndsAt s k := fun he => he.not_stray hs
      rw [if_pos hs, if_neg he]
      split <;> rfl
    · rw [if_neg hs]
      split <;> rfl

theorem filterMap_endedAt_eq_nil {gate : Bool} {s : Bytes} {k n : Nat}
    (h : ∀ m, k ≤ m → m < k + n → endedAt gate s m = none) :
    (List.range' k n).filterMap (endedAt gate s) = [] := by
  rw [List.filterMap_eq_nil_iff]
  intro m hm
  rw [List.mem_range'_1] at hm
  exact h m hm.1 hm.2

theorem directives_cutOff (options : Options) (s : Bytes) (i : Nat) :
    (cutOff options s i).filterMap Delivery.directive? =
      (Region.found? options.onEnd s ⟨i, none⟩).toList := by
  simp only [cutOff, Region.found?]
  cases options.onEnd <;> rfl

theorem range'_split {k j n : Nat} (hkj : k ≤ j) (hjn : j < n) :
    List.range' k (n - k) =
      List.range' k (j - k) ++ j :: List.range' (j + 1) (n - (j + 1)) := by
  obtain ⟨m, rfl⟩ := Nat.exists_eq_add_of_le hkj
  obtain ⟨l, rfl⟩ := Nat.exists_eq_add_of_lt hjn
  have hall : k + m + l + 1 - k = m + (l + 1) := by omega
  have hleft : k + m - k = m := by omega
  have hright : k + m + l + 1 - (k + m + 1) = l := by omega
  rw [hall, hleft, hright, ← List.range'_append_1, List.range'_succ]

theorem directives_from {options : Options} {s : Bytes} {k : Nat}
    (ho : openAt options.gateQuotes s k = none) (hk : k ≤ s.length) :
    (List.range' k (s.length - k)).filterMap (endedAt options.gateQuotes s) ++
        (closing options s).filterMap Delivery.directive? =
      (regionsFrom options.gateQuotes s k).filterMap (Region.found? options.onEnd s) := by
  fun_induction regionsFrom options.gateQuotes s k with
  | case1 k hi =>
    have hn := (firstFrom_eq_none_iff fun _ => StartsAt.lt_length).mp hi
    have hgap : ∀ m, k ≤ m → openAt options.gateQuotes s m = none := fun m hm =>
      openAt_of_no_start ho hm fun l hl _ => hn l hl
    rw [filterMap_endedAt_eq_nil fun m hm _ => endedAt_of_none (hgap m hm)]
    simp [closing, hgap s.length hk]
  | case2 k i hi hj =>
    obtain ⟨hki, hil, hgap, hi'⟩ := openAt_of_firstFrom ho hi
    have hn := (firstFrom_eq_none_iff fun _ => EndsAt.lt_length).mp hj
    have hnone : ∀ m, k ≤ m → m < k + (s.length - k) →
        endedAt options.gateQuotes s m = none := by
      intro m hkm _
      by_cases hm : m ≤ i
      · exact endedAt_of_none (hgap m hkm hm)
      · exact endedAt_of_not_ends (hn m (by omega))
    rw [filterMap_endedAt_eq_nil hnone]
    simp only [closing, openAt_of_endless hi' hj hil, directives_cutOff, List.nil_append]
    cases hf : Region.found? options.onEnd s ⟨i, none⟩ <;> simp [hf]
  | case3 k i hi j hj ih =>
    obtain ⟨hki, hil, hgap, hi'⟩ := openAt_of_firstFrom ho hi
    obtain ⟨hij, he, hbody, hn, hj'⟩ := openAt_of_ended hi' hj
    have hjl := he.lt_length
    -- The offsets before `j` end nothing, `j` ends the region, the rest are those of the induction.
    have hsplit := range'_split (show k ≤ j by omega) hjl
    have hnone : ∀ m, k ≤ m → m < k + (j - k) → endedAt options.gateQuotes s m = none := by
      intro m hkm hmj
      by_cases hm : m ≤ i
      · exact endedAt_of_none (hgap m hkm hm)
      · exact endedAt_of_not_ends (hn m (by omega) (by omega))
    have hat := endedAt_of_ends (hbody j hij (Nat.le_refl _)) he
    rw [hsplit, List.filterMap_append, filterMap_endedAt_eq_nil hnone, List.nil_append,
      List.filterMap_cons_some hat, List.cons_append, ih hj' hjl]
    rfl

/-- A scan delivers the directives that end, offset by offset, and then the one that is cut off. -/
theorem directives_scan_eq_ended {options : Options} (hc : options.continuations ≠ .strict)
    (s : Bytes) :
    (scan options (.ofBytes s)).directives =
      (List.range s.length).filterMap (endedAt options.gateQuotes s) ++
        (closing options s).filterMap Delivery.directive? := by
  simp only [Run.directives]
  rw [deliveries_scan_ofBytes hc, List.filterMap_append, List.filterMap_flatMap]
  simp only [directives_deliveriesAt]
  rw [← List.filterMap_eq_flatMap_toList]

theorem directives_scan_ofBytes {options : Options} (hc : options.continuations ≠ .strict)
    (s : Bytes) :
    (scan options (.ofBytes s)).directives =
      (regions options.gateQuotes s).filterMap (Region.found? options.onEnd s) := by
  have hd := directives_from (show openAt options.gateQuotes s 0 = none from rfl) (Nat.zero_le _)
  rw [directives_scan_eq_ended hc, List.range_eq_range']
  exact hd

def Region.directive (s : Bytes) (r : Region) (stop : Nat) (terminated : Bool) : Directive where
  line := 1 + linefeedsBefore s r.start
  endLine := 1 + linefeedsBefore s (stop - 1)
  span := ⟨r.start, stop⟩
  text := (s.take stop).drop (r.start + 1)
  terminated := terminated

/-- The directive that a region stands for. One that the end of the input cuts off counts only if
it is to be flushed. -/
def Region.directive? (onEnd : EndPolicy) (s : Bytes) (r : Region) : Option Directive :=
  match r.stop, onEnd with
  | some j, _ => some (r.directive s (j + 1) true)
  | none, .flush => some (r.directive s s.length false)
  | none, .discard => none

theorem Region.found?_eq_directive? {s : Bytes} (hl : s.count Byte.linefeed < Cursor.lastLine)
    (onEnd : EndPolicy) (r : Region) : r.found? onEnd s = r.directive? onEnd s := by
  have hd : ∀ stop terminated,
      directiveOf s r.start stop terminated = r.directive s stop terminated := by
    intro stop terminated
    simp only [directiveOf, Region.directive, Cursor.lineOf_of_count_lt hl]
  simp only [Region.found?, Region.directive?]
  split <;> simp only [hd]

/-- The directives of a scan are those of the regions of its input. -/
theorem directives_scan_eq_regions {options : Options} {s : Bytes}
    (hc : options.continuations = .lenient ∨ options.continuations = .warn)
    (hl : s.count Byte.linefeed < Cursor.lastLine) :
    (scan options (.ofBytes s)).directives =
      (regions options.gateQuotes s).filterMap (Region.directive? options.onEnd s) := by
  have hns : options.continuations ≠ .strict := by
    rcases hc with h | h <;> simp [h]
  rw [directives_scan_ofBytes hns]
  congr 1
  funext r
  exact Region.found?_eq_directive? hl options.onEnd r

/-- A `#` in quotes is passed over, one on a spliced line is text, and the last is cut off. -/
theorem directives_scan_quoted_spliced_cut :
    (scan ⟨.warn, .flush, true⟩ (.ofBytes (utf8 "\"\n#\"\n #a\\\n#\\\n\n\t#b\\"))).directives =
      [⟨3, 5, ⟨6, 14⟩, utf8 "a\\\n#\\\n\n", true⟩,
        ⟨6, 6, ⟨15, 18⟩, utf8 "b\\", false⟩] := by
  rw [directives_scan_eq_regions (.inr rfl) (by decide +kernel)]
  decide +kernel

end Scan

end HashLine
