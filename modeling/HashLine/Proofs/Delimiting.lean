import HashLine.Proofs.Written

/-! Scanning a written directive with something behind it. A directive that ends itself is found as it
is written, and what follows is found as it would be alone, further on. A directive that was cut off
behind a backslash does not end itself: written out, it takes in the line behind it. -/

namespace HashLine

namespace Scan

section

variable {gate : Bool} {a b : Bytes}

theorem endedAt_append_left {k : Nat} (hk : k < a.length) :
    endedAt gate (a ++ b) k = endedAt gate a k := by
  simp only [endedAt]
  rw [openAt_append_left b (Nat.le_of_lt hk)]
  cases ho : openAt gate a k with
  | none => rfl
  | some i =>
    have hi := openAt_lt ho
    dsimp only [Option.bind_some]
    simp only [endsAt_append_left b hk]
    rw [directiveOf_append_left (by omega) hk]

theorem Closed.endedAt_append_right (h : Closed gate a) (k : Nat) :
    endedAt gate (a ++ b) (a.length + k) =
      (endedAt gate b k).map (Directive.movedOn a.length (a.count Byte.linefeed)) := by
  simp only [endedAt]
  rw [h.openAt_append_right]
  cases ho : openAt gate b k with
  | none => rfl
  | some i =>
    have hi := openAt_lt ho
    dsimp only [Option.map_some, Option.bind_some]
    simp only [h.endsAt_append_right]
    rw [Nat.add_assoc, directiveOf_append_right (by omega)]
    split <;> rfl

end

section

variable {options : Options} {a b : Bytes} (h : Closed options.gateQuotes a)

include h

theorem Closed.directives_closing_append :
    (closing options (a ++ b)).filterMap Delivery.directive? =
      ((closing options b).filterMap Delivery.directive?).map
        (Directive.movedOn a.length (a.count Byte.linefeed)) := by
  simp only [closing]
  rw [List.length_append, h.openAt_append_right]
  cases ho : openAt options.gateQuotes b b.length with
  | none => rfl
  | some i =>
    have hi := openAt_lt ho
    dsimp only [Option.map_some]
    rw [directives_cutOff, directives_cutOff]
    simp only [Region.found?]
    rw [List.length_append, directiveOf_append_right hi]
    cases options.onEnd <;> rfl

/-- Behind an input that leaves nothing open a scan finds what it finds alone, further on. -/
theorem Closed.directives_append (hc : options.continuations ≠ .strict) :
    (scan options (.ofBytes (a ++ b))).directives =
      (scan options (.ofBytes a)).directives ++
        (scan options (.ofBytes b)).directives.map
          (Directive.movedOn a.length (a.count Byte.linefeed)) := by
  have hleft : (List.range a.length).filterMap (endedAt options.gateQuotes (a ++ b)) =
      (List.range a.length).filterMap (endedAt options.gateQuotes a) :=
    List.filterMap_congr fun k hk => endedAt_append_left (List.mem_range.mp hk)
  have hnone : closing options a = [] := by
    simp only [closing, h.closed]
  rw [directives_scan_eq_ended hc, directives_scan_eq_ended hc, directives_scan_eq_ended hc,
    h.directives_closing_append, hnone, List.length_append, List.range_add, List.filterMap_append,
    hleft, List.filterMap_map]
  have hright : endedAt options.gateQuotes (a ++ b) ∘ (a.length + ·) =
      fun k => (endedAt options.gateQuotes b k).map
        (Directive.movedOn a.length (a.count Byte.linefeed)) :=
    funext fun k => h.endedAt_append_right k
  rw [hright, ← List.map_filterMap]
  simp

end

theorem directivesIn_eq (s : Bytes) : directivesIn s = .ok (scan {} (.ofBytes s)).directives := by
  have ho := outcome_scan_ofBytes (show ({} : Options).continuations ≠ .strict by decide) s
  simp only [directivesIn]
  rw [ho]
  rfl

theorem directives_eq_found (s : Bytes) :
    (scan {} (.ofBytes s)).directives = (regions false s).filterMap (Region.found? .flush s) :=
  directives_scan_ofBytes (show ({} : Options).continuations ≠ .strict by decide) s

theorem written_directiveOf {w : Bytes} (hw : w.head? = some Byte.hash) (terminated : Bool) :
    Byte.hash :: (directiveOf w 0 w.length terminated).text = w := by
  cases w with
  | nil => cases hw
  | cons b w =>
    obtain rfl := Option.some.inj hw
    simp [directiveOf]

section

variable {w : Bytes}

theorem Whole.directives (h : Whole w) :
    (scan {} (.ofBytes w)).directives = [directiveOf w 0 w.length true] := by
  have hpos := h.length_pos
  have hlast : w.length - 1 + 1 = w.length := by omega
  rw [directives_eq_found, h.regions]
  change [directiveOf w 0 (w.length - 1 + 1) true] = _
  rw [hlast]

theorem Unended.directives (h : Unended w) :
    (scan {} (.ofBytes w)).directives = [directiveOf w 0 w.length false] := by
  rw [directives_eq_found, h.regions]
  rfl

theorem Whole.directives_append (h : Whole w) (r : Bytes) :
    (scan {} (.ofBytes (w ++ r))).directives =
      directiveOf w 0 w.length true ::
        (scan {} (.ofBytes r)).directives.map
          (Directive.movedOn w.length (w.count Byte.linefeed)) := by
  have hc : Closed ({} : Options).gateQuotes w := h.closed
  rw [hc.directives_append (by decide), h.directives]
  rfl

/-- The directive that begins with a written one that nothing ends is cut off as well, or longer. -/
theorem Unended.first_directive (h : Unended w) (r : Bytes) :
    ∃ first rest, (scan {} (.ofBytes (w ++ r))).directives = first :: rest ∧
      (first.terminated = false ∨ w.length ≤ first.text.length) := by
  have hne : w ≠ [] := by
    rintro rfl
    cases h.hash
  have hs : (w ++ r).head? = some Byte.hash := by
    rw [List.head?_append_of_ne_nil _ hne]
    exact h.hash
  rw [directives_eq_found]
  cases hj : firstFrom (w ++ r) (EndsAt (w ++ r)) 1 with
  | none =>
    rw [regions_of_endless hs hj]
    exact ⟨directiveOf (w ++ r) 0 (w ++ r).length false, [], rfl, .inl rfl⟩
  | some j =>
    obtain ⟨hend, -, -⟩ := (firstFrom_eq_some_iff fun _ => EndsAt.lt_length).mp hj
    have hlt := hend.lt_length
    have hle : w.length ≤ j := by
      by_contra hlt
      exact h.endless j ((endsAt_append_left r (by omega)).mp hend)
    rw [regions_of_ended hs hj]
    refine ⟨directiveOf (w ++ r) 0 (j + 1) true, _, List.filterMap_cons_some rfl, .inr ?_⟩
    have hlength : (directiveOf (w ++ r) 0 (j + 1) true).text.length = j := by
      simp only [directiveOf, List.length_drop, List.length_take]
      omega
    rw [hlength]
    exact hle

end

/-- With `r` behind it, `w` is found first, as one ended directive, and then what is in `r`. -/
def Delimited (w r : Bytes) : Prop :=
  ∃ first found, directivesIn r = .ok found ∧
    directivesIn (w ++ r) =
      .ok (first :: found.map (Directive.movedOn w.length (w.count Byte.linefeed))) ∧
    first.terminated = true ∧ w = Byte.hash :: first.text

theorem Whole.delimited {w : Bytes} (h : Whole w) (r : Bytes) : Delimited w r := by
  refine ⟨directiveOf w 0 w.length true, _, directivesIn_eq r, ?_, rfl, ?_⟩
  · rw [directivesIn_eq, h.directives_append]
  · exact (written_directiveOf h.hash true).symm

theorem Unended.not_delimited {w : Bytes} (h : Unended w) (r : Bytes) : ¬ Delimited w r := by
  rintro ⟨first, found, -, hfirst, hterminated, hw⟩
  obtain ⟨first', rest, hdirectives, hfirst'⟩ := h.first_directive r
  rw [directivesIn_eq, hdirectives] at hfirst
  obtain ⟨rfl, -⟩ := List.cons.inj (Except.ok.inj hfirst)
  have hlength := congrArg List.length hw
  rw [List.length_cons] at hlength
  rcases hfirst' with hcut | hlong
  · rw [hterminated] at hcut
    cases hcut
  · omega

theorem delivers_directive (options : Options) (source : Source) {d : Directive}
    (hd : d ∈ (scan options source).directives) :
    Delivers options.gateQuotes source.supply.1 (.directive d) := by
  obtain ⟨x, hx, hxd⟩ := List.mem_filterMap.mp hd
  cases x with
  | warning w => cases hxd
  | directive d' =>
    obtain rfl := Option.some.inj hxd
    exact delivers_of_mem_scan options source hx

theorem lineOf_le (s : Bytes) (k : Nat) : Cursor.lineOf s k ≤ s.count Byte.linefeed + 1 := by
  have hk := linefeedsBefore_le s k
  simp only [Cursor.lineOf]
  omega

theorem map_movedOn_eq_shift {a r : Bytes} {found : List Directive}
    (hl : (a ++ r).count Byte.linefeed < Cursor.lastLine) (hr : directivesIn r = .ok found) :
    found.map (Directive.movedOn a.length (a.count Byte.linefeed)) =
      found.map (Directive.shift a.length (a.count Byte.linefeed)) := by
  rw [directivesIn_eq] at hr
  obtain rfl := Except.ok.inj hr
  rw [List.count_append] at hl
  refine List.map_congr_left fun d hd => ?_
  have h := delivers_directive {} _ hd
  rw [Source.supply_ofBytes] at h
  have hline (k : Nat) : Cursor.lineOf r k + a.count Byte.linefeed ≤ Cursor.lastLine := by
    have hk := lineOf_le r k
    omega
  cases h with
  | ended => exact Directive.movedOn_eq_shift _ _ (hline _) (hline _)
  | cutOff => exact Directive.movedOn_eq_shift _ _ (hline _) (hline _)

/-- A directive that a scan has found delimits itself, written out before anything else, unless it was
cut off behind a backslash or behind a spliced line end; then it never does. What follows is moved on
by its bytes and its lines, as far as lines are counted. -/
theorem source_delimited_iff (options : Options) (source : Source) {d : Directive}
    (hd : d ∈ (scan options source).directives) (r : Bytes) :
    (Delimited d.source r ↔ d.terminated = true ∨
        (d.text.getLast? ≠ some Byte.backslash ∧ d.text.getLast? ≠ some Byte.linefeed)) ∧
      ((d.source ++ r).count Byte.linefeed < Cursor.lastLine → ∀ found, directivesIn r = .ok found →
        found.map (Directive.movedOn d.source.length (d.source.count Byte.linefeed)) =
          found.map (Directive.shift d.source.length (d.source.count Byte.linefeed))) := by
  have h := delivers_directive options source hd
  refine ⟨⟨?_, ?_⟩, fun hl found hr => map_movedOn_eq_shift hl hr⟩
  · intro hdelimited
    by_contra he
    exact (h.unended_source he).not_delimited r hdelimited
  · intro he
    exact (h.whole_source he).delimited r

/-- Written out before the next line, a directive that the end of its input cut off in a word. -/
theorem source_delimited_cut_off_in_word :
    Delimited (utf8 "#a\\\nb\n") (utf8 " #c\n") := by
  have hd : (⟨2, 3, ⟨4, 9⟩, utf8 "a\\\nb", false⟩ : Directive) ∈
      (scan ⟨.warn, .flush, true⟩ (.ofBytes (utf8 "'#'\n#a\\\nb"))).directives := by
    decide +kernel
  exact (source_delimited_iff ⟨.warn, .flush, true⟩ _ hd (utf8 " #c\n")).1.mpr
    (.inr (by decide +kernel))

/-- Cut off behind a backslash and written out, a directive takes in the one behind it. -/
theorem source_joins_next_directive :
    ∃ d ∈ (scan {} (.ofBytes (utf8 "#a\\"))).directives,
      d.source = utf8 "#a\\\n" ∧ ¬ Delimited d.source (utf8 "#b\n") ∧
        directivesIn (d.source ++ utf8 "#b\n") =
          .ok [⟨1, 2, ⟨0, 7⟩, utf8 "a\\\n#b\n", true⟩] := by
  have hd : (⟨1, 1, ⟨0, 3⟩, utf8 "a\\", false⟩ : Directive) ∈
      (scan {} (.ofBytes (utf8 "#a\\"))).directives := by
    decide +kernel
  have hopen := (delivers_directive {} _ hd).unended_source (by decide +kernel)
  exact ⟨_, hd, by decide +kernel, hopen.not_delimited (utf8 "#b\n"), by decide +kernel⟩

end Scan

end HashLine
