import HashLine.Proofs.Seam
import HashLine.Proofs.Strictness

/-! Scanning two inputs one after the other. When the first is clean at its end, the scan of the whole
is the scan of the first followed by that of the second, with offsets and lines moved on. -/

namespace HashLine

def Span.shift (bytes : Nat) (s : Span) : Span :=
  ⟨bytes + s.start, bytes + s.stop⟩

section

variable (bytes lines : Nat)

def StrayBackslash.shift (b : StrayBackslash) : StrayBackslash :=
  { b with line := b.line + lines, span := b.span.shift bytes }

def Warning.shift : Warning → Warning
  | stray b => stray (b.shift bytes lines)
  | unterminated line span => unterminated (line + lines) (span.shift bytes)

def Directive.shift (d : Directive) : Directive :=
  { d with line := d.line + lines, endLine := d.endLine + lines, span := d.span.shift bytes }

/-- Moved on as far as lines are counted. -/
def Directive.movedOn (d : Directive) : Directive :=
  { d with
    line := min (d.line + lines) Cursor.lastLine
    endLine := min (d.endLine + lines) Cursor.lastLine
    span := d.span.shift bytes }

theorem Directive.movedOn_eq_shift {d : Directive} (h : d.line + lines ≤ Cursor.lastLine)
    (h' : d.endLine + lines ≤ Cursor.lastLine) : d.movedOn bytes lines = d.shift bytes lines := by
  simp only [movedOn, shift, Nat.min_eq_left h, Nat.min_eq_left h']

def Delivery.shift : Delivery → Delivery
  | directive d => directive (d.shift bytes lines)
  | warning w => warning (w.shift bytes lines)

def Failure.shift : Failure → Failure
  | unreadable e => unreadable e
  | stray b => stray (b.shift bytes lines)

theorem Delivery.stray?_shift (d : Delivery) :
    (d.shift bytes lines).stray? = d.stray?.map (·.shift bytes lines) := by
  match d with
  | .directive _ => rfl
  | .warning (.stray _) => rfl
  | .warning (.unterminated _ _) => rfl

theorem Delivery.directive?_shift (d : Delivery) :
    (d.shift bytes lines).directive? = d.directive?.map (·.shift bytes lines) := by
  cases d <;> rfl

end

/-- What a scan has seen that went on after one that saw `s`. -/
def Summary.append (s t : Summary) : Summary where
  lines := s.lines + t.lines
  directives := s.directives + t.directives
  strayBackslashes := s.strayBackslashes + t.strayBackslashes
  unterminated := t.unterminated
  quotes := t.quotes

namespace Scan

section

variable {options : Options} {a : Bytes} {b : Bytes}

theorem directiveOf_append_left {i stop : Nat} (hi : i < stop) (hstop : stop ≤ a.length)
    (terminated : Bool) :
    directiveOf (a ++ b) i stop terminated = directiveOf a i stop terminated := by
  simp only [directiveOf]
  rw [lineOf_append_left b (by omega), lineOf_append_left b (by omega),
    List.take_append_of_le_length hstop]

theorem directiveOf_append_right {i stop : Nat} (hi : i < stop) (terminated : Bool) :
    directiveOf (a ++ b) (a.length + i) (a.length + stop) terminated =
      (directiveOf b i stop terminated).movedOn a.length (a.count Byte.linefeed) := by
  have hlast : a.length + stop - 1 = a.length + (stop - 1) := by omega
  have htext : (a ++ b.take stop).drop (a.length + i + 1) = (b.take stop).drop (i + 1) := by
    rw [Nat.add_assoc, List.drop_append, List.drop_of_length_le (Nat.le_add_right _ _),
      Nat.add_sub_cancel_left, List.nil_append]
  simp only [directiveOf, Directive.movedOn, Span.shift, hlast, lineOf_append_right,
    take_append_seam, htext]

theorem strayOf_append_left (h : EndsLine a) {k : Nat} (hs : StrayAt a k) :
    strayOf (a ++ b) k = strayOf a k := by
  have hk := h.succ_lt_of_backslash hs.1
  simp only [strayOf]
  rw [lineOf_append_left b (by omega), List.getElem?_append_left hk]

theorem deliveriesAt_append_left (h : EndsLine a) {k : Nat} (hk : k < a.length) :
    deliveriesAt options (a ++ b) k = deliveriesAt options a k := by
  simp only [deliveriesAt]
  rw [openAt_append_left b (Nat.le_of_lt hk)]
  cases ho : openAt options.gateQuotes a k with
  | none => rfl
  | some i =>
    have hi := openAt_lt ho
    dsimp only
    simp only [deliveriesIn]
    simp only [strayAt_append_left b h hk, endsAt_append_left b hk]
    by_cases hs : StrayAt a k
    · rw [if_pos hs, if_pos hs, strayOf_append_left h hs]
    · rw [if_neg hs, if_neg hs, directiveOf_append_left (by omega) hk]

end

theorem countP_range_append {p q r : Nat → Prop} [DecidablePred p] [DecidablePred q]
    [DecidablePred r] {m n : Nat} (hp : ∀ k < m, (p k ↔ q k)) (hr : ∀ k, p (m + k) ↔ r k) :
    (List.range (m + n)).countP (p ·) = (List.range m).countP (q ·) + (List.range n).countP (r ·) := by
  have hleft : (List.range m).countP (p ·) = (List.range m).countP (q ·) :=
    List.countP_congr fun k hk => by simpa using hp k (List.mem_range.mp hk)
  rw [List.range_add, List.countP_append, hleft, List.countP_map]
  simp only [Function.comp_def, hr]

structure Joined (gate : Bool) (a b : Bytes) : Prop extends Clean gate a where
  counted : (a ++ b).count Byte.linefeed < Cursor.lastLine

section

variable {options : Options} {a b : Bytes} (h : Joined options.gateQuotes a b)

include h

theorem Joined.count_add : a.count Byte.linefeed + b.count Byte.linefeed < Cursor.lastLine := by
  rw [← List.count_append]
  exact h.counted

theorem Joined.lineOf_append_right (k : Nat) :
    Cursor.lineOf (a ++ b) (a.length + k) = Cursor.lineOf b k + a.count Byte.linefeed := by
  have hb : b.count Byte.linefeed < Cursor.lastLine := by
    have hc := h.count_add
    omega
  rw [Cursor.lineOf_of_count_lt h.counted, Cursor.lineOf_of_count_lt hb,
    linefeedsBefore_append_right]
  omega

theorem Joined.directiveOf_append_right {i stop : Nat} (hi : i < stop) (terminated : Bool) :
    directiveOf (a ++ b) (a.length + i) (a.length + stop) terminated =
      (directiveOf b i stop terminated).shift a.length (a.count Byte.linefeed) := by
  have hline (k : Nat) : Cursor.lineOf b k + a.count Byte.linefeed ≤ Cursor.lastLine := by
    rw [← h.lineOf_append_right]
    exact Nat.min_le_right _ _
  rw [Scan.directiveOf_append_right hi]
  exact Directive.movedOn_eq_shift _ _ (hline i) (hline (stop - 1))

theorem Joined.strayOf_append_right (k : Nat) :
    strayOf (a ++ b) (a.length + k) = (strayOf b k).shift a.length (a.count Byte.linefeed) := by
  simp only [strayOf, StrayBackslash.shift, Span.shift, h.lineOf_append_right, Nat.add_assoc,
    getElem?_append_seam]

theorem Joined.deliveriesAt_append_right (k : Nat) :
    deliveriesAt options (a ++ b) (a.length + k) =
      (deliveriesAt options b k).map (Delivery.shift a.length (a.count Byte.linefeed)) := by
  simp only [deliveriesAt]
  rw [h.openAt_append_right]
  cases ho : openAt options.gateQuotes b k with
  | none => rfl
  | some i =>
    have hi := openAt_lt ho
    dsimp only [Option.map_some]
    simp only [deliveriesIn]
    simp only [h.strayAt_append_right, h.endsAt_append_right, h.strayOf_append_right, Nat.add_assoc,
      h.directiveOf_append_right (Nat.lt_succ_of_lt hi)]
    split
    · split <;> rfl
    · split <;> rfl

theorem Joined.closing_append :
    closing options (a ++ b) =
      (closing options b).map (Delivery.shift a.length (a.count Byte.linefeed)) := by
  simp only [closing]
  rw [List.length_append, h.openAt_append_right]
  cases ho : openAt options.gateQuotes b b.length with
  | none => rfl
  | some i =>
    have hi := openAt_lt ho
    dsimp only [Option.map_some]
    simp only [cutOff]
    rw [h.lineOf_append_right, List.length_append, h.directiveOf_append_right hi]
    cases options.onEnd <;> rfl

theorem Joined.closing_left : closing options a = [] := by
  simp only [closing, h.closed]

theorem Joined.deliveries_append (hc : options.continuations ≠ .strict) :
    (scan options (.ofBytes (a ++ b))).deliveries =
      (scan options (.ofBytes a)).deliveries ++
        (scan options (.ofBytes b)).deliveries.map
          (Delivery.shift a.length (a.count Byte.linefeed)) := by
  have hleft : (List.range a.length).flatMap (deliveriesAt options (a ++ b)) =
      (List.range a.length).flatMap (deliveriesAt options a) :=
    List.flatMap_congr fun k hk => deliveriesAt_append_left h.endsLine (List.mem_range.mp hk)
  rw [deliveries_scan_ofBytes hc, deliveries_scan_ofBytes hc, deliveries_scan_ofBytes hc,
    h.closing_append, h.closing_left, List.length_append, List.range_add, List.flatMap_append, hleft]
  simp [List.flatMap_map, List.map_flatMap, h.deliveriesAt_append_right]

theorem Joined.endsBefore_append :
    endsBefore options.gateQuotes (a ++ b) (a ++ b).length =
      endsBefore options.gateQuotes a a.length + endsBefore options.gateQuotes b b.length := by
  rw [List.length_append]
  refine countP_range_append ?_ ?_
  · intro k hk
    simp only [EndsInside]
    rw [openAt_append_left b (Nat.le_of_lt hk), endsAt_append_left b hk]
  · intro k
    simp only [EndsInside]
    rw [h.openAt_append_right, h.endsAt_append_right, Option.isSome_map]

theorem Joined.straysBefore_append :
    straysBefore options.gateQuotes (a ++ b) (a ++ b).length =
      straysBefore options.gateQuotes a a.length + straysBefore options.gateQuotes b b.length := by
  rw [List.length_append]
  refine countP_range_append ?_ ?_
  · intro k hk
    simp only [StrayInside]
    rw [openAt_append_left b (Nat.le_of_lt hk), strayAt_append_left b h.endsLine hk]
  · intro k
    simp only [StrayInside]
    rw [h.openAt_append_right, h.strayAt_append_right, Option.isSome_map]

theorem Joined.lines_left :
    (summaryOf options a).lines = a.count Byte.linefeed := by
  have hc : a.count Byte.linefeed < Cursor.lastLine := by
    have hab := h.count_add
    omega
  have hend : a = [] ∨ a.getLast? = some Byte.linefeed := h.endsLine
  rw [lines_summaryOf hc, if_pos hend, Nat.add_zero]

theorem Joined.lines_append :
    (summaryOf options (a ++ b)).lines =
      (summaryOf options a).lines + (summaryOf options b).lines := by
  rw [h.lines_left]
  simp only [summaryOf]
  by_cases hb : b.length = 0
  · obtain rfl : b = [] := List.length_eq_zero_iff.mp hb
    have hleft := h.lines_left
    simp only [summaryOf] at hleft
    rw [List.append_nil, hleft]
    rfl
  · have hlast : a.length + b.length - 1 = a.length + (b.length - 1) := by omega
    have hab : a.length + b.length ≠ 0 := by omega
    rw [List.length_append, if_neg hab, if_neg hb, hlast, h.lineOf_append_right, Nat.add_comm]

theorem Joined.directives_append :
    (summaryOf options (a ++ b)).directives =
      (summaryOf options a).directives + (summaryOf options b).directives := by
  simp only [summaryOf]
  rw [h.endsBefore_append, h.closing_append, h.closing_left, List.filterMap_map]
  have hcount : ((closing options b).filterMap
      (Delivery.directive? ∘ Delivery.shift a.length (a.count Byte.linefeed))).length =
        ((closing options b).filterMap Delivery.directive?).length := by
    simp only [Function.comp_def, Delivery.directive?_shift]
    rw [← List.map_filterMap, List.length_map]
  rw [hcount]
  simp only [List.filterMap_nil, List.length_nil]
  omega

theorem Joined.summaryOf_append :
    summaryOf options (a ++ b) = (summaryOf options a).append (summaryOf options b) := by
  have hlines := h.lines_append
  have hdirectives := h.directives_append
  have hstrays := h.straysBefore_append
  have hopen : (openAt options.gateQuotes (a ++ b) (a ++ b).length).isSome =
      (openAt options.gateQuotes b b.length).isSome := by
    rw [List.length_append, h.openAt_append_right, Option.isSome_map]
  have hquotes : quotesBefore (a ++ b) (a ++ b).length = quotesBefore b b.length := by
    rw [List.length_append, h.endsLine.quotesBefore_append_right h.unquoted]
  simp only [summaryOf, Summary.append, Summary.mk.injEq] at *
  exact ⟨hlines, hdirectives, hstrays, hopen, hquotes⟩

theorem Joined.outcome_append (hc : options.continuations ≠ .strict) :
    (scan options (.ofBytes (a ++ b))).outcome =
      .ok ((summaryOf options a).append (summaryOf options b)) := by
  rw [outcome_scan_ofBytes hc, h.summaryOf_append]

theorem Joined.deliveries_strictly_append
    (hquiet : ∀ d ∈ (scan (warning options) (.ofBytes a)).deliveries, d.stray? = none) :
    (scan (strictly options) (.ofBytes (a ++ b))).deliveries =
      (scan (strictly options) (.ofBytes a)).deliveries ++
        (scan (strictly options) (.ofBytes b)).deliveries.map
          (Delivery.shift a.length (a.count Byte.linefeed)) := by
  have hwarn : (scan (warning options) (.ofBytes (a ++ b))).deliveries = _ :=
    Joined.deliveries_append h (by simp)
  have hpred : (fun d : Delivery => d.stray?.isNone) ∘
      Delivery.shift a.length (a.count Byte.linefeed) = fun d => d.stray?.isNone := by
    funext d
    simp [Delivery.stray?_shift]
  have hself : (scan (warning options) (.ofBytes a)).deliveries.takeWhile (·.stray?.isNone) =
      (scan (warning options) (.ofBytes a)).deliveries := by
    rw [List.takeWhile_eq_self_iff]
    simpa using hquiet
  rw [deliveries_strictly, deliveries_strictly, deliveries_strictly, hwarn, hself,
    List.takeWhile_append_of_pos (by simpa using hquiet), List.takeWhile_map, hpred]

theorem Joined.outcome_strictly_append
    (hquiet : ∀ d ∈ (scan (warning options) (.ofBytes a)).deliveries, d.stray? = none) :
    (scan (strictly options) (.ofBytes (a ++ b))).outcome =
      match (scan (strictly options) (.ofBytes b)).outcome with
      | .error failure => .error (failure.shift a.length (a.count Byte.linefeed))
      | .ok second => .ok ((summaryOf options a).append second) := by
  have hwarn : (scan (warning options) (.ofBytes (a ++ b))).deliveries = _ :=
    Joined.deliveries_append h (by simp)
  have hab : (scan (warning options) (.ofBytes (a ++ b))).outcome = _ :=
    Joined.outcome_append h (by simp)
  have hb : (scan (warning options) (.ofBytes b)).outcome = .ok (summaryOf (warning options) b) :=
    outcome_scan_ofBytes (by simp) b
  have hfind : (scan (warning options) (.ofBytes (a ++ b))).deliveries.findSome? Delivery.stray? =
      ((scan (warning options) (.ofBytes b)).deliveries.findSome? Delivery.stray?).map
        (StrayBackslash.shift a.length (a.count Byte.linefeed)) := by
    rw [hwarn, List.findSome?_append, List.findSome?_eq_none_iff.mpr hquiet, Option.none_or,
      List.findSome?_map, List.map_findSome?]
    congr 1
    funext d
    exact Delivery.stray?_shift _ _ d
  rw [outcome_strictly, outcome_strictly, hfind]
  cases (scan (warning options) (.ofBytes b)).deliveries.findSome? Delivery.stray? with
  | none =>
    simp only [Option.map_none, hab, hb]
    rfl
  | some stray => rfl

end

/-- A scan of an input is the scan of a clean part up to the end of a line, followed by the scan of
the rest. -/
theorem scan_append_of_clean {options : Options} {a b : Bytes} {first : Summary}
    (hl : (a ++ b).count Byte.linefeed < Cursor.lastLine)
    (ha : a = [] ∨ a.getLast? = some Byte.linefeed)
    (hs : (scan options (.ofBytes a)).outcome = .ok first) (hu : first.unterminated = false)
    (hq : first.quotes = .unquoted) :
    (scan options (.ofBytes (a ++ b))).deliveries =
        (scan options (.ofBytes a)).deliveries ++
          (scan options (.ofBytes b)).deliveries.map
            (Delivery.shift a.length (a.count Byte.linefeed)) ∧
      (scan options (.ofBytes (a ++ b))).outcome =
        match (scan options (.ofBytes b)).outcome with
        | .error failure => .error (failure.shift a.length (a.count Byte.linefeed))
        | .ok second => .ok (first.append second) := by
  have hjoined (hfirst : summaryOf options a = first) : Joined options.gateQuotes a b := by
    subst hfirst
    have hclosed := Option.isNone_iff_eq_none.mp (Option.isSome_eq_false_iff.mp hu)
    exact ⟨⟨ha, hclosed, hq⟩, hl⟩
  by_cases hc : options.continuations = .strict
  · obtain ⟨policy, onEnd, gate⟩ := options
    obtain rfl : policy = .strict := hc
    obtain ⟨hquiet, hwarn⟩ := quiet_of_strictly_ok ⟨.strict, onEnd, gate⟩ _ hs
    rw [outcome_scan_ofBytes (by simp)] at hwarn
    have hfirst : summaryOf ⟨.strict, onEnd, gate⟩ a = first := Except.ok.inj hwarn
    have h := hjoined hfirst
    rw [← hfirst]
    exact ⟨h.deliveries_strictly_append hquiet, h.outcome_strictly_append hquiet⟩
  · have hfirst : summaryOf options a = first :=
      Except.ok.inj ((outcome_scan_ofBytes hc a).symm.trans hs)
    have h := hjoined hfirst
    refine ⟨h.deliveries_append hc, ?_⟩
    rw [h.outcome_append hc, outcome_scan_ofBytes hc, hfirst]

/-- A strict scan that fails behind the seam. -/
theorem scan_append_fails_behind_seam :
    let s := utf8 "'#'\n#a\\\n\\b\n" ++ utf8 " #c\n#\\ "
    (scan ⟨.strict, .flush, true⟩ (.ofBytes s)).deliveries =
        [.directive ⟨2, 3, ⟨4, 11⟩, utf8 "a\\\n\\b\n", true⟩,
          .directive ⟨4, 4, ⟨12, 15⟩, utf8 "c\n", true⟩] ∧
      (scan ⟨.strict, .flush, true⟩ (.ofBytes s)).outcome =
        .error (.stray ⟨5, ⟨16, 17⟩, some Byte.space⟩) := by
  have h := @scan_append_of_clean ⟨.strict, .flush, true⟩ (utf8 "'#'\n#a\\\n\\b\n")
    (utf8 " #c\n#\\ ") ⟨3, 1, 0, false, .unquoted⟩ (by decide +kernel) (.inr (by decide +kernel))
    (by decide +kernel) rfl rfl
  intro s
  rw [h.1, h.2]
  decide +kernel

end Scan

end HashLine
