import HashLine.Proofs.Arrival
import HashLine.Proofs.Following
import HashLine.Proofs.Strictness

/-! A scan whose source fails. A cursor needs the byte ahead before it moves, so it meets the
failure one byte early: the scan has delivered what is settled before the last byte that came,
whatever would have followed, and nothing else. -/

namespace HashLine

/-- Is this an ended directive, or a stray backslash, that lies before the last of the first `n`
bytes? -/
def Delivery.isSettled (n : Nat) : Delivery → Bool
  | directive d => d.terminated && decide (d.span.stop ≤ n - 1)
  | warning (.stray w) => decide (w.span.stop ≤ n - 1)
  | warning (.unterminated ..) => false

namespace Scan

section

variable {options : Options} {s : Bytes} {k : Nat} {st : State}

theorem Before.consumed (h : Before options s k st) (hk : k ≤ s.length) :
    st.cursor.consumed = k := by
  have hc := Cursor.consumed_of_advance h.ahead
  by_cases hlt : k < s.length
  · have hat : (Cursor.atOffset s k).consumed = k + 1 := Nat.min_eq_left hlt
    rw [hat, List.getElem?_eq_getElem hlt, Option.toList_some, List.length_singleton] at hc
    omega
  · have hat : (Cursor.atOffset s k).consumed = s.length := Nat.min_eq_right (by omega)
    rw [hat, List.getElem?_eq_none (by omega), Option.toList_none, List.length_nil] at hc
    omega

/-- A round that is not strict leads on or finishes. -/
theorem Before.leads_or_finishes (h : Before options s k st) (hc : options.continuations ≠ .strict)
    (hk : k ≤ s.length) :
    (∃ n, 0 < n ∧ k + n ≤ s.length ∧ Leads options s k n st) ∨
      ∃ events summary, st.round options = .finished events summary := by
  by_cases hlt : k < s.length
  · exact .inl (h.leads_on hc hlt)
  · obtain rfl : k = s.length := by omega
    obtain ⟨events, hr, -⟩ := h.finish
    exact .inr ⟨events, _, hr⟩

theorem Before.deliveriesAt_eq_nil (h : Before options s k st)
    (hc : options.continuations ≠ .strict) (hk : k < s.length)
    (hd : ∀ st' events, st.round options = .moved st' events → Unheard events) :
    deliveriesAt options s k = [] := by
  obtain ⟨n, hn, -, st', events, hr, -, hdel⟩ := h.leads_on hc hk
  obtain ⟨m, rfl⟩ := Nat.exists_eq_succ_of_ne_zero (Nat.ne_of_gt hn)
  have hquiet : Unheard events := hd st' events hr
  rw [Unheard, hdel, List.range'_succ, List.flatMap_cons] at hquiet
  exact (List.append_eq_nil_iff.mp hquiet).1

theorem resume_of_unreadable {e : SystemError} (h : st.round options = .failed (.unreadable e))
    (seen : List Event) :
    (resume options st seen).deliveries = seen.reverse.filterMap Event.delivery? ∧
      (resume options st seen).outcome = .error (.unreadable e) := by
  rw [resume_of_failed h]
  exact ⟨by simp [Run.deliveries], rfl⟩

end

section

variable {options : Options} {b r : Bytes} {e : SystemError}

/-- Where a round fails with its source, nothing is left to deliver before the last byte of `b`. -/
theorem Before.nothing_left {k : Nat} {st : State} (h : Before options (b ++ r) k st)
    (hc : options.continuations ≠ .strict) (hn : b.length ≤ k + 2)
    (hd : b.length = k + 2 → ∀ st' events, st.round options = .moved st' events →
      Unheard events) :
    (List.range' k (b.length - 1 - k)).flatMap (deliveriesAt options (b ++ r)) = [] := by
  by_cases hlast : b.length = k + 2
  · have hone : b.length - 1 - k = 1 := by omega
    have hlt : k < (b ++ r).length := by
      rw [List.length_append]
      omega
    rw [hone, List.range'_one, List.flatMap_singleton]
    exact h.deliveriesAt_eq_nil hc hlt (hd hlast)
  · have hzero : b.length - 1 - k = 0 := by omega
    rw [hzero]
    rfl

/-- From offset `k` on, a scan over a failing source delivers what the course has up to the last
byte of `b`, that byte left out. -/
theorem resume_broken {k : Nat} {st : State} {source : Source} (h : Before options (b ++ r) k st)
    (hb : st.cursor.Beside b r (some e) source) (hc : options.continuations ≠ .strict)
    (hk : k ≤ (b ++ r).length) (seen : List Event) :
    (resume options (st.onto source) seen).deliveries =
        seen.reverse.filterMap Event.delivery? ++
          (List.range' k (b.length - 1 - k)).flatMap (deliveriesAt options (b ++ r)) ∧
      (resume options (st.onto source) seen).outcome = .error (.unreadable e) := by
  induction hm : st.cursor.unread using Nat.strong_induction_on
    generalizing k st source seen with
  | _ m ih =>
    have hround := round_together options hb
    rw [h.consumed hk] at hround
    have hleads := h.leads_or_finishes hc hk
    have hnothing := h.nothing_left hc
    generalize hscript : (st.onto source).round options = script at hround
    generalize hwhole : st.round options = whole at hround hleads hnothing
    cases hround with
    | broken hf hn hd =>
      cases hf
      rw [hnothing hn hd, List.append_nil]
      exact resume_of_unreadable hscript seen
    | stray x =>
      -- A scan that is not strict does not fail at a backslash.
      rcases hleads with ⟨n, -, -, st', events, hr, -⟩ | ⟨events, summary, hr⟩
      · cases hwhole.symm.trans hr
      · cases hr
    | finished hf => cases hf
    | @moved st₁ source₁ events hbeside =>
      rcases hleads with ⟨n, hn, hkn, st', events', hr, hnext, hd⟩ | ⟨_, _, hr⟩
      · obtain ⟨rfl, rfl⟩ := Round.moved.inj (hwhole.symm.trans hr)
        have hlt : k + n < b.length := by
          have hpassed := hnext.consumed hkn
          have hahead := hbeside.consumed_lt rfl (by omega)
          omega
        have hi := ih _ (hm ▸ State.unread_of_round hwhole) hnext hbeside hkn
          (events.reverse ++ seen) rfl
        rw [resume_of_moved hscript]
        refine ⟨?_, hi.2⟩
        rw [hi.1, Nat.sub_add_eq, deliveries_past (by omega) hd]
      · cases hr

/-- What a scan that is not strict has delivered when its source fails. -/
theorem deliveries_broken {source : Source} (hs : source.supply = (b, some e))
    (hc : options.continuations ≠ .strict) (r : Bytes) :
    (scan options source).deliveries =
        (List.range (b.length - 1)).flatMap (deliveriesAt options (b ++ r)) ∧
      (scan options source).outcome = .error (.unreadable e) := by
  have h := resume_broken (before_start options (b ++ r)) (beside_start hs (by simp)) hc
    (Nat.zero_le _) []
  have hscan : resume options ((State.start (.ofBytes (b ++ r))).onto source) [] =
      scan options source := rfl
  rw [hscan] at h
  simpa [List.range_eq_range'] using h

end

section

variable {options : Options} {s : Bytes} {n : Nat}

theorem isSettled_of_mem_deliveriesAt {k : Nat} {d : Delivery} (hd : d ∈ deliveriesAt options s k) :
    d.isSettled n = decide (k + 1 ≤ n - 1) := by
  rcases mem_deliveriesAt hd with rfl | ⟨i, rfl⟩
  · rfl
  · simp [Delivery.isSettled, directiveOf]

theorem isSettled_of_mem_closing {d : Delivery} (hd : d ∈ closing options s) :
    d.isSettled n = false := by
  rcases mem_closing hd with ⟨line, span, rfl⟩ | ⟨i, rfl⟩ <;> rfl

/-- The deliveries of a scan, cut where the first `n` bytes settle no more. -/
theorem deliveries_split (hc : options.continuations ≠ .strict) (hn : n ≤ s.length) :
    ∃ rest, (scan options (.ofBytes s)).deliveries =
        (List.range (n - 1)).flatMap (deliveriesAt options s) ++ rest ∧
      (∀ d ∈ (List.range (n - 1)).flatMap (deliveriesAt options s), d.isSettled n = true) ∧
      ∀ d ∈ rest, d.isSettled n = false := by
  have hrange : List.range s.length =
      List.range (n - 1) ++ List.range' (n - 1) (s.length - (n - 1)) := by
    have hcut := range'_cut (show n - 1 ≤ s.length by omega) 0
    rwa [Nat.zero_add, ← List.range_eq_range', ← List.range_eq_range'] at hcut
  refine ⟨(List.range' (n - 1) (s.length - (n - 1))).flatMap (deliveriesAt options s) ++
    closing options s, ?_, ?_, ?_⟩
  · rw [deliveries_scan_ofBytes hc, hrange, List.flatMap_append, List.append_assoc]
  · intro d hd
    obtain ⟨k, hk, hd⟩ := List.mem_flatMap.mp hd
    have hk := List.mem_range.mp hk
    rw [isSettled_of_mem_deliveriesAt hd]
    exact decide_eq_true hk
  · intro d hd
    rcases List.mem_append.mp hd with hd | hd
    · obtain ⟨k, hk, hd⟩ := List.mem_flatMap.mp hd
      have hk := List.mem_range'_1.mp hk
      rw [isSettled_of_mem_deliveriesAt hd]
      exact decide_eq_false (by omega)
    · exact isSettled_of_mem_closing hd

end

theorem filter_of_split {α : Type} {p : α → Bool} {xs ys : List α} (hx : ∀ x ∈ xs, p x = true)
    (hy : ∀ y ∈ ys, p y = false) : (xs ++ ys).filter p = xs := by
  have hys : ys.filter p = [] := by
    rw [List.filter_eq_nil_iff]
    intro y hmem
    simp [hy y hmem]
  rw [List.filter_append, List.filter_eq_self.mpr hx, hys, List.append_nil]

/-- A run that could not read on after `n` bytes, beside the run over those bytes and some more. -/
structure BreaksOff (e : SystemError) (n : Nat) (broken whole : Run) : Prop where
  outcome : broken.outcome = .error (.unreadable e)
  settled : broken.deliveries = whole.deliveries.filter (·.isSettled n)
  initial : broken.deliveries <+: whole.deliveries
  short : n ≤ 1 → broken.deliveries = []
  sound : ∀ d ∈ broken.deliveries, d.Complete ∨ ∃ w, d = .warning (.stray w)

theorem sound_of_mem_deliveriesAt {options : Options} {s : Bytes} {k : Nat} {d : Delivery}
    (hd : d ∈ deliveriesAt options s k) : d.Complete ∨ ∃ w, d = .warning (.stray w) := by
  rcases mem_deliveriesAt hd with rfl | ⟨i, rfl⟩
  · exact .inr ⟨_, rfl⟩
  · exact .inl ⟨_, rfl, rfl⟩

/-- A scan that is not strict breaks off with its source. -/
theorem breaksOff_scan {options : Options} (hc : options.continuations ≠ .strict) {source : Source}
    {b : Bytes} {e : SystemError} (hs : source.supply = (b, some e)) (r : Bytes) :
    BreaksOff e b.length (scan options source) (scan options (.ofBytes (b ++ r))) := by
  obtain ⟨hdelivered, houtcome⟩ := deliveries_broken hs hc r
  obtain ⟨rest, hsplit, hsettled, hrest⟩ :=
    deliveries_split (s := b ++ r) (n := b.length) hc (by simp)
  refine ⟨houtcome, ?_, ?_, ?_, ?_⟩
  · rw [hdelivered, hsplit, filter_of_split hsettled hrest]
  · exact ⟨rest, by rw [hdelivered, hsplit]⟩
  · intro hn
    have hzero : b.length - 1 = 0 := by omega
    rw [hdelivered, hzero]
    rfl
  · intro d hd
    rw [hdelivered] at hd
    obtain ⟨k, -, hd⟩ := List.mem_flatMap.mp hd
    exact sound_of_mem_deliveriesAt hd

theorem BreaksOff.split {e : SystemError} {n : Nat} {broken whole : Run}
    (h : BreaksOff e n broken whole) :
    ∃ rest, whole.deliveries = broken.deliveries ++ rest ∧
      (∀ d ∈ broken.deliveries, d.isSettled n = true) ∧ ∀ d ∈ rest, d.isSettled n = false := by
  obtain ⟨rest, hrest⟩ := h.initial
  have hsettled : ∀ d ∈ broken.deliveries, d.isSettled n = true := by
    intro d hd
    rw [h.settled] at hd
    exact (List.mem_filter.mp hd).2
  have hnone : rest.filter (·.isSettled n) = [] := by
    have hfilter := h.settled
    rw [← hrest, List.filter_append, List.filter_eq_self.mpr hsettled] at hfilter
    exact List.self_eq_append_right.mp hfilter
  refine ⟨rest, hrest.symm, hsettled, ?_⟩
  intro d hd
  exact Bool.eq_false_iff.mpr (List.filter_eq_nil_iff.mp hnone d hd)

section

variable {options : Options} {source : Source} {s : Bytes} {e : SystemError} {n : Nat}

/-- A strict scan breaks off like a warning one that has met no stray backslash. -/
theorem breaksOff_strictly
    (h : BreaksOff e n (scan (warning options) source) (scan (warning options) (.ofBytes s)))
    (hq : ∀ d ∈ (scan (warning options) source).deliveries, d.stray? = none) :
    BreaksOff e n (scan (strictly options) source) (scan (strictly options) (.ofBytes s)) := by
  have hsame : (scan (strictly options) source).deliveries =
      (scan (warning options) source).deliveries := by
    rw [deliveries_strictly, List.takeWhile_eq_self_iff]
    simpa using hq
  have houtcome : (scan (strictly options) source).outcome = .error (.unreadable e) := by
    rw [outcome_strictly, List.findSome?_eq_none_iff.mpr hq, h.outcome]
  obtain ⟨rest, hwhole, hsettled, hrest⟩ := h.split
  have hstrict : (scan (strictly options) (.ofBytes s)).deliveries =
      (scan (warning options) source).deliveries ++ rest.takeWhile (·.stray?.isNone) := by
    rw [deliveries_strictly, hwhole, List.takeWhile_append_of_pos (by simpa using hq)]
  have hrest' : ∀ d ∈ rest.takeWhile (·.stray?.isNone), d.isSettled n = false := fun d hd =>
    hrest d ((List.takeWhile_sublist _).subset hd)
  refine ⟨houtcome, ?_, ?_, ?_, ?_⟩
  · rw [hsame, hstrict, filter_of_split hsettled hrest']
  · exact ⟨_, by rw [hsame, hstrict]⟩
  · rw [hsame]
    exact h.short
  · rw [hsame]
    exact h.sound

theorem strictly_stops_at_stray {xs ys : List Delivery} {w : StrayBackslash}
    (h : (scan (warning options) source).deliveries = xs ++ .warning (.stray w) :: ys)
    (hx : ∀ d ∈ xs, d.stray? = none) :
    (scan (strictly options) source).outcome = .error (.stray w) ∧
      (scan (strictly options) source).deliveries = xs := by
  rw [outcome_strictly, deliveries_strictly, h, findSome?_stray hx, takeWhile_before_stray hx]
  exact ⟨rfl, rfl⟩

end

/-- When the source fails after the bytes `b`, a scan fails with it, having delivered what is
settled before the last byte of `b`, whatever would have followed. A strict scan that meets a stray
backslash among that fails there instead. -/
theorem failing_source_breaks_off (options : Options) {before : Source} (after : Source)
    (e : SystemError) (hb : ∀ read ∈ before, read = .interrupted ∨ ∃ x tail, read = .data x tail)
    (r : Bytes) :
    let b := before.flatMap Read.bytes
    let broken := fun policy =>
      scan { options with continuations := policy } (before ++ .failed e :: after)
    let whole := fun policy => scan { options with continuations := policy } (.ofBytes (b ++ r))
    let calls := (whole .warn).deliveries.filter (·.isSettled b.length)
    (∀ policy, policy ≠ .strict → BreaksOff e b.length (broken policy) (whole policy)) ∧
      (calls.filterMap Delivery.stray? = [] →
        BreaksOff e b.length (broken .strict) (whole .strict)) ∧
      ∀ xs w ys, calls = xs ++ .warning (.stray w) :: ys → xs.filterMap Delivery.stray? = [] →
        (broken .strict).outcome = .error (.stray w) ∧ (broken .strict).deliveries = xs := by
  intro b broken whole calls
  have hs : (before ++ .failed e :: after : Source).supply = (b, some e) := by
    rw [Source.supply_append _ hb]
    simp [Source.supply, b]
  have hwarn : BreaksOff e b.length (broken .warn) (whole .warn) := breaksOff_scan (by simp) hs r
  have hcalls : calls = (broken .warn).deliveries := hwarn.settled.symm
  rw [hcalls]
  refine ⟨fun policy hc => breaksOff_scan hc hs r, ?_, ?_⟩
  · intro hq
    exact breaksOff_strictly hwarn (List.filterMap_eq_nil_iff.mp hq)
  · intro xs w ys hsplit hx
    exact strictly_stops_at_stray hsplit (List.filterMap_eq_nil_iff.mp hx)

/-- The second directive has come whole, and only its linefeed still stood ahead when the source
failed. The strict scan stops at the backslash, unless the source fails right behind it. -/
theorem failing_source_breaks_off_at_linefeed :
    let source : Source :=
      [.data Byte.hash (utf8 "a\n#b\\"), .interrupted, .data Byte.space (utf8 "c\n"),
        .failed ⟨"disk gone"⟩]
    let shorter : Source := [.data Byte.hash (utf8 "a\n#b\\"), .failed ⟨"disk gone"⟩]
    let first : Delivery := .directive ⟨1, 1, ⟨0, 3⟩, utf8 "a\n", true⟩
    let stray : StrayBackslash := ⟨2, ⟨5, 6⟩, some Byte.space⟩
    ((scan ⟨.warn, .flush, true⟩ source).outcome = .error (.unreadable ⟨"disk gone"⟩) ∧
        (scan ⟨.warn, .flush, true⟩ source).deliveries = [first, .warning (.stray stray)]) ∧
      ((scan ⟨.strict, .flush, true⟩ source).outcome = .error (.stray stray) ∧
        (scan ⟨.strict, .flush, true⟩ source).deliveries = [first]) ∧
      (scan ⟨.strict, .flush, true⟩ shorter).outcome = .error (.unreadable ⟨"disk gone"⟩) ∧
        (scan ⟨.strict, .flush, true⟩ shorter).deliveries = [first] := by
  intro source shorter first stray
  obtain ⟨hother, -, hstrict⟩ := @failing_source_breaks_off ⟨.warn, .flush, true⟩
    [.data Byte.hash (utf8 "a\n#b\\"), .interrupted, .data Byte.space (utf8 "c\n")] []
    ⟨"disk gone"⟩ (by simp) (utf8 "#d\n")
  obtain ⟨-, hquiet, -⟩ := @failing_source_breaks_off ⟨.warn, .flush, true⟩
    [.data Byte.hash (utf8 "a\n#b\\")] [] ⟨"disk gone"⟩ (by simp) (utf8 " c\n")
  have hwarn := hother .warn (by decide)
  have hshorter := hquiet (by decide +kernel)
  exact ⟨⟨hwarn.outcome, hwarn.settled.trans (by decide +kernel)⟩,
    hstrict [first] stray [] (by decide +kernel) rfl,
    hshorter.outcome, hshorter.settled.trans (by decide +kernel)⟩

end Scan

end HashLine
