import HashLine.Proofs.Course

/-! What a round of a scan does. The invariant ties every part of the state to the offset that is read
next. A round that is not strict moves that offset on by one byte, or by the two of a spliced line
end, and delivers what the course of the input has there. -/

namespace HashLine

namespace Scan

def pendingOf (s : Bytes) (i k : Nat) : Pending :=
  ⟨Cursor.lineOf s i, i, ((s.take k).drop (i + 1)).reverse⟩

/-- The state of a scan over `s` that is about to read the byte at offset `k`. -/
structure Before (options : Options) (s : Bytes) (k : Nat) (st : State) : Prop where
  ahead : st.cursor.advance = (.ok s[k]?, .atOffset s k)
  quotes : st.quotes = quotesBefore s k
  pending : st.pending = (openAt options.gateQuotes s k).map (pendingOf s · k)
  emitted : st.emitted = endsBefore options.gateQuotes s k
  strays : st.strays = straysBefore options.gateQuotes s k
  /-- A spliced line end is read as a whole. -/
  whole : (openAt options.gateQuotes s k).isSome → s[k]? = some Byte.linefeed →
    byteBefore s k ≠ some Byte.backslash

/-- The state once the byte at offset `k` has become current. -/
def reading (s : Bytes) (k : Nat) (st : State) : State :=
  { st with cursor := .atOffset s k, quotes := quotesBefore s (k + 1) }

@[simp] theorem cursor_reading (s : Bytes) (k : Nat) (st : State) :
    (reading s k st).cursor = .atOffset s k := rfl

@[simp] theorem quotes_reading (s : Bytes) (k : Nat) (st : State) :
    (reading s k st).quotes = quotesBefore s (k + 1) := rfl

@[simp] theorem emitted_reading (s : Bytes) (k : Nat) (st : State) :
    (reading s k st).emitted = st.emitted := rfl

@[simp] theorem strays_reading (s : Bytes) (k : Nat) (st : State) :
    (reading s k st).strays = st.strays := rfl

@[simp] theorem pending_reading (s : Bytes) (k : Nat) (st : State) :
    (reading s k st).pending = st.pending := rfl

theorem push_pendingOf {s : Bytes} {i k : Nat} {b : UInt8} (hi : i < k) (hb : s[k]? = some b) :
    (pendingOf s i k).push b = pendingOf s i (k + 1) := by
  have hk : k < s.length := (List.getElem?_eq_some_iff.mp hb).1
  have hl : i + 1 ≤ (s.take k).length := by
    rw [List.length_take]
    omega
  simp only [pendingOf, Pending.push, Pending.mk.injEq, true_and]
  rw [List.take_add_one, hb, List.drop_append_of_le_length hl]
  simp

theorem line_atOffset {s : Bytes} {k : Nat} (hk : k < s.length) :
    (Cursor.atOffset s k).line = Cursor.lineOf s k := by
  have h : min k (s.length - 1) = k := by omega
  simp only [Cursor.atOffset, h]

theorem offset_atOffset {s : Bytes} {k : Nat} (hk : k < s.length) :
    (Cursor.atOffset s k).offset = k := by
  have hcurrent : (Cursor.atOffset s k).current.isSome = true := by simp [Cursor.atOffset, hk]
  have hconsumed : (Cursor.atOffset s k).consumed = k + 1 := Nat.min_eq_left hk
  rw [Cursor.offset, if_pos hcurrent, hconsumed, Nat.add_sub_cancel]

theorem endOffset_atOffset {s : Bytes} {k : Nat} (hk : k < s.length) :
    (Cursor.atOffset s k).endOffset = k + 1 :=
  Nat.min_eq_left hk

theorem not_isOpen_iff {q : Quotes} : ¬ q.isOpen = true ↔ q = .unquoted := by
  cases q <;> simp [Quotes.isOpen]

theorem looksBroken_iff {next : Option UInt8} :
    looksBroken next = true ↔ ∀ b ∈ next, Byte.isBlank b = true := by
  cases next <;> simp [looksBroken]

theorem before_start (options : Options) (s : Bytes) :
    Before options s 0 (.start (.ofBytes s)) where
  ahead := Cursor.advance_start s
  quotes := by simp [State.start, quotesBefore, Quotes.after]
  pending := rfl
  emitted := rfl
  strays := rfl
  whole := by simp [openAt]

section

variable {options : Options} {s : Bytes} {k : Nat} {st : State}

theorem Before.step (h : Before options s k st) :
    st.step = (.ok s[k]?, reading s k st) := by
  simp only [State.step]
  rw [h.ahead, h.quotes]
  have hq := quotesBefore_succ s k
  simp only [reading, hq]
  rfl

/-- The next round reads `n` bytes and delivers what their offsets deliver. -/
def Leads (options : Options) (s : Bytes) (k n : Nat) (st : State) : Prop :=
  ∃ st' events, st.round options = .moved st' events ∧ Before options s (k + n) st' ∧
    events.filterMap Event.delivery? = (List.range' k n).flatMap (deliveriesAt options s)

theorem Before.leads (h : Before options s k st) {b : UInt8} (hb : s[k]? = some b) {n : Nat}
    {st' : State} {events : List Event}
    (hf : (reading s k st).feed options b = .ok (st', events))
    (hnext : Before options s (k + n) st')
    (hd : events.filterMap Event.delivery? = (List.range' k n).flatMap (deliveriesAt options s)) :
    Leads options s k n st := by
  refine ⟨st', events, ?_, hnext, hd⟩
  simp only [State.round]
  rw [h.step, hb]
  dsimp only
  rw [hf]

/-- Leave the byte at offset `k` behind: what the new state has to show when that byte was not the
first of a spliced line end. -/
theorem Before.next (h : Before options s k st) {st' : State}
    (hc : st'.cursor.advance = (.ok s[k + 1]?, .atOffset s (k + 1)))
    (hq : st'.quotes = quotesBefore s (k + 1))
    (hp : st'.pending = (openAt options.gateQuotes s (k + 1)).map (pendingOf s · (k + 1)))
    (he : st'.emitted = st.emitted + if EndsInside options.gateQuotes s k then 1 else 0)
    (hs : st'.strays = st.strays + if StrayInside options.gateQuotes s k then 1 else 0)
    (hw : (openAt options.gateQuotes s (k + 1)).isSome → s[k]? = some Byte.backslash →
      s[k + 1]? ≠ some Byte.linefeed) :
    Before options s (k + 1) st' where
  ahead := hc
  quotes := hq
  pending := hp
  emitted := by rw [he, h.emitted, endsBefore_succ]
  strays := by rw [hs, h.strays, straysBefore_succ]
  whole ho hl hb := hw ho hb hl

theorem cursor_blank_iff : (Cursor.atOffset s k).onlyBlanks = true ↔
    ∀ b ∈ lineHead s k, Byte.isBlank b = true := by
  simp [Cursor.atOffset]

theorem detect_reading {b : UInt8} (hb : s[k]? = some b) :
    ((reading s k st).detect options b).1 =
      if StartsAt options.gateQuotes s k then
        { reading s k st with pending := some (pendingOf s k (k + 1)) }
      else reading s k st := by
  have hk : k < s.length := (List.getElem?_eq_some_iff.mp hb).1
  have hnew : pendingOf s k (k + 1) = ⟨Cursor.lineOf s k, k, []⟩ := by
    simp [pendingOf]
  simp only [State.detect]
  by_cases hh : b = Byte.hash ∧ (reading s k st).cursor.onlyBlanks = true
  · have hblank := cursor_blank_iff.mp hh.2
    rw [if_pos hh]
    by_cases hg : options.gateQuotes = true ∧ (reading s k st).quotes.isOpen = true
    · have hns : ¬ StartsAt options.gateQuotes s k := by
        rintro ⟨-, -, hu⟩
        exact not_isOpen_iff.mpr (hu hg.1) hg.2
      rw [if_pos hg, if_neg hns]
    · have hs : StartsAt options.gateQuotes s k := by
        refine ⟨by rw [hb, hh.1], hblank, ?_⟩
        intro hgate
        exact not_isOpen_iff.mp fun ho => hg ⟨hgate, ho⟩
      rw [if_neg hg, if_pos hs, hnew]
      simp only [reading, line_atOffset hk, offset_atOffset hk]
  · have hns : ¬ StartsAt options.gateQuotes s k := by
      rintro ⟨hhash, hblank, -⟩
      exact hh ⟨Option.some.inj (hb.symm.trans hhash), cursor_blank_iff.mpr hblank⟩
    rw [if_neg hh, if_neg hns]

theorem delivery?_detect (b : UInt8) :
    ((reading s k st).detect options b).2.filterMap Event.delivery? = [] := by
  simp only [State.detect]
  split
  · split <;> rfl
  · rfl

theorem leads_outside (h : Before options s k st) {b : UInt8} (hb : s[k]? = some b)
    (ho : openAt options.gateQuotes s k = none) : Leads options s k 1 st := by
  have hp : st.pending = none := by
    rw [h.pending, ho]
    rfl
  have hf : (reading s k st).feed options b =
      .ok (((reading s k st).detect options b).1, ((reading s k st).detect options b).2) := by
    simp only [State.feed, pending_reading, hp]
  refine h.leads hb hf ?_ ?_
  · rw [detect_reading hb]
    have hn := openAt_succ_of_none ho
    by_cases hs : StartsAt options.gateQuotes s k
    · rw [if_pos hs] at hn ⊢
      refine h.next (Cursor.advance_atOffset s k) rfl (by rw [hn]; rfl) ?_ ?_ ?_
      · simp [EndsInside, ho, reading]
      · simp [StrayInside, ho, reading]
      · intro _ hbs
        rw [hs.1] at hbs
        exact absurd (Option.some.inj hbs) (by decide)
    · rw [if_neg hs] at hn ⊢
      refine h.next (Cursor.advance_atOffset s k) rfl (by rw [hn]; exact hp) ?_ ?_ ?_
      · simp [EndsInside, ho, reading]
      · simp [StrayInside, ho, reading]
      · simp [hn]
  · rw [delivery?_detect]
    simp [deliveriesAt, ho]

theorem feed_inside (h : Before options s k st) {i : Nat}
    (ho : openAt options.gateQuotes s k = some i) (b : UInt8) :
    (reading s k st).feed options b = (reading s k st).collect options (pendingOf s i k) b := by
  have hp : st.pending = some (pendingOf s i k) := by
    rw [h.pending, ho]
    rfl
  simp only [State.feed, pending_reading, hp]

theorem leads_splice (h : Before options s k st) {i : Nat}
    (ho : openAt options.gateQuotes s k = some i) (hb : s[k]? = some Byte.backslash)
    (hl : s[k + 1]? = some Byte.linefeed) : Leads options s k 2 st := by
  have hi := openAt_lt ho
  have hne : ¬ EndsAt s k := fun he => absurd (he.1.symm.trans hb) (by decide)
  have hns : ¬ StrayAt s k := fun hs => absurd (hs.2.1 _ hl) (by decide)
  have hne' : ¬ EndsAt s (k + 1) := fun he => he.2 hb
  have hns' : ¬ StrayAt s (k + 1) := fun hs => absurd (hs.1.symm.trans hl) (by decide)
  have ho' : openAt options.gateQuotes s (k + 1) = some i := by
    rw [openAt_succ_of_some ho, if_neg hne]
  have ho'' : openAt options.gateQuotes s (k + 2) = some i := by
    rw [openAt_succ_of_some ho', if_neg hne']
  have hstep : (reading s k st).step = (.ok (some Byte.linefeed), reading s (k + 1) st) := by
    unfold State.step
    simp only [cursor_reading, Cursor.advance_atOffset, hl]
    have hq := quotesBefore_succ s (k + 1)
    rw [hl] at hq
    simp only [reading, hq]
    rfl
  have hpush : ((pendingOf s i k).push Byte.backslash).push Byte.linefeed = pendingOf s i (k + 2) := by
    rw [push_pendingOf hi hb, push_pendingOf (by omega) hl]
  have hf : (reading s k st).feed options Byte.backslash =
      .ok ({ reading s (k + 1) st with pending := some (pendingOf s i (k + 2)) },
        [.continued (reading s (k + 1) st).cursor.line]) := by
    rw [feed_inside h ho]
    unfold State.collect
    rw [if_pos ⟨rfl, hl⟩, hstep]
    dsimp only
    rw [hpush]
  refine h.leads hb hf ?_ ?_
  · constructor
    · exact Cursor.advance_atOffset s (k + 1)
    · rfl
    · rw [ho'']
      rfl
    · rw [endsBefore_succ, endsBefore_succ, if_neg (fun he => hne he.2), if_neg (fun he => hne' he.2)]
      exact h.emitted
    · rw [straysBefore_succ, straysBefore_succ, if_neg (fun hs => hns hs.2),
        if_neg (fun hs => hns' hs.2)]
      exact h.strays
    · intro _ _ hbs
      exact absurd (hl.symm.trans hbs) (by decide)
  · simp [deliveriesAt, ho, ho', deliveriesIn, hns, hne, hns', hne', List.range'_succ,
      Event.delivery?]

theorem leads_stray (h : Before options s k st) {i : Nat}
    (ho : openAt options.gateQuotes s k = some i) (hs : StrayAt s k)
    (hc : options.continuations ≠ .strict) : Leads options s k 1 st := by
  have hk : k < s.length := (List.getElem?_eq_some_iff.mp hs.1).1
  have hne : ¬ EndsAt s k := fun he => he.not_stray hs
  have ho' : openAt options.gateQuotes s (k + 1) = some i := by
    rw [openAt_succ_of_some ho, if_neg hne]
  have hl : s[k + 1]? ≠ some Byte.linefeed := fun hl => absurd (hs.2.1 _ hl) (by decide)
  have hcollect : (reading s k st).collect options (pendingOf s i k) Byte.backslash =
      State.complain options { reading s k st with pending := some (pendingOf s i (k + 1)) } := by
    unfold State.collect
    rw [if_neg (fun hh => hl hh.2),
      if_pos ⟨rfl, looksBroken_iff.mpr hs.2.1, not_isOpen_iff.mpr hs.2.2⟩,
      push_pendingOf (openAt_lt ho) hs.1]
  have hstray : strayOf s k = ⟨(Cursor.atOffset s k).line,
      ⟨(Cursor.atOffset s k).offset, (Cursor.atOffset s k).endOffset⟩, (Cursor.atOffset s k).next⟩ := by
    rw [line_atOffset hk, offset_atOffset hk, endOffset_atOffset hk]
    rfl
  have hf : (reading s k st).feed options Byte.backslash =
      .ok ({ reading s k st with
          pending := some (pendingOf s i (k + 1)), strays := st.strays + 1 },
        if options.continuations = .warn then [.delivered (.warning (.stray (strayOf s k)))]
        else [.tolerated (strayOf s k)]) := by
    rw [feed_inside h ho, hcollect, hstray]
    cases hp : options.continuations with
    | lenient => simp [State.complain, hp, reading]
    | warn => simp [State.complain, hp, reading]
    | strict => exact absurd hp hc
  refine h.leads hs.1 hf ?_ ?_
  · refine h.next (Cursor.advance_atOffset s k) rfl (by rw [ho']; rfl) ?_ ?_ (fun _ _ => hl)
    · rw [if_neg (fun he => hne he.2)]
      rfl
    · rw [if_pos ⟨by simp [ho], hs⟩]
  · simp only [List.range'_one, List.flatMap_singleton, deliveriesAt, ho, deliveriesIn, if_pos hs]
    split <;> rfl

theorem leads_end (h : Before options s k st) {i : Nat}
    (ho : openAt options.gateQuotes s k = some i) (he : EndsAt s k) :
    Leads options s k 1 st := by
  have hk : k < s.length := (List.getElem?_eq_some_iff.mp he.1).1
  have ho' : openAt options.gateQuotes s (k + 1) = none := by
    rw [openAt_succ_of_some ho, if_pos he]
  have hd : directiveOf s i (k + 1) true =
      { line := (pendingOf s i (k + 1)).line
        endLine := (Cursor.atOffset s k).line
        span := ⟨(pendingOf s i (k + 1)).start, (Cursor.atOffset s k).endOffset⟩
        text := (pendingOf s i (k + 1)).collected.reverse
        terminated := true } := by
    rw [line_atOffset hk, endOffset_atOffset hk]
    simp [directiveOf, pendingOf]
  have hf : (reading s k st).feed options Byte.linefeed =
      .ok ({ reading s k st with
          cursor := (Cursor.atOffset s k).restartLine, pending := none, emitted := st.emitted + 1 },
        [.delivered (.directive (directiveOf s i (k + 1) true))]) := by
    rw [feed_inside h ho]
    unfold State.collect
    rw [if_neg (fun hh => absurd hh.1 (by decide)), if_neg (fun hh => absurd hh.1 (by decide)),
      if_pos rfl, push_pendingOf (openAt_lt ho) he.1, hd]
    rfl
  refine h.leads he.1 hf ?_ ?_
  · refine h.next (Cursor.advance_restartLine_atOffset he.1) rfl (by rw [ho']; rfl) ?_ ?_ ?_
    · rw [if_pos ⟨by simp [ho], he⟩]
    · rw [if_neg (fun hs => he.not_stray hs.2)]
      rfl
    · simp [ho']
  · simp only [List.range'_one, List.flatMap_singleton, deliveriesAt, ho, deliveriesIn,
      if_neg he.not_stray, if_pos he]
    rfl

theorem leads_plain (h : Before options s k st) {i : Nat} {b : UInt8} (hb : s[k]? = some b)
    (ho : openAt options.gateQuotes s k = some i) (hs : ¬ StrayAt s k) (he : ¬ EndsAt s k)
    (hl : b = Byte.backslash → s[k + 1]? ≠ some Byte.linefeed) : Leads options s k 1 st := by
  have ho' : openAt options.gateQuotes s (k + 1) = some i := by
    rw [openAt_succ_of_some ho, if_neg he]
  -- A linefeed here would end the directive or belong to a splice, and splices are read whole.
  have hlf : b ≠ Byte.linefeed := by
    rintro rfl
    exact he ⟨hb, h.whole (by simp [ho]) hb⟩
  have hf : (reading s k st).feed options b =
      .ok ({ reading s k st with pending := some (pendingOf s i (k + 1)) }, []) := by
    rw [feed_inside h ho]
    simp only [State.collect]
    rw [if_neg (fun hh => hl hh.1 hh.2), if_neg, if_neg hlf, push_pendingOf (openAt_lt ho) hb]
    rintro ⟨rfl, hbroken, hq⟩
    exact hs ⟨hb, looksBroken_iff.mp hbroken, not_isOpen_iff.mp hq⟩
  refine h.leads hb hf ?_ ?_
  · refine h.next (Cursor.advance_atOffset s k) rfl (by rw [ho']; rfl) ?_ ?_ ?_
    · rw [if_neg (fun hh => he hh.2)]
      rfl
    · rw [if_neg (fun hh => hs hh.2)]
      rfl
    · exact fun _ hbs => hl (Option.some.inj (hb.symm.trans hbs))
  · simp only [List.range'_one, List.flatMap_singleton, deliveriesAt, ho, deliveriesIn,
      if_neg hs, if_neg he]
    rfl

/-- Before the end every round leads on: over one byte, or over a spliced line end. -/
theorem Before.leads_on (h : Before options s k st) (hc : options.continuations ≠ .strict)
    (hk : k < s.length) : ∃ n, 0 < n ∧ k + n ≤ s.length ∧ Leads options s k n st := by
  have hb : s[k]? = some s[k] := List.getElem?_eq_getElem hk
  cases ho : openAt options.gateQuotes s k with
  | none => exact ⟨1, by omega, by omega, leads_outside h hb ho⟩
  | some i =>
    by_cases hsplice : s[k] = Byte.backslash ∧ s[k + 1]? = some Byte.linefeed
    · obtain ⟨hbs, hl⟩ := hsplice
      have hk' : k + 1 < s.length := (List.getElem?_eq_some_iff.mp hl).1
      exact ⟨2, by omega, by omega, leads_splice h ho (hbs ▸ hb) hl⟩
    · refine ⟨1, by omega, by omega, ?_⟩
      by_cases hs : StrayAt s k
      · exact leads_stray h ho hs hc
      · by_cases he : EndsAt s k
        · exact leads_end h ho he
        · exact leads_plain h hb ho hs he fun hbs hl => hsplice ⟨hbs, hl⟩

end

end Scan

end HashLine
