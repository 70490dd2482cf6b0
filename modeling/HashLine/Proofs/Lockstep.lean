import HashLine.Proofs.Script

/-! A scan over a script of reads and a scan of what the script brings, round by round. The two keep
step, in states that differ in the source only, until the script fails. -/

namespace HashLine

namespace Scan

/-- The same state over another source. -/
def State.onto (source : Source) (st : State) : State :=
  { st with cursor := st.cursor.onto source }

def Unheard (events : List Event) : Prop :=
  events.filterMap Event.delivery? = []

/-- What a byte comes to over a script and over the whole input, for a cursor that has passed `n`
bytes. A script can fail here only in the middle of a spliced line end, which delivers nothing. -/
inductive Together (b r : Bytes) (fault : Option SystemError) (n : Nat) :
    (script whole : Except Failure (State × List Event)) → Prop where
  | broken {e : SystemError} {whole : Except Failure (State × List Event)} (hf : fault = some e)
    (hn : b.length ≤ n + 1) (hd : ∀ st events, whole = .ok (st, events) → Unheard events) :
    Together b r fault n (.error (.unreadable e)) whole
  | stray (x : StrayBackslash) : Together b r fault n (.error (.stray x)) (.error (.stray x))
  | moved (st : State) (source : Source) (events : List Event)
    (h : st.cursor.Beside b r fault source) :
    Together b r fault n (.ok (st.onto source, events)) (.ok (st, events))

section

variable {options : Options} (st : State) {p : Pending} {x : UInt8}

theorem collect_of_splice (h : x = Byte.backslash ∧ st.cursor.next = some Byte.linefeed) :
    st.collect options p x =
      match st.step with
      | (.error e, _) => .error (.unreadable e)
      | (.ok _, st) =>
        .ok ({ st with pending := some ((p.push Byte.backslash).push Byte.linefeed) },
          [.continued st.cursor.line]) :=
  if_pos h

theorem collect_of_stray (h : ¬ (x = Byte.backslash ∧ st.cursor.next = some Byte.linefeed))
    (hs : x = Byte.backslash ∧ looksBroken st.cursor.next ∧ ¬ st.quotes.isOpen) :
    st.collect options p x = State.complain options { st with pending := some (p.push x) } :=
  (if_neg h).trans (if_pos hs)

theorem collect_of_end (h : ¬ (x = Byte.backslash ∧ st.cursor.next = some Byte.linefeed))
    (hs : ¬ (x = Byte.backslash ∧ looksBroken st.cursor.next ∧ ¬ st.quotes.isOpen))
    (hx : x = Byte.linefeed) :
    st.collect options p x =
      .ok ({ (st.emit (p.push x) true).1 with cursor := st.cursor.restartLine },
        [(st.emit (p.push x) true).2]) :=
  ((if_neg h).trans (if_neg hs)).trans (if_pos hx)

theorem collect_of_plain (h : ¬ (x = Byte.backslash ∧ st.cursor.next = some Byte.linefeed))
    (hs : ¬ (x = Byte.backslash ∧ looksBroken st.cursor.next ∧ ¬ st.quotes.isOpen))
    (hx : x ≠ Byte.linefeed) :
    st.collect options p x = .ok ({ st with pending := some (p.push x) }, []) :=
  ((if_neg h).trans (if_neg hs)).trans (if_neg hx)

end

section

variable {b r : Bytes} {fault : Option SystemError} {source : Source} {st : State}

theorem step_together (h : st.cursor.Beside b r fault source) :
    (∃ e st', fault = some e ∧ b.length ≤ st.cursor.consumed + 1 ∧
        (st.onto source).step = (.error e, st')) ∨
      ∃ x st' source', st.step = (.ok x, st') ∧ (st.onto source).step = (.ok x, st'.onto source') ∧
        st'.cursor.Beside b r fault source' ∧ (fault.isSome → x.isSome) ∧
        st'.cursor.consumed = st.cursor.consumed + x.toList.length := by
  simp only [State.step, State.onto]
  rcases h.advance with ⟨e, c, hf, hn, ha⟩ | ⟨x, c, source', ha, ha', hc, hx⟩
  · exact .inl ⟨e, _, hf, hn, by rw [ha]⟩
  · let st' : State := { st with cursor := c, quotes := st.quotes.update c.prev x }
    refine .inr ⟨x, st', source', ?_, ?_, hc, hx, Cursor.consumed_of_advance ha⟩
    · rw [ha]
    · rw [ha']
      rfl

theorem detect_onto (options : Options) (st : State) (source : Source) (x : UInt8) :
    (st.onto source).detect options x =
      ((st.detect options x).1.onto source, (st.detect options x).2) := by
  by_cases hh : x = Byte.hash ∧ st.cursor.onlyBlanks
  · by_cases hg : options.gateQuotes ∧ st.quotes.isOpen
    · have hd : st.detect options x = (st, _) := (if_pos hh).trans (if_pos hg)
      rw [hd]
      exact (if_pos hh).trans (if_pos hg)
    · have hd : st.detect options x = ({ st with pending := some _ }, _) :=
        (if_pos hh).trans (if_neg hg)
      rw [hd]
      exact (if_pos hh).trans (if_neg hg)
  · have hd : st.detect options x = (st, []) := if_neg hh
    rw [hd]
    exact if_neg hh

theorem complain_together (options : Options) (h : st.cursor.Beside b r fault source) (n : Nat) :
    Together b r fault n ((st.onto source).complain options) (st.complain options) := by
  simp only [State.complain]
  cases options.continuations with
  | lenient => exact .moved { st with strays := st.strays + 1 } source _ h
  | warn => exact .moved { st with strays := st.strays + 1 } source _ h
  | strict => exact .stray _

theorem collect_together (options : Options) (h : st.cursor.Beside b r fault source) (p : Pending)
    (x : UInt8) :
    Together b r fault st.cursor.consumed ((st.onto source).collect options p x)
      (st.collect options p x) := by
  by_cases hsplice : x = Byte.backslash ∧ st.cursor.next = some Byte.linefeed
  · rw [collect_of_splice st hsplice, collect_of_splice (st.onto source) hsplice]
    rcases step_together h with ⟨e, st', hf, hn, hs⟩ | ⟨y, st', source', hs, hs', hc, -, -⟩
    · rw [hs]
      refine .broken hf hn ?_
      intro st'' events hw
      split at hw
      · cases hw
      · cases hw
        rfl
    · rw [hs, hs']
      exact .moved { st' with pending := some ((p.push Byte.backslash).push Byte.linefeed) }
        source' _ hc
  · by_cases hstray : x = Byte.backslash ∧ looksBroken st.cursor.next ∧ ¬ st.quotes.isOpen
    · let stop : State := { st with pending := some (p.push x) }
      have hstop : stop.cursor.Beside b r fault source := h
      rw [collect_of_stray st hsplice hstray, collect_of_stray (st.onto source) hsplice hstray]
      exact complain_together options hstop _
    · by_cases hend : x = Byte.linefeed
      · rw [collect_of_end st hsplice hstray hend,
          collect_of_end (st.onto source) hsplice hstray hend]
        exact .moved { (st.emit (p.push x) true).1 with cursor := st.cursor.restartLine } source _
          h.restartLine
      · rw [collect_of_plain st hsplice hstray hend,
          collect_of_plain (st.onto source) hsplice hstray hend]
        exact .moved { st with pending := some (p.push x) } source _ h

theorem feed_together (options : Options) (h : st.cursor.Beside b r fault source) (x : UInt8) :
    Together b r fault st.cursor.consumed ((st.onto source).feed options x)
      (st.feed options x) := by
  have hpending : (st.onto source).pending = st.pending := rfl
  simp only [State.feed, hpending]
  split
  · rw [detect_onto]
    refine .moved _ _ _ ?_
    rw [State.cursor_detect]
    exact h
  · exact collect_together options h _ x

end

/-- What a round comes to over a script and over the whole input, from a cursor that has passed `n`
bytes. A script fails when it should bring the byte behind the one to be read, or behind the
linefeed of a spliced line end. -/
inductive Round.Together (b r : Bytes) (fault : Option SystemError) (n : Nat) :
    (script whole : Round) → Prop where
  | broken {e : SystemError} {whole : Round} (hf : fault = some e) (hn : b.length ≤ n + 2)
    (hd : b.length = n + 2 → ∀ st events, whole = .moved st events → Unheard events) :
    Together b r fault n (.failed (.unreadable e)) whole
  | stray (x : StrayBackslash) : Together b r fault n (.failed (.stray x)) (.failed (.stray x))
  | finished {events : List Event} {summary : Summary} (hf : fault = none) :
    Together b r fault n (.finished events summary) (.finished events summary)
  | moved {st : State} {source : Source} {events : List Event}
    (h : st.cursor.Beside b r fault source) :
    Together b r fault n (.moved (st.onto source) events) (.moved st events)

section

variable {b r : Bytes} {fault : Option SystemError} {source : Source} {st : State}

theorem round_together (options : Options) (h : st.cursor.Beside b r fault source) :
    Round.Together b r fault st.cursor.consumed ((st.onto source).round options)
      (st.round options) := by
  simp only [State.round]
  rcases step_together h with ⟨e, st', hf, hn, hs⟩ | ⟨x, st', source', hs, hs', hc, hx, hn⟩
  · rw [hs]
    exact .broken hf (by omega) fun hlast => by omega
  · rw [hs, hs']
    cases x with
    | none =>
      refine .finished ?_
      cases hf : fault with
      | none => rfl
      | some e => simp [hf] at hx
    | some x =>
      have hfeed := feed_together options hc x
      dsimp only
      generalize (st'.onto source').feed options x = script at hfeed
      generalize st'.feed options x = whole at hfeed
      cases hfeed with
      | broken hf hb hd =>
        refine .broken hf (by simpa [hn] using hb) ?_
        intro _ st'' events hw
        cases whole with
        | error failure => cases hw
        | ok result =>
          obtain ⟨rfl, rfl⟩ := Round.moved.inj hw
          exact hd _ _ rfl
      | stray stray => exact .stray stray
      | moved st'' source'' events hb => exact .moved hb

/-- A cursor that has not read anything stands beside every source that brings `b`. -/
theorem beside_start {source : Source} (hs : source.supply = (b, fault))
    (hr : fault = none → r = []) :
    (State.start (.ofBytes (b ++ r))).cursor.Beside b r fault source where
  bounded := Nat.zero_le _
  script _ := hs
  whole _ := Source.supply_ofBytes _
  live _ := rfl
  rest := hr
  unprimed _ := ⟨rfl, rfl⟩
  ahead _ hp := by cases hp

theorem resume_onto (options : Options) (h : st.cursor.Beside b r none source)
    (seen : List Event) :
    resume options (st.onto source) seen = resume options st seen := by
  induction hn : st.cursor.unread using Nat.strong_induction_on generalizing st source seen with
  | _ n ih =>
    have hround := round_together options h
    generalize hscript : (st.onto source).round options = script at hround
    generalize hwhole : st.round options = whole at hround
    cases hround with
    | broken hf => cases hf
    | stray x => rw [resume_of_failed hscript, resume_of_failed hwhole]
    | finished => rw [resume_of_finished hscript, resume_of_finished hwhole]
    | moved hb =>
      rw [resume_of_moved hscript, resume_of_moved hwhole]
      exact ih _ (hn ▸ State.unread_of_round hwhole) hb _ rfl

/-- A scan makes of a source that comes to its end what it makes of the bytes as a whole. -/
theorem scan_of_supply (options : Options) {source : Source} (hs : source.supply = (b, none)) :
    scan options source = scan options (.ofBytes b) := by
  have h : (State.start (.ofBytes (b ++ []))).cursor.Beside b [] none source :=
    beside_start hs fun _ => rfl
  have hresume := resume_onto options h []
  rw [List.append_nil] at hresume
  exact hresume

end

end Scan

end HashLine
