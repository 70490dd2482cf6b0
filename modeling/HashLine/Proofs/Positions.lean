import HashLine.Proofs.FailedAdvance
import HashLine.Proofs.Rounds

/-! Where a cursor stands after so many advances, told from the input as a whole. Restarting the line at a
linefeed makes no difference to that, since the next advance does the same; so a scan that leaves it out
takes the same course. -/

namespace HashLine

namespace Cursor

/-- The byte so many places before offset `k`, if that is in the input. -/
def slot (s : Bytes) (k back : Nat) : Option UInt8 :=
  if back ≤ k then s[k - back]? else none

/-- What a cursor over `s` tells once it has been advanced `k` times. -/
structure StandsAt (s : Bytes) (k : Nat) (c : Cursor) : Prop where
  window : [c.prev2, c.prev, c.current, c.next] = [3, 2, 1, 0].map (slot s k)
  line : c.line = 1 + linefeedsBefore s (min k s.length - 1)
  linesSeen : c.linesSeen = if s.length = 0 then 0 else c.line
  offset : c.offset = if k ≤ s.length then k - 1 else s.length
  endOffset : c.endOffset = min k s.length
  onlyBlanks : c.onlyBlanks = true ↔ ∀ b ∈ lineHead s (k - 1), Byte.isBlank b = true
  atEnd : c.atEnd = true ↔ s.length < k

theorem slot_succ (s : Bytes) (k back : Nat) : slot s (k + 1) (back + 1) = slot s k back := by
  simp [slot]

theorem slot_one (s : Bytes) (k : Nat) : slot s k 1 = byteBefore s k := by
  cases k with
  | zero => rfl
  | succ k => exact slot_succ s k 0

theorem window_atOffset (s : Bytes) (k : Nat) :
    [(atOffset s k).prev2, (atOffset s k).prev, (atOffset s k).current, (atOffset s k).next] =
      [3, 2, 1, 0].map (slot s (k + 1)) := by
  have hprev2 : (atOffset s k).prev2 = slot s k 2 := by
    cases k with
    | zero => rfl
    | succ k => exact ((slot_succ s k 1).trans (slot_one s k)).symm
  simp only [List.map_cons, List.map_nil, slot_succ, slot_one]
  rw [hprev2]
  rfl

theorem linesSeen_atOffset (s : Bytes) (k : Nat) :
    (atOffset s k).linesSeen = if s.length = 0 then 0 else (atOffset s k).line := by
  have hzero : (atOffset s k).consumed = 0 ↔ s.length = 0 := by
    show min (k + 1) s.length = 0 ↔ _
    omega
  simp only [linesSeen, hzero]

theorem offset_atOffset_eq (s : Bytes) (k : Nat) :
    (atOffset s k).offset = if k + 1 ≤ s.length then k else s.length := by
  by_cases hk : k < s.length
  · rw [Scan.offset_atOffset hk]
    exact (if_pos hk).symm
  · have hnone : (atOffset s k).offset = (atOffset s k).consumed :=
      if_neg (by simpa [atOffset] using hk)
    have hconsumed : min (k + 1) s.length = s.length := by omega
    exact hnone.trans (hconsumed.trans (if_neg hk).symm)

theorem standsAt_atOffset {s : Bytes} (hl : s.count Byte.linefeed < lastLine) (k : Nat) :
    StandsAt s (k + 1) (atOffset s k) where
  window := window_atOffset s k
  line := by
    have hmin : min k (s.length - 1) = min (k + 1) s.length - 1 := by omega
    rw [← hmin]
    exact lineOf_of_count_lt hl _
  linesSeen := linesSeen_atOffset s k
  offset := offset_atOffset_eq s k
  endOffset := rfl
  onlyBlanks := List.all_eq_true
  atEnd := by
    rw [Nat.lt_succ_iff, ← List.getElem?_eq_none_iff]
    exact Option.isNone_iff_eq_none

theorem prime_restartLine (c : Cursor) : c.restartLine.prime = (c.prime.1, c.prime.2.restartLine) := by
  simp only [prime]
  rw [read_restartLine]
  show (if c.primed then _ else _) = _
  split
  · rfl
  · rcases c.read with ⟨_ | _, _⟩ <;> rfl

theorem current_prime (c : Cursor) : c.prime.2.current = c.current := by
  have hread := congrArg current c.frame_read
  simp only [prime]
  split
  · rfl
  · rcases hr : c.read with ⟨_ | _, c'⟩
    · rw [hr] at hread
      exact hread
    · rw [hr] at hread
      exact hread

/-- The advance behind a linefeed restarts the line by itself, unless it fails. -/
theorem advance_restartLine {c : Cursor} (hc : c.current = some Byte.linefeed) :
    c.restartLine.advance = match c.advance with
      | (.error e, c') => (.error e, c'.restartLine)
      | (.ok x, c') => (.ok x, c') := by
  have hprime := c.current_prime
  simp only [advance]
  rw [prime_restartLine]
  generalize c.prime = primed at hprime ⊢
  rcases primed with ⟨e | _, c₁⟩
  · rfl
  · have hlook := congrArg current c₁.frame_lookahead
    dsimp only at hprime hlook ⊢
    rw [lookahead_restartLine]
    generalize c₁.lookahead = looked at hlook ⊢
    rcases looked with ⟨e | fresh, c₂⟩
    · rfl
    · exact congrArg (Prod.mk _) (shift_restartLine (hlook.trans (hprime.trans hc)) fresh)

/-- What every cursor over `s` comes to whose line is only restarted at linefeeds. -/
theorem Called.advance_eq {s : Bytes} {results : List (Except SystemError (Option UInt8))} {c : Cursor}
    (h : Called (fun c => c.current = some Byte.linefeed) (.ofBytes s) results c) :
    c.advance = (.ok s[results.length]?, atOffset s results.length) := by
  induction h with
  | start => exact advance_start s
  | @advance results c h ih =>
    rw [ih, List.length_append]
    exact advance_atOffset s results.length
  | restartLine h hc ih =>
    rw [advance_restartLine hc, ih]

end Cursor

namespace Scan

/-! The scan once more, without restarting the line when a directive ends. -/

namespace Unrestarted

def collect (options : Options) (s : State) (p : Pending) (b : UInt8) :
    Except Failure (State × List Event) :=
  if b = Byte.linefeed then
    let (s, event) := s.emit (p.push b) true
    .ok (s, [event])
  else s.collect options p b

def feed (options : Options) (s : State) (b : UInt8) : Except Failure (State × List Event) :=
  match s.pending with
  | none => .ok (s.detect options b)
  | some p => collect options s p b

def round (options : Options) (s : State) : Round :=
  match s.step with
  | (.error e, _) => .failed (.unreadable e)
  | (.ok none, s) =>
    let (events, summary) := s.finish options
    .finished events summary
  | (.ok (some b), s) =>
    match feed options s b with
    | .error failure => .failed failure
    | .ok (s, events) => .moved s events

end Unrestarted

/-- The second state is the first, or would be if its line were restarted at the linefeed it is at. -/
inductive Trails : (st st' : State) → Prop where
  | same (st : State) : Trails st st
  | restarted {st : State} (h : st.cursor.current = some Byte.linefeed) :
    Trails { st with cursor := st.cursor.restartLine } st

inductive Round.Trails : (r r' : Round) → Prop where
  | failed (failure : Failure) : Trails (.failed failure) (.failed failure)
  | finished (events : List Event) (summary : Summary) :
    Trails (.finished events summary) (.finished events summary)
  | moved {st st' : State} (h : Scan.Trails st st') (events : List Event) :
    Trails (.moved st events) (.moved st' events)

theorem Round.Trails.eq_of_failed {r : Round} {failure : Failure} (h : Trails r (.failed failure)) :
    r = .failed failure := by
  cases h
  rfl

theorem Round.Trails.eq_of_finished {r : Round} {events : List Event} {summary : Summary}
    (h : Trails r (.finished events summary)) : r = .finished events summary := by
  cases h
  rfl

theorem Round.Trails.exists_of_moved {r : Round} {st' : State} {events : List Event}
    (h : Trails r (.moved st' events)) : ∃ st, r = .moved st events ∧ Scan.Trails st st' := by
  cases h with
  | moved hs => exact ⟨_, rfl, hs⟩

section

variable {st st' : State}

theorem Trails.unread_eq (h : Trails st st') : st.cursor.unread = st'.cursor.unread := by
  cases h <;> rfl

/-- A step forgets whether the line was restarted, unless it fails. -/
theorem Trails.step (h : Trails st st') :
    (∃ e s s', st.step = (.error e, s) ∧ st'.step = (.error e, s')) ∨ st.step = st'.step := by
  cases h with
  | same => exact .inr rfl
  | restarted hc =>
    simp only [State.step]
    rw [Cursor.advance_restartLine hc]
    rcases st'.cursor.advance with ⟨e | x, c⟩
    · exact .inl ⟨e, _, _, rfl, rfl⟩
    · exact .inr rfl

theorem feed_trails (options : Options) {b : UInt8} (hb : st.cursor.current = some b) :
    (∃ failure, st.feed options b = .error failure ∧
        Unrestarted.feed options st b = .error failure) ∨
      ∃ s s' events, st.feed options b = .ok (s, events) ∧
        Unrestarted.feed options st b = .ok (s', events) ∧ Trails s s' := by
  have hsame (r : Except Failure (State × List Event)) :
      (∃ failure, r = .error failure ∧ r = .error failure) ∨
        ∃ s s' events, r = .ok (s, events) ∧ r = .ok (s', events) ∧ Trails s s' := by
    rcases r with failure | ⟨s, events⟩
    · exact .inl ⟨failure, rfl, rfl⟩
    · exact .inr ⟨s, s, events, rfl, rfl, .same s⟩
  simp only [State.feed, Unrestarted.feed]
  cases st.pending with
  | none => exact hsame _
  | some p =>
    -- only the end of a directive restarts a line, and the byte at the cursor is that linefeed
    by_cases hlinefeed : b = Byte.linefeed
    · subst hlinefeed
      have hend : st.collect options p Byte.linefeed = _ :=
        collect_of_end st (fun h => absurd h.1 (by decide)) (fun h => absurd h.1 (by decide)) rfl
      refine .inr ⟨_, (st.emit (p.push Byte.linefeed) true).1, _, hend, rfl, ?_⟩
      exact @Trails.restarted (st.emit (p.push Byte.linefeed) true).1 hb
    · have hother : Unrestarted.collect options st p b = st.collect options p b := if_neg hlinefeed
      dsimp only
      rw [hother]
      exact hsame _

theorem round_trails (options : Options) (h : Trails st st') :
    Round.Trails (st.round options) (Unrestarted.round options st') := by
  simp only [State.round, Unrestarted.round]
  rcases h.step with ⟨e, s, s', hs, hs'⟩ | hstep
  · rw [hs, hs']
    exact .failed _
  · rw [hstep]
    rcases hs : st'.step with ⟨e | _ | b, s⟩
    · exact .failed _
    · exact .finished _ _
    · dsimp only
      rcases feed_trails options (State.of_step hs).1 with
        ⟨failure, hf, hf'⟩ | ⟨s₁, s₁', events, hf, hf', htrails⟩
      · rw [hf, hf']
        exact .failed failure
      · rw [hf, hf']
        exact .moved htrails events

end

namespace Unrestarted

theorem unread_of_round {options : Options} {s s' : State} {events : List Event}
    (h : round options s = .moved s' events) : s'.cursor.unread < s.cursor.unread := by
  have htrails := round_trails options (.same s)
  rw [h] at htrails
  obtain ⟨s₁, hround, hs⟩ := htrails.exists_of_moved
  rw [← hs.unread_eq]
  exact State.unread_of_round hround

def resume (options : Options) (s : State) (seen : List Event) : Run :=
  match _h : round options s with
  | .failed failure => ⟨seen.reverse, .error failure⟩
  | .finished events summary => ⟨seen.reverse ++ events, .ok summary⟩
  | .moved s' events => resume options s' (events.reverse ++ seen)
termination_by s.cursor.unread
decreasing_by exact unread_of_round _h

def scan (options : Options) (source : Source) : Run :=
  resume options (.start source) []

theorem resume_eq (options : Options) {st st' : State} (h : Trails st st') (seen : List Event) :
    resume options st' seen = Scan.resume options st seen := by
  have htrails := round_trails options h
  fun_induction resume options st' seen generalizing st with
  | case1 s seen failure hround =>
    rw [hround] at htrails
    rw [resume_of_failed htrails.eq_of_failed]
  | case2 s seen events summary hround =>
    rw [hround] at htrails
    rw [resume_of_finished htrails.eq_of_finished]
  | case3 s seen s' events hround ih =>
    rw [hround] at htrails
    obtain ⟨s₁, hround₁, hs⟩ := htrails.exists_of_moved
    rw [resume_of_moved hround₁]
    exact ih hs (round_trails options hs)

end Unrestarted

end Scan

namespace Cursor

/-- After each advance a cursor over an input tells what the input has there, however often its line was
restarted at linefeeds before; and a scan that does not restart lines is no other scan. -/
theorem tells_its_position :
    (∀ s : Bytes, s.count Byte.linefeed < lastLine → ∀ results c,
      Called (fun c => c.current = some Byte.linefeed) (.ofBytes s) results c →
        c.advance.1 = .ok s[results.length]? ∧ StandsAt s (results.length + 1) c.advance.2) ∧
      ∀ options source, Scan.Unrestarted.scan options source = scan options source := by
  constructor
  · intro s hl results c h
    rw [h.advance_eq]
    exact ⟨rfl, standsAt_atOffset hl results.length⟩
  · intro options source
    exact Scan.Unrestarted.resume_eq options (.same _) []

/-- Restarted twice at one linefeed and once at the next, and then advanced past the end. -/
theorem tells_its_position_behind_restarts :
    let s := utf8 " a\n\r\n#"
    let c₃ := (start (.ofBytes s)).advance.2.advance.2.advance.2.restartLine.restartLine
    let c₄ := c₃.advance.2
    let c₇ := c₄.advance.2.restartLine.advance.2.advance.2
    StandsAt s 4 c₄ ∧ c₄.readings =
        ⟨some 0x61, some Byte.linefeed, some Byte.carriageReturn, some Byte.linefeed, 2, 2, 3, 4,
          true, false⟩ ∧
      StandsAt s 8 c₇.advance.2 ∧ c₇.advance.2.readings =
        ⟨some Byte.hash, none, none, none, 3, 3, 6, 6, false, true⟩ := by
  intro s c₃ c₄ c₇
  have h₃ : Called (fun c => c.current = some Byte.linefeed) (.ofBytes s) _ c₃ :=
    (Called.start.advance.advance.advance.restartLine (by decide)).restartLine (by decide)
  have h₇ := (h₃.advance.advance.restartLine (by decide)).advance.advance
  have hstands := tells_its_position.1 s (by decide)
  exact ⟨(hstands _ _ h₃).2, by decide, (hstands _ _ h₇).2, by decide⟩

end Cursor

end HashLine
