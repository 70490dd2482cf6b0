import HashLine.Proofs.Script

/-! A scan that checks what it does. A difference below zero and a range that ends before it starts are
faults, and a fault ends everything. No source brings a scan to one, since in every state that a scan
reaches the current byte has been counted and an open directive began at a byte that has been: the checked
scan is the scan itself. -/

namespace HashLine

namespace Cursor

theorem offset_le_consumed (c : Cursor) : c.offset ≤ c.consumed := by
  unfold offset
  split <;> omega

theorem current_of_advance {c c' : Cursor} {r : Option UInt8} (h : c.advance = (.ok r, c')) :
    c'.current = r := by
  simp only [advance] at h
  split at h
  · cases h
  · split at h
    · cases h
    · obtain ⟨hr, rfl⟩ := Prod.mk.inj h
      exact Except.ok.inj hr

end Cursor

namespace Scan

structure State.Sound (s : State) : Prop where
  counted : s.cursor.current.isSome → 1 ≤ s.cursor.consumed
  begun : ∀ p ∈ s.pending, p.start ≤ s.cursor.consumed

namespace State

theorem sound_start (source : Source) : (start source).Sound := by
  constructor <;> simp [start, Cursor.start]

section

variable {options : Options} {s s' : State} {p : Pending} {b : UInt8} {events : List Event}

theorem of_step {r : Option UInt8} (h : s.step = (.ok r, s')) :
    s'.cursor.current = r ∧ s'.cursor.consumed = s.cursor.consumed + r.toList.length ∧
      s'.pending = s.pending := by
  unfold step at h
  split at h
  · cases h
  · next current c hc =>
    obtain ⟨hr, rfl⟩ := Prod.mk.inj h
    obtain rfl := Except.ok.inj hr
    exact ⟨Cursor.current_of_advance hc, Cursor.consumed_of_advance hc, rfl⟩

theorem Sound.step {r : Option UInt8} (h : s.Sound) (hs : s.step = (.ok r, s')) : s'.Sound := by
  obtain ⟨hcurrent, hconsumed, hpending⟩ := of_step hs
  constructor
  · intro hsome
    obtain ⟨b, rfl⟩ := Option.isSome_iff_exists.mp (hcurrent ▸ hsome)
    simp [hconsumed]
  · intro p hp
    have hbegun := h.begun p (hpending ▸ hp)
    omega

theorem Sound.withPending (h : s.Sound) (hp : p.start ≤ s.cursor.consumed) :
    { s with pending := some p }.Sound := by
  refine ⟨h.counted, ?_⟩
  rintro _ ⟨⟩
  exact hp

theorem Sound.detect (h : s.Sound) : (s.detect options b).1.Sound := by
  unfold State.detect
  split
  · split
    · exact h
    · exact h.withPending s.cursor.offset_le_consumed
  · exact h

theorem Sound.of_complain (h : s.Sound) (hs : s.complain options = .ok (s', events)) : s'.Sound := by
  unfold State.complain at hs
  split at hs
  · obtain ⟨rfl, -⟩ := Prod.mk.inj (Except.ok.inj hs)
    exact ⟨h.counted, h.begun⟩
  · obtain ⟨rfl, -⟩ := Prod.mk.inj (Except.ok.inj hs)
    exact ⟨h.counted, h.begun⟩
  · cases hs

theorem Sound.of_collect (h : s.Sound) (hp : p.start ≤ s.cursor.consumed)
    (hs : s.collect options p b = .ok (s', events)) : s'.Sound := by
  unfold State.collect at hs
  split at hs
  · split at hs
    · cases hs
    · next s₁ hstep =>
      obtain ⟨rfl, -⟩ := Prod.mk.inj (Except.ok.inj hs)
      obtain ⟨-, hconsumed, -⟩ := of_step hstep
      exact (h.step hstep).withPending (hp.trans (hconsumed ▸ Nat.le_add_right _ _))
  · split at hs
    · exact (h.withPending (p := p.push b) hp).of_complain hs
    · split at hs
      · obtain ⟨rfl, -⟩ := Prod.mk.inj (Except.ok.inj hs)
        exact ⟨h.counted, by simp⟩
      · obtain ⟨rfl, -⟩ := Prod.mk.inj (Except.ok.inj hs)
        exact h.withPending hp

theorem Sound.of_feed (h : s.Sound) (hs : s.feed options b = .ok (s', events)) : s'.Sound := by
  unfold State.feed at hs
  split at hs
  · have hdetect : (s.detect options b).1.Sound := h.detect
    rw [Except.ok.inj hs] at hdetect
    exact hdetect
  · next p hp => exact h.of_collect (h.begun p hp) hs

theorem Sound.of_round (h : s.Sound) (hs : s.round options = .moved s' events) : s'.Sound := by
  unfold State.round at hs
  split at hs
  · cases hs
  · cases hs
  · next b s₁ hstep =>
    split at hs
    · cases hs
    · next hfeed =>
      obtain ⟨rfl, rfl⟩ := Round.moved.inj hs
      exact (h.step hstep).of_feed hfeed

end

end State

end Scan

inductive Fault where
  | reversed (bounds : ReversedBounds)
  | negative (n m : Nat)
  | outside (offset length : Nat)
  /-- A cut of a text elsewhere than between two of its characters or at its ends. -/
  | misplaced (offset : Nat)
  /-- Windows that would hold nothing. -/
  | widthless
  /-- A round of a scan that leaves no fewer bytes to come. -/
  | stalled
deriving DecidableEq, Repr

abbrev Checked (α : Type) := Except Fault α

namespace Checked

theorem ok_bind {α β : Type} (a : α) (f : α → Checked β) : (Except.ok a : Checked α) >>= f = f a :=
  rfl

def span (start stop : Nat) : Checked Span :=
  (Span.ofBounds start stop).mapError .reversed

theorem span_eq {start stop : Nat} (h : start ≤ stop) : span start stop = .ok ⟨start, stop⟩ := by
  rw [span, Span.ofBounds, if_pos h]
  rfl

def sub (n m : Nat) : Checked Nat :=
  if m ≤ n then .ok (n - m) else .error (.negative n m)

theorem sub_eq {n m : Nat} (h : m ≤ n) : sub n m = .ok (n - m) :=
  if_pos h

open Scan

section

variable {options : Options} {s : State} {p : Pending} {b : UInt8}

def offset (c : Cursor) : Checked Nat :=
  if c.current.isSome then sub c.consumed 1 else .ok c.consumed

theorem offset_eq (h : s.Sound) : offset s.cursor = .ok s.cursor.offset := by
  unfold offset Cursor.offset
  split
  · next hsome => exact sub_eq (h.counted hsome)
  · rfl

def detect (options : Options) (s : State) (b : UInt8) : Checked (State × List Event) :=
  if b = Byte.hash ∧ s.cursor.onlyBlanks then
    if options.gateQuotes ∧ s.quotes.isOpen then
      .ok (s, [.gated s.cursor.line s.quotes])
    else do
      let start ← offset s.cursor
      return ({ s with pending := some ⟨s.cursor.line, start, []⟩ }, [.started s.cursor.line])
  else .ok (s, [])

theorem detect_eq (h : s.Sound) : detect options s b = .ok (s.detect options b) := by
  unfold detect State.detect
  split
  · split
    · rfl
    · rw [offset_eq h, ok_bind]
      rfl
  · rfl

def emit (s : State) (p : Pending) (terminated : Bool) : Checked (State × Event) := do
  let span ← span p.start s.cursor.endOffset
  let d : Directive :=
    { line := p.line
      endLine := s.cursor.line
      span := span
      text := p.collected.reverse
      terminated := terminated }
  return ({ s with pending := none, emitted := s.emitted + 1 }, .delivered (.directive d))

theorem emit_eq (hp : p.start ≤ s.cursor.consumed) (terminated : Bool) :
    emit s p terminated = .ok (s.emit p terminated) := by
  rw [emit, Cursor.endOffset, span_eq hp, ok_bind]
  rfl

def complain (options : Options) (s : State) : Checked (Except Failure (State × List Event)) := do
  let start ← offset s.cursor
  let span ← span start s.cursor.endOffset
  let stray : StrayBackslash := ⟨s.cursor.line, span, s.cursor.next⟩
  let s := { s with strays := s.strays + 1 }
  match options.continuations with
  | .lenient => return .ok (s, [.tolerated stray])
  | .warn => return .ok (s, [.delivered (.warning (.stray stray))])
  | .strict => return .error (.stray stray)

theorem complain_eq (h : s.Sound) : complain options s = .ok (s.complain options) := by
  rw [complain, offset_eq h, ok_bind, Cursor.endOffset, span_eq s.cursor.offset_le_consumed, ok_bind,
    State.complain]
  cases options.continuations <;> rfl

def collect (options : Options) (s : State) (p : Pending) (b : UInt8) :
    Checked (Except Failure (State × List Event)) :=
  if b = Byte.backslash ∧ s.cursor.next = some Byte.linefeed then
    match s.step with
    | (.error e, _) => .ok (.error (.unreadable e))
    | (.ok _, s) =>
      .ok (.ok ({ s with pending := some ((p.push Byte.backslash).push Byte.linefeed) },
        [.continued s.cursor.line]))
  else if b = Byte.backslash ∧ looksBroken s.cursor.next ∧ ¬ s.quotes.isOpen then
    complain options { s with pending := some (p.push b) }
  else if b = Byte.linefeed then do
    let (s, event) ← emit s (p.push b) true
    return .ok ({ s with cursor := s.cursor.restartLine }, [event])
  else
    .ok (.ok ({ s with pending := some (p.push b) }, []))

theorem collect_eq (h : s.Sound) (hp : p.start ≤ s.cursor.consumed) :
    collect options s p b = .ok (s.collect options p b) := by
  unfold collect State.collect
  split
  · rcases s.step with ⟨_ | _, _⟩ <;> rfl
  · split
    · exact complain_eq (h.withPending (p := p.push b) hp)
    · split
      · rw [emit_eq (p := p.push b) hp true, ok_bind]
        rfl
      · rfl

def feed (options : Options) (s : State) (b : UInt8) :
    Checked (Except Failure (State × List Event)) :=
  match s.pending with
  | none => .ok <$> detect options s b
  | some p => collect options s p b

theorem feed_eq (h : s.Sound) : feed options s b = .ok (s.feed options b) := by
  rw [feed, State.feed]
  cases hp : s.pending with
  | none => exact congrArg (Except.ok <$> ·) (detect_eq h)
  | some p => exact collect_eq h (h.begun p hp)

def finish (options : Options) (s : State) : Checked (List Event × Summary) :=
  match s.pending with
  | none => .ok ([], s.summary false)
  | some p => do
    let span ← span p.start s.cursor.endOffset
    let warned := Event.delivered (.warning (.unterminated p.line span))
    match options.onEnd with
    | .flush =>
      let (s, event) ← emit s p false
      return ([warned, event], s.summary true)
    | .discard => return ([warned], s.summary true)

theorem finish_eq (h : s.Sound) : finish options s = .ok (s.finish options) := by
  rw [finish, State.finish]
  cases hp : s.pending with
  | none => rfl
  | some p =>
    dsimp only [Cursor.endOffset]
    rw [span_eq (h.begun p hp), ok_bind]
    cases options.onEnd with
    | flush =>
      dsimp only
      rw [emit_eq (h.begun p hp), ok_bind]
      rfl
    | discard => rfl

def round (options : Options) (s : State) : Checked Round :=
  match s.step with
  | (.error e, _) => .ok (.failed (.unreadable e))
  | (.ok none, s) => do
    let (events, summary) ← finish options s
    return .finished events summary
  | (.ok (some b), s) => do
    match ← feed options s b with
    | .error failure => return .failed failure
    | .ok (s, events) => return .moved s events

theorem round_eq (h : s.Sound) : round options s = .ok (s.round options) := by
  rw [round, State.round]
  match hstep : s.step with
  | (.error e, _) => rfl
  | (.ok none, s₁) =>
    dsimp only
    rw [finish_eq (h.step hstep), ok_bind]
    rfl
  | (.ok (some b), s₁) =>
    dsimp only
    rw [feed_eq (h.step hstep), ok_bind]
    cases s₁.feed options b <;> rfl

def resume (options : Options) (s : State) (seen : List Event) : Checked Run :=
  match round options s with
  | .error fault => .error fault
  | .ok (.failed failure) => .ok ⟨seen.reverse, .error failure⟩
  | .ok (.finished events summary) => .ok ⟨seen.reverse ++ events, .ok summary⟩
  | .ok (.moved s' events) =>
    if s'.cursor.unread < s.cursor.unread then resume options s' (events.reverse ++ seen)
    else .error .stalled
termination_by s.cursor.unread

theorem resume_eq (h : s.Sound) (seen : List Event) :
    resume options s seen = .ok (Scan.resume options s seen) := by
  fun_induction Scan.resume options s seen with
  | case1 s seen failure hround => rw [resume, round_eq h, hround]
  | case2 s seen events summary hround => rw [resume, round_eq h, hround]
  | case3 s seen s' events hround ih =>
    rw [resume, round_eq h, hround]
    dsimp only
    rw [if_pos (State.unread_of_round hround)]
    -- The round leaves a sound state, and all further rounds start from there.
    exact ih (h.of_round hround)

end

def scan (options : Options) (source : Source) : Checked Run :=
  resume options (.start source) []

theorem scan_eq (options : Options) (source : Source) :
    scan options source = .ok (HashLine.scan options source) :=
  resume_eq (State.sound_start source) []

end Checked

end HashLine
