import HashLine.Cursor
import HashLine.Options
import HashLine.Scan.Event

/-! One step of a scan. Outside a directive a scan only watches for a `#` that begins its line;
inside one it collects bytes up to the linefeed that ends it. -/

namespace HashLine

/-- A directive whose end has not been reached. -/
structure Pending where
  line : Nat
  start : Nat
  /-- The text so far, last byte first. -/
  collected : Bytes
deriving DecidableEq, Repr

def Pending.push (p : Pending) (b : UInt8) : Pending :=
  { p with collected := b :: p.collected }

namespace Scan

structure State where
  cursor : Cursor
  quotes : Quotes
  pending : Option Pending
  emitted : Nat
  strays : Nat
deriving DecidableEq, Repr

/-- Does a backslash before this look like a continuation gone wrong? -/
def looksBroken : Option UInt8 → Bool
  | none => true
  | some b => Byte.isBlank b

namespace State

def start (source : Source) : State where
  cursor := .start source
  quotes := .unquoted
  pending := none
  emitted := 0
  strays := 0

def step (s : State) : Except SystemError (Option UInt8) × State :=
  match s.cursor.advance with
  | (.error e, c) => (.error e, { s with cursor := c })
  | (.ok current, c) =>
    (.ok current, { s with cursor := c, quotes := s.quotes.update c.prev current })

/-- Outside a directive. -/
def detect (options : Options) (s : State) (b : UInt8) : State × List Event :=
  if b = Byte.hash ∧ s.cursor.onlyBlanks then
    if options.gateQuotes ∧ s.quotes.isOpen then
      (s, [.gated s.cursor.line s.quotes])
    else
      ({ s with pending := some ⟨s.cursor.line, s.cursor.offset, []⟩ }, [.started s.cursor.line])
  else (s, [])

def emit (s : State) (p : Pending) (terminated : Bool) : State × Event :=
  let d : Directive :=
    { line := p.line
      endLine := s.cursor.line
      span := ⟨p.start, s.cursor.endOffset⟩
      text := p.collected.reverse
      terminated := terminated }
  ({ s with pending := none, emitted := s.emitted + 1 }, .delivered (.directive d))

/-- The current byte is a stray backslash. -/
def complain (options : Options) (s : State) : Except Failure (State × List Event) :=
  let stray : StrayBackslash :=
    ⟨s.cursor.line, ⟨s.cursor.offset, s.cursor.endOffset⟩, s.cursor.next⟩
  let s := { s with strays := s.strays + 1 }
  match options.continuations with
  | .lenient => .ok (s, [.tolerated stray])
  | .warn => .ok (s, [.delivered (.warning (.stray stray))])
  | .strict => .error (.stray stray)

/-- Inside the directive `p`. -/
def collect (options : Options) (s : State) (p : Pending) (b : UInt8) :
    Except Failure (State × List Event) :=
  if b = Byte.backslash ∧ s.cursor.next = some Byte.linefeed then
    match s.step with
    | (.error e, _) => .error (.unreadable e)
    | (.ok _, s) =>
      .ok ({ s with pending := some ((p.push Byte.backslash).push Byte.linefeed) },
        [.continued s.cursor.line])
  else if b = Byte.backslash ∧ looksBroken s.cursor.next ∧ ¬ s.quotes.isOpen then
    complain options { s with pending := some (p.push b) }
  else if b = Byte.linefeed then
    let (s, event) := s.emit (p.push b) true
    .ok ({ s with cursor := s.cursor.restartLine }, [event])
  else
    .ok ({ s with pending := some (p.push b) }, [])

def feed (options : Options) (s : State) (b : UInt8) : Except Failure (State × List Event) :=
  match s.pending with
  | none => .ok (s.detect options b)
  | some p => s.collect options p b

def summary (s : State) (unterminated : Bool) : Summary where
  lines := s.cursor.linesSeen
  directives := s.emitted
  strayBackslashes := s.strays
  unterminated := unterminated
  quotes := s.quotes

def finish (options : Options) (s : State) : List Event × Summary :=
  match s.pending with
  | none => ([], s.summary false)
  | some p =>
    let warned := Event.delivered (.warning (.unterminated p.line ⟨p.start, s.cursor.endOffset⟩))
    match options.onEnd with
    | .flush =>
      let (s, event) := s.emit p false
      ([warned, event], s.summary true)
    | .discard => ([warned], s.summary true)

end State

/-- What the next byte, or the end of the input, comes to. -/
inductive Round where
  | failed (failure : Failure)
  | finished (events : List Event) (summary : Summary)
  | moved (s : State) (events : List Event)

namespace State

def round (options : Options) (s : State) : Round :=
  match s.step with
  | (.error e, _) => .failed (.unreadable e)
  | (.ok none, s) =>
    let (events, summary) := s.finish options
    .finished events summary
  | (.ok (some b), s) =>
    match s.feed options b with
    | .error failure => .failed failure
    | .ok (s, events) => .moved s events

theorem unread_of_step {s s' : State} {r : Option UInt8} (h : s.step = (.ok r, s')) :
    s'.cursor.unread + r.toList.length ≤ s.cursor.unread := by
  unfold step at h
  split at h
  · simp at h
  · next hc =>
    obtain ⟨hr, rfl⟩ := Prod.mk.inj h
    simp only [Except.ok.injEq] at hr
    subst hr
    exact Cursor.unread_of_advance hc

theorem cursor_detect (options : Options) (s : State) (b : UInt8) :
    (s.detect options b).1.cursor = s.cursor := by
  unfold detect
  split
  · split <;> rfl
  · rfl

theorem cursor_of_complain {options : Options} {s s' : State} {events : List Event}
    (h : s.complain options = .ok (s', events)) : s'.cursor = s.cursor := by
  unfold complain at h
  cases hc : options.continuations <;> simp [hc] at h <;> simp [← h.1]

theorem unread_of_collect {options : Options} {s s' : State} {p : Pending} {b : UInt8}
    {events : List Event} (h : s.collect options p b = .ok (s', events)) :
    s'.cursor.unread ≤ s.cursor.unread := by
  unfold collect at h
  split at h
  · split at h
    · simp at h
    · next hs =>
      have hu := unread_of_step hs
      obtain ⟨rfl, -⟩ := Prod.mk.inj (Except.ok.inj h)
      dsimp only
      omega
  · split at h
    · have hc := cursor_of_complain h
      exact Nat.le_of_eq (congrArg Cursor.unread hc)
    · split at h
      · obtain ⟨rfl, -⟩ := Prod.mk.inj (Except.ok.inj h)
        exact Nat.le_refl _
      · obtain ⟨rfl, -⟩ := Prod.mk.inj (Except.ok.inj h)
        exact Nat.le_refl _

theorem unread_of_feed {options : Options} {s s' : State} {b : UInt8} {events : List Event}
    (h : s.feed options b = .ok (s', events)) : s'.cursor.unread ≤ s.cursor.unread := by
  unfold feed at h
  split at h
  · have hc := s.cursor_detect options b
    rw [Except.ok.inj h] at hc
    exact Nat.le_of_eq (congrArg Cursor.unread hc)
  · exact unread_of_collect h

/-- Each round that does not end a scan leaves fewer bytes to come. -/
theorem unread_of_round {options : Options} {s s' : State} {events : List Event}
    (h : s.round options = .moved s' events) : s'.cursor.unread < s.cursor.unread := by
  unfold round at h
  split at h
  · simp at h
  · simp at h
  · next b s₁ h₁ =>
    split at h
    · simp at h
    · next s₂ events₂ h₂ =>
      obtain ⟨rfl, rfl⟩ := Round.moved.inj h
      have hs := unread_of_step h₁
      have hf := unread_of_feed h₂
      rw [Option.toList_some, List.length_singleton] at hs
      omega

end State

end Scan

end HashLine
