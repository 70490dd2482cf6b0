import HashLine.Source

/-! A position in a source with a window of four slots: two bytes behind, the current byte and the
one ahead. `none` in a slot is the outside of the stream, before its first byte or after its last.
Beside the window a cursor keeps the line of the current byte, the number of bytes that have been
current, and whether only blanks stand before the current byte on its line. -/

namespace HashLine

structure Cursor where
  source : Source
  prev2 : Option UInt8
  prev : Option UInt8
  current : Option UInt8
  next : Option UInt8
  /-- Has `next` been read for the first time? -/
  primed : Bool
  /-- Has the source come to its end? It is not read again after that. -/
  exhausted : Bool
  line : Nat
  consumed : Nat
  onlyBlanks : Bool
deriving DecidableEq, Repr

namespace Cursor

def start (source : Source) : Cursor where
  source := source
  prev2 := none
  prev := none
  current := none
  next := none
  primed := false
  exhausted := false
  line := 1
  consumed := 0
  onlyBlanks := true

/-- The largest line number; counting stops there. -/
def lastLine : Nat := 0xffffffff

/-- The number of lines touched so far, none in an empty stream. -/
def linesSeen (c : Cursor) : Nat :=
  if c.consumed = 0 then 0 else c.line

/-- The offset of the current byte; past the last byte, the length of the stream. -/
def offset (c : Cursor) : Nat :=
  if c.current.isSome then c.consumed - 1 else c.consumed

def endOffset (c : Cursor) : Nat :=
  c.consumed

def atEnd (c : Cursor) : Bool :=
  c.primed && c.current.isNone

/-- Take the current byte for the first of a line. -/
def restartLine (c : Cursor) : Cursor :=
  { c with onlyBlanks := true }

def read (c : Cursor) : Except SystemError (Option UInt8) × Cursor :=
  if c.exhausted then (.ok none, c)
  else match c.source.pull with
    | (.error e, rest) => (.error e, { c with source := rest })
    | (.ok none, rest) => (.ok none, { c with source := rest, exhausted := true })
    | (.ok (some b), rest) => (.ok (some b), { c with source := rest })

/-- Fill the slot ahead before the first byte becomes current. -/
def prime (c : Cursor) : Except SystemError Unit × Cursor :=
  if c.primed then (.ok (), c)
  else match c.read with
    | (.error e, c) => (.error e, c)
    | (.ok b, c) => (.ok (), { c with next := b, primed := true })

/-- Read what is to stand ahead after a shift; nothing follows the end. -/
def lookahead (c : Cursor) : Except SystemError (Option UInt8) × Cursor :=
  if c.next.isSome then c.read else (.ok none, c)

/-- Move every slot back by one and put `fresh` ahead. -/
def shift (c : Cursor) (fresh : Option UInt8) : Cursor :=
  { c with
    prev2 := c.prev
    prev := c.current
    current := c.next
    next := fresh
    consumed := if c.next.isSome then c.consumed + 1 else c.consumed
    line :=
      if c.next.isSome ∧ c.current = some Byte.linefeed then min (c.line + 1) lastLine else c.line
    onlyBlanks :=
      match c.current with
      | none => c.onlyBlanks
      | some b =>
        if b = Byte.linefeed then true
        else if Byte.isBlank b then c.onlyBlanks
        else false }

/-- Make the byte ahead the current one and return it. A failed read moves nothing, though a first
call may already have filled the slot ahead, and the next call goes on from there. -/
def advance (c : Cursor) : Except SystemError (Option UInt8) × Cursor :=
  match c.prime with
  | (.error e, c) => (.error e, c)
  | (.ok (), c) =>
    match c.lookahead with
    | (.error e, c) => (.error e, c)
    | (.ok fresh, c) => (.ok c.next, c.shift fresh)

/-- The number of bytes that can still become current. -/
def unread (c : Cursor) : Nat :=
  c.source.size + c.next.toList.length

theorem next_read (c : Cursor) : c.read.2.next = c.next := by
  unfold read
  split
  · rfl
  · split <;> rfl

theorem size_read (c : Cursor) : c.read.2.source.size ≤ c.source.size := by
  have h := c.source.size_pull
  unfold read
  split
  · exact Nat.le_refl _
  · split <;> simp_all

theorem size_lt_of_read {c c' : Cursor} {b : UInt8} (h : c.read = (.ok (some b), c')) :
    c'.source.size < c.source.size := by
  unfold read at h
  split at h
  · simp at h
  · split at h
    · simp at h
    · simp at h
    · next _ _ hp =>
      obtain ⟨hb, rfl⟩ := Prod.mk.inj h
      exact Source.size_lt_of_pull hp

theorem unread_prime (c : Cursor) : c.prime.2.unread ≤ c.unread := by
  unfold prime
  split
  · exact Nat.le_refl _
  · have hn := c.next_read
    have hs := c.size_read
    split
    · next _ _ hr =>
      rw [hr] at hn hs
      simp only [unread] at *
      rw [hn]
      omega
    · next b c' hr =>
      cases b with
      | none =>
        rw [hr] at hs
        simp only [unread] at *
        simp
        omega
      | some b =>
        have hl := size_lt_of_read hr
        simp only [unread]
        simp
        omega

theorem next_lookahead (c : Cursor) : c.lookahead.2.next = c.next := by
  unfold lookahead
  split
  · exact c.next_read
  · rfl

/-- What stands ahead after a shift was among the bytes to come. -/
theorem unread_shift {c c' : Cursor} {fresh : Option UInt8} (h : c.lookahead = (.ok fresh, c')) :
    (c'.shift fresh).unread + c.next.toList.length ≤ c.unread := by
  have hs : c.lookahead.2.source.size + fresh.toList.length ≤ c.source.size := by
    rw [h]
    unfold lookahead at h
    split at h
    · cases fresh with
      | none => simpa [h] using c.size_read
      | some b => exact size_lt_of_read h
    · obtain ⟨hf, rfl⟩ := Prod.mk.inj h
      simp only [Except.ok.injEq] at hf
      simp [← hf]
  rw [h] at hs
  dsimp only at hs
  simp only [unread, shift]
  omega

theorem unread_of_advance {c c' : Cursor} {r : Option UInt8} (h : c.advance = (.ok r, c')) :
    c'.unread + r.toList.length ≤ c.unread := by
  have hp := c.unread_prime
  unfold advance at h
  split at h
  · simp at h
  · next c₁ h₁ =>
    rw [h₁] at hp
    have hn := c₁.next_lookahead
    split at h
    · simp at h
    · next fresh c₂ h₂ =>
      obtain ⟨hr, rfl⟩ := Prod.mk.inj h
      simp only [Except.ok.injEq] at hr
      have hs := unread_shift h₂
      rw [h₂] at hn
      simp only at hn hp
      rw [← hr, hn]
      omega

end Cursor

end HashLine
