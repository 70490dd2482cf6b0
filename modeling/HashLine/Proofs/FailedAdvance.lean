import HashLine.Proofs.CheckedScan
import HashLine.Proofs.Resuming

/-! What can be seen of an advance that fails. The cursor does not move, so nothing can, except of a first
advance that fails only at its second read: it has put the first byte of the source ahead, and from then
until the next advance the cursor reads as if it stood at the end. -/

namespace HashLine

namespace Cursor

/-- All that a cursor tells without being moved. -/
structure Readings where
  prev2 : Option UInt8
  prev : Option UInt8
  current : Option UInt8
  next : Option UInt8
  line : Nat
  linesSeen : Nat
  offset : Nat
  endOffset : Nat
  onlyBlanks : Bool
  atEnd : Bool
deriving DecidableEq, Repr

def readings (c : Cursor) : Readings where
  prev2 := c.prev2
  prev := c.prev
  current := c.current
  next := c.next
  line := c.line
  linesSeen := c.linesSeen
  offset := c.offset
  endOffset := c.endOffset
  onlyBlanks := c.onlyBlanks
  atEnd := c.atEnd

/-- The cursors that calls lead to from the start of a source, beside the results of the advances among
the calls. A line is restarted only where `may` allows it. -/
inductive Called (may : Cursor → Prop) (source : Source) :
    List (Except SystemError (Option UInt8)) → Cursor → Prop where
  | start : Called may source [] (start source)
  | advance {results : List (Except SystemError (Option UInt8))} {c : Cursor}
    (h : Called may source results c) : Called may source (results ++ [c.advance.1]) c.advance.2
  | restartLine {results : List (Except SystemError (Option UInt8))} {c : Cursor}
    (h : Called may source results c) (hc : may c) : Called may source results c.restartLine

section

variable {c c' : Cursor} {e : SystemError}

/-- A read that does not come to the end only pulls from the source. -/
theorem of_read_eq {r : Except SystemError (Option UInt8)} (h : c.read = (r, c')) (hr : r ≠ .ok none) :
    c.source.pull = (r, c'.source) ∧ c' = c.onto c'.source := by
  simp only [read] at h
  split at h
  · obtain ⟨rfl, -⟩ := h
    exact absurd rfl hr
  · split at h
    · next hpull =>
      obtain ⟨rfl, rfl⟩ := h
      exact ⟨hpull, rfl⟩
    · obtain ⟨rfl, -⟩ := h
      exact absurd rfl hr
    · next hpull =>
      obtain ⟨rfl, rfl⟩ := h
      exact ⟨hpull, rfl⟩

theorem of_prime_eq_error (h : c.prime = (.error e, c')) :
    c.source.pull = (.error e, c'.source) ∧ c' = c.onto c'.source := by
  simp only [prime] at h
  split at h
  · cases h
  · split at h
    · next hread =>
      obtain ⟨rfl, rfl⟩ := h
      exact of_read_eq hread (by simp)
    · cases h

theorem of_prime_eq_ok (h : c.prime = (.ok (), c')) (hn : c'.next.isSome = true) :
    c' = c ∨ c.primed = false ∧ ∃ b, c.source.pull = (.ok (some b), c'.source) ∧
      c' = { c with source := c'.source, next := some b, primed := true } := by
  simp only [prime] at h
  split at h
  · obtain ⟨-, rfl⟩ := h
    exact .inl rfl
  · next hprimed =>
    split at h
    · cases h
    · next x c₁ hread =>
      obtain ⟨-, rfl⟩ := h
      obtain ⟨b, rfl⟩ := Option.isSome_iff_exists.mp hn
      obtain ⟨hpull, hc₁⟩ := of_read_eq hread (by simp)
      refine .inr ⟨Bool.eq_false_iff.mpr hprimed, b, hpull, ?_⟩
      rw [hc₁]
      rfl

/-- What a failed advance can have done: nothing but to meet the failure, or to take the first byte of the
source before that. -/
theorem of_advance_eq_error (h : c.advance = (.error e, c')) :
    c.source.pull = (.error e, c'.source) ∧ c' = c.onto c'.source ∨
      c.primed = false ∧ ∃ b rest, c.source.pull = (.ok (some b), rest) ∧
        c' = { c with source := c'.source, next := some b, primed := true } := by
  simp only [advance] at h
  split at h
  · next hprime =>
    obtain ⟨rfl, rfl⟩ := h
    exact .inl (of_prime_eq_error hprime)
  · next c₁ hprime =>
    split at h
    · next hlook =>
      obtain ⟨rfl, rfl⟩ := h
      simp only [lookahead] at hlook
      split at hlook
      · next hn =>
        obtain ⟨hpull, hc'⟩ := of_read_eq hlook (by simp)
        rcases of_prime_eq_ok hprime hn with rfl | ⟨hprimed, b, hfirst, hc₁⟩
        · exact .inl ⟨hpull, hc'⟩
        · refine .inr ⟨hprimed, b, _, hfirst, ?_⟩
          rw [hc', hc₁]
          rfl
      · cases hlook
    · cases h

end

/-- How the results of the advances so far show in the cursor. -/
structure Follows (source : Source) (moved : List (Option UInt8)) (c : Cursor) : Prop where
  last : ∀ x ∈ moved.getLast?, c.current = x ∧ c.primed = true
  unmoved : moved = [] → c.current = none ∧ c.consumed = 0 ∧ c.primed = c.next.isSome
  unread : c.primed = false → c.source.bytesBeforeEnd = source.bytesBeforeEnd

section

variable {may : Cursor → Prop} {source : Source} {moved : List (Option UInt8)} {c c' : Cursor}
  {results : List (Except SystemError (Option UInt8))}

theorem Follows.eq_nil_of_unprimed (h : Follows source moved c) (hp : c.primed = false) :
    moved = [] := by
  apply List.getLast?_eq_none_iff.mp
  apply Option.eq_none_iff_forall_not_mem.mpr
  intro x hx
  exact Bool.false_ne_true (hp.symm.trans (h.last x hx).2)

theorem primed_of_advance {x : Option UInt8} (h : c.advance = (.ok x, c')) : c'.primed = true := by
  simp only [advance] at h
  split at h
  · cases h
  · next c₁ hprime =>
    have hprimed : c₁.primed = true := by
      simp only [prime] at hprime
      split at hprime
      · next hp =>
        obtain ⟨-, rfl⟩ := hprime
        exact hp
      · split at hprime
        · cases hprime
        · obtain ⟨-, rfl⟩ := hprime
          rfl
    have hframe := congrArg primed c₁.frame_lookahead
    split at h
    · cases h
    · next hlook =>
      obtain ⟨-, rfl⟩ := h
      rw [hlook] at hframe
      exact hframe.trans hprimed

theorem follows_of_advance {x : Option UInt8} (ha : c.advance = (.ok x, c')) :
    Follows source (moved ++ [x]) c' := by
  have hp := primed_of_advance ha
  refine ⟨?_, by simp, fun hn => absurd hp (Bool.eq_false_iff.mp hn)⟩
  intro y hy
  obtain rfl : x = y := by simpa using hy
  exact ⟨current_of_advance ha, hp⟩

theorem Follows.fails (h : Follows source moved c) {e : SystemError}
    (ha : c.advance = (.error e, c')) : Follows source moved c' := by
  rcases of_advance_eq_error ha with ⟨hpull, hc'⟩ | ⟨hprimed, b, rest, -, hc'⟩
  · have hbytes : c.source.bytesBeforeEnd = c'.source.bytesBeforeEnd := by
      have hspends := c.source.spends_pull
      rw [hpull] at hspends
      exact hspends.1
    rw [hc']
    exact ⟨h.last, h.unmoved, fun hp => hbytes.symm.trans (h.unread hp)⟩
  · have hnil := h.eq_nil_of_unprimed hprimed
    obtain ⟨hcurrent, hconsumed, -⟩ := h.unmoved hnil
    rw [hc', hnil]
    exact ⟨by simp, fun _ => ⟨hcurrent, hconsumed, rfl⟩, by simp⟩

theorem Called.follows (h : Called may source results c) :
    Follows source (results.filterMap Except.toOption) c := by
  induction h with
  | start => exact ⟨by simp, fun _ => ⟨rfl, rfl, rfl⟩, fun _ => rfl⟩
  | @advance results c h ih =>
    rw [List.filterMap_append]
    rcases ha : c.advance with ⟨e | x, c'⟩
    · show Follows source (results.filterMap Except.toOption ++ []) c'
      rw [List.append_nil]
      exact ih.fails ha
    · exact follows_of_advance ha
  | restartLine h hc ih => exact ⟨ih.last, ih.unmoved, ih.unread⟩

theorem Follows.atEnd_iff (h : Follows source moved c) :
    c.atEnd = true ↔ moved.getLast? = some none ∨ moved = [] ∧ c.taken = 1 := by
  cases hlast : moved.getLast? with
  | none =>
    have hnil := List.getLast?_eq_none_iff.mp hlast
    obtain ⟨hcurrent, hconsumed, hprimed⟩ := h.unmoved hnil
    cases hn : c.next <;> simp [atEnd, taken, hcurrent, hconsumed, hprimed, hn, hnil]
  | some x =>
    have hne : moved ≠ [] := by
      rintro rfl
      cases hlast
    obtain ⟨hcurrent, hprimed⟩ := h.last x hlast
    simp [atEnd, hcurrent, hprimed, hne]

/-- An advance that fails leaves the readings alone, or it is the first to take a byte and shows it. -/
theorem Follows.readings_of_failed (h : Follows source moved c) {e : SystemError}
    (ha : c.advance = (.error e, c')) :
    c'.readings = c.readings ∧ c'.taken = c.taken ∨
      moved = [] ∧ c.taken = 0 ∧ c'.taken = 1 ∧ ∃ b, source.bytesBeforeEnd.head? = some b ∧
        c'.readings = { c.readings with next := some b, atEnd := true } := by
  rcases of_advance_eq_error ha with ⟨-, hc'⟩ | ⟨hunprimed, b, rest, hpull, hc'⟩
  · left
    rw [hc']
    exact ⟨rfl, rfl⟩
  · right
    have hnil := h.eq_nil_of_unprimed hunprimed
    obtain ⟨hcurrent, hconsumed, hprimed⟩ := h.unmoved hnil
    have hnext : c.next = none := by
      rw [hunprimed] at hprimed
      exact Option.isNone_iff_eq_none.mp (by simpa using hprimed.symm)
    have hfirst : source.bytesBeforeEnd.head? = some b := by
      have hspends := c.source.spends_pull
      rw [hpull] at hspends
      rw [← h.unread hunprimed, hspends.1]
      rfl
    refine ⟨hnil, by simp [taken, hconsumed, hnext], ?_, b, hfirst, ?_⟩
    · rw [hc']
      simp [taken, hconsumed]
    · rw [hc']
      simp [readings, atEnd, hcurrent, linesSeen, offset, endOffset]

/-- A failed advance can be seen just when it has taken a byte, and that is the first byte of the source.
So a cursor reads as being at the end when the last advance that did not fail returned the end, and also
when none has succeeded and one has failed behind the first byte. -/
theorem failed_advance_unseen_iff (h : Called may source results c) :
    let moved := results.filterMap Except.toOption
    (∀ e c', c.advance = (.error e, c') →
      (c'.readings = c.readings ↔ c'.taken = c.taken) ∧
        (c'.taken ≠ c.taken → moved = [] ∧ ∃ b, source.bytesBeforeEnd.head? = some b ∧
          c'.readings = { c.readings with next := some b, atEnd := true })) ∧
      (c.atEnd = true ↔ moved.getLast? = some none ∨ moved = [] ∧ c.taken = 1) := by
  refine ⟨?_, h.follows.atEnd_iff⟩
  intro e c' ha
  rcases h.follows.readings_of_failed ha with ⟨hreadings, htaken⟩ | ⟨hnil, hzero, hone, hseen⟩
  · exact ⟨iff_of_true hreadings htaken, fun hne => absurd htaken hne⟩
  · refine ⟨?_, fun _ => ⟨hnil, hseen⟩⟩
    constructor
    · -- how much was taken can be told from the readings
      exact congrArg fun r : Readings => r.endOffset + r.next.toList.length
    · intro htaken
      omega

end

/-- Failures before the first byte, behind it and behind the second: only the one in the middle is seen. -/
theorem failed_advance_unseen_elsewhere :
    let script : Source :=
      [.failed ⟨"a"⟩, .interrupted, .data Byte.hash [], .failed ⟨"b"⟩, .data Byte.tab [], .failed ⟨"c"⟩]
    let c₀ := start script
    let c₁ := c₀.advance.2.restartLine
    let c₂ := c₁.advance.2
    let c₃ := c₂.advance.2
    c₀.advance.1 = .error ⟨"a"⟩ ∧ c₀.advance.2.readings = c₀.readings ∧
      c₁.advance.1 = .error ⟨"b"⟩ ∧
        c₂.readings = { c₁.readings with next := some Byte.hash, atEnd := true } ∧
      c₃.advance.1 = .error ⟨"c"⟩ ∧ c₃.advance.2.readings = c₃.readings ∧ c₃.atEnd = false := by
  intro script c₀ c₁ c₂ c₃
  have h₀ : Called (fun _ => True) script [] c₀ := .start
  have h₁ := h₀.advance.restartLine trivial
  have h₃ := h₁.advance.advance
  have hfirst := (failed_advance_unseen_iff h₀).1 ⟨"a"⟩ _ rfl
  have hsecond := (failed_advance_unseen_iff h₁).1 ⟨"b"⟩ c₂ rfl
  have hthird := (failed_advance_unseen_iff h₃).1 ⟨"c"⟩ _ rfl
  obtain ⟨-, b, hb, hseen⟩ := hsecond.2 (by decide)
  obtain rfl : Byte.hash = b := Option.some.inj hb
  refine ⟨rfl, hfirst.1.mpr rfl, rfl, hseen, rfl, hthird.1.mpr rfl, ?_⟩
  rw [Bool.eq_false_iff, ne_eq, (failed_advance_unseen_iff h₃).2]
  decide

/-- A first advance that fails behind the first byte does not leave the cursor as it was: it has the byte
ahead now and reads as being at the end, though no advance has returned the end. -/
theorem failed_first_advance_reads_end :
    let c := start [.data Byte.hash [], .failed ⟨"lost"⟩]
    c.advance.1 = .error ⟨"lost"⟩ ∧ c.readings.next = none ∧ c.readings.atEnd = false ∧
      c.advance.2.readings.next = some Byte.hash ∧ c.advance.2.readings.atEnd = true := by
  decide

end Cursor

end HashLine
