import Mathlib.Data.PNat.Basic
import HashLine.Proofs.Lockstep

/-! The way bytes arrive does not matter to a scan: in pieces of any length, through a buffer of any
capacity, and with any interruptions. It reads up to the first end that its source reports and not
one read further. -/

namespace HashLine

def Read.bytes : Read → Bytes
  | data b tail => b :: tail
  | _ => []

namespace Source

/-- One read into a buffer with room for `room` bytes: what it brings, and what is left of the
source. Of a piece that is longer the rest is left. -/
def readInto (room : ℕ+) (rest : Source) : Read → Read × Source
  | .data b tail =>
    match tail.drop room.natPred with
    | [] => (.data b tail, rest)
    | b' :: tail' => (.data b (tail.take room.natPred), .data b' tail' :: rest)
  | read => (read, rest)

theorem readInto_lt (room : ℕ+) (rest : Source) (read : Read) :
    (readInto room rest read).2.size + (readInto room rest read).2.length <
      size (read :: rest) + (read :: rest).length := by
  cases read with
  | data b tail =>
    simp only [readInto]
    split
    · simp only [size, List.length_cons]
      omega
    · next b' tail' hdrop =>
      have hlength := congrArg List.length hdrop
      simp only [List.length_drop, List.length_cons] at hlength
      simp only [size, List.length_cons]
      omega
  | ended => simp [readInto, size]
  | interrupted => simp [readInto, size]
  | failed e => simp [readInto, size]

/-- What a source brings through a buffer of `capacity` bytes that is filled by one read whenever it
is empty. -/
def buffered (capacity : ℕ+) (s : Source) : Source :=
  match s with
  | [] => []
  | read :: rest =>
    (readInto capacity rest read).1 :: buffered capacity (readInto capacity rest read).2
termination_by s.size + s.length
decreasing_by exact readInto_lt capacity rest read

theorem supply_readInto (room : ℕ+) (rest : Source) (read : Read) {s : Source}
    (hs : s.supply = (readInto room rest read).2.supply) :
    supply ((readInto room rest read).1 :: s) = supply (read :: rest) := by
  cases read with
  | data b tail =>
    simp only [readInto] at hs ⊢
    cases hdrop : tail.drop room.natPred with
    | nil =>
      rw [hdrop] at hs
      simp only [supply, hs]
    | cons b' tail' =>
      rw [hdrop] at hs
      have htail : tail = tail.take room.natPred ++ b' :: tail' := by
        rw [← hdrop, List.take_append_drop]
      simp only [supply, hs]
      rw [← List.append_assoc, List.cons_append, ← htail]
  | ended => rfl
  | interrupted => exact hs
  | failed e => rfl

/-- A buffer changes the pieces and not what they bring together. -/
theorem supply_buffered (capacity : ℕ+) (s : Source) :
    (s.buffered capacity).supply = s.supply := by
  fun_induction buffered capacity s with
  | case1 => rfl
  | case2 read rest ih => exact supply_readInto capacity rest read ih

theorem readInto_append (room : ℕ+) (rest t : Source) (read : Read) :
    readInto room (rest ++ t) read =
      ((readInto room rest read).1, (readInto room rest read).2 ++ t) := by
  cases read with
  | data b tail =>
    simp only [readInto]
    split <;> rfl
  | ended => rfl
  | interrupted => rfl
  | failed e => rfl

theorem buffered_append (capacity : ℕ+) (s t : Source) :
    buffered capacity (s ++ t) = s.buffered capacity ++ t.buffered capacity := by
  fun_induction buffered capacity s with
  | case1 => rfl
  | case2 read rest ih => rw [List.cons_append, buffered, readInto_append, ih, List.cons_append]

def beforeEnd (s : Source) : Source :=
  s.takeWhile (· != Read.ended)

def afterEnd (s : Source) : Source :=
  (s.dropWhile (· != Read.ended)).tail

theorem split_at_end (s : Source) : s.afterEnd = [] ∨ s = s.beforeEnd ++ .ended :: s.afterEnd := by
  induction s with
  | nil => exact .inl rfl
  | cons read rest ih =>
    by_cases hread : read = .ended
    · subst hread
      exact .inr rfl
    · have hbefore : beforeEnd (read :: rest) = read :: beforeEnd rest :=
        List.takeWhile_cons_of_pos (by simpa using hread)
      have hafter : afterEnd (read :: rest) = afterEnd rest :=
        congrArg List.tail (List.dropWhile_cons_of_pos (by simpa using hread))
      rw [hbefore, hafter]
      exact ih.imp_right fun h => congrArg (read :: ·) h

theorem ended_suffix_buffered (capacity : ℕ+) (before after : Source) :
    .ended :: after.buffered capacity <:+ buffered capacity (before ++ .ended :: after) := by
  have hended : buffered capacity (.ended :: after) = .ended :: after.buffered capacity := by
    rw [buffered]
    rfl
  rw [buffered_append, hended]
  exact List.suffix_append _ _

theorem supply_append {before : Source} (rest : Source)
    (h : ∀ read ∈ before, read = .interrupted ∨ ∃ b tail, read = .data b tail) :
    (before ++ rest).supply = (before.flatMap Read.bytes ++ rest.supply.1, rest.supply.2) := by
  induction before with
  | nil => rfl
  | cons read before ih =>
    have hrest := ih fun read hread => h read (List.mem_cons_of_mem _ hread)
    rcases h read List.mem_cons_self with rfl | ⟨b, tail, rfl⟩
    · exact hrest
    · rw [List.cons_append, supply, hrest]
      simp [Read.bytes]

theorem supply_dropWhile (s : Source) :
    supply (s.dropWhile (· != Read.ended)) = ([], none) := by
  induction s with
  | nil => rfl
  | cons read rest ih =>
    by_cases h : read = .ended
    · subst h
      rfl
    · rw [List.dropWhile_cons_of_pos (by simpa using h)]
      exact ih

theorem supply_of_beforeEnd {s : Source} (h : ∀ e, .failed e ∉ s.beforeEnd) :
    s.supply = (s.beforeEnd.flatMap Read.bytes, none) := by
  have hgo : ∀ read ∈ s.beforeEnd, read = .interrupted ∨ ∃ b tail, read = .data b tail := by
    intro read hread
    have hne : (read != Read.ended) = true :=
      List.mem_takeWhile_imp (p := (· != Read.ended)) hread
    cases read with
    | data b tail => exact .inr ⟨b, tail, rfl⟩
    | ended => simp at hne
    | interrupted => exact .inl rfl
    | failed e => exact absurd hread (h e)
  have hsplit := supply_append (s.dropWhile (· != Read.ended)) hgo
  rw [supply_dropWhile, List.append_nil] at hsplit
  rw [← hsplit, beforeEnd, List.takeWhile_append_dropWhile]

theorem pull_leaves {after s : Source} (h : .ended :: after <:+ s) :
    after <:+ s.pull.2 ∧ (s.pull.1 ≠ .ok none → .ended :: after <:+ s.pull.2) := by
  have hafter {t : Source} (ht : .ended :: after <:+ t) : after <:+ t :=
    (List.suffix_cons _ _).trans ht
  fun_induction pull s with
  | case1 => simp at h
  | case2 b rest =>
    have hrest := (List.suffix_cons_iff.mp h).resolve_left (by simp)
    exact ⟨hafter hrest, fun _ => hrest⟩
  | case3 b b' tail rest =>
    have hrest := (List.suffix_cons_iff.mp h).resolve_left (by simp)
    have hrest := hrest.trans (List.suffix_cons (.data b' tail) rest)
    exact ⟨hafter hrest, fun _ => hrest⟩
  | case4 rest =>
    refine ⟨?_, fun hne => absurd rfl hne⟩
    rcases List.suffix_cons_iff.mp h with heq | hrest
    · obtain ⟨-, rfl⟩ := List.cons.inj heq
      exact List.suffix_refl _
    · exact hafter hrest
  | case5 rest ih => exact ih ((List.suffix_cons_iff.mp h).resolve_left (by simp))
  | case6 e rest =>
    have hrest := (List.suffix_cons_iff.mp h).resolve_left (by simp)
    exact ⟨hafter hrest, fun _ => hrest⟩

end Source

namespace Cursor

/-- The reads in `after`, which follow an end of the source, are still to come. -/
structure Leaves (after : Source) (c : Cursor) : Prop where
  left : after <:+ c.source
  unended : c.exhausted = false → .ended :: after <:+ c.source

section

variable {after : Source} {c : Cursor}

theorem Leaves.read (h : Leaves after c) : Leaves after c.read.2 := by
  cases he : c.exhausted with
  | true =>
    simp only [Cursor.read, he]
    exact h
  | false =>
    obtain ⟨hleft, hunended⟩ := Source.pull_leaves (h.unended he)
    simp only [Cursor.read, he]
    generalize c.source.pull = pulled at hleft hunended
    rcases pulled with ⟨e | _ | x, rest⟩
    · exact ⟨hleft, fun _ => hunended (by simp)⟩
    · exact ⟨hleft, by simp⟩
    · exact ⟨hleft, fun _ => hunended (by simp)⟩

theorem Leaves.prime (h : Leaves after c) : Leaves after c.prime.2 := by
  have hread := h.read
  simp only [Cursor.prime]
  split
  · exact h
  · generalize c.read = result at hread
    rcases result with ⟨e | x, c'⟩
    · exact hread
    · exact ⟨hread.left, hread.unended⟩

theorem Leaves.lookahead (h : Leaves after c) : Leaves after c.lookahead.2 := by
  simp only [Cursor.lookahead]
  split
  · exact h.read
  · exact h

theorem Leaves.advance (h : Leaves after c) : Leaves after c.advance.2 := by
  have hprime := h.prime
  simp only [Cursor.advance]
  generalize c.prime = primed at hprime
  rcases primed with ⟨e | _, c₁⟩
  · exact hprime
  · have hlook := hprime.lookahead
    dsimp only at hlook ⊢
    generalize c₁.lookahead = looked at hlook
    rcases looked with ⟨e | fresh, c₂⟩
    · exact hlook
    · exact ⟨hlook.left, hlook.unended⟩

end

end Cursor

namespace Scan

theorem cursor_step (st : State) : st.step.2.cursor = st.cursor.advance.2 := by
  simp only [State.step]
  generalize st.cursor.advance = advanced
  rcases advanced with ⟨e | x, c⟩ <;> rfl

section

variable {P : Cursor → Prop} (hadvance : ∀ c, P c → P c.advance.2)
  (hrestart : ∀ c, P c → P c.restartLine) {options : Options} {st st' : State} {events : List Event}

include hadvance

theorem step_keeps (hp : P st.cursor) : P st.step.2.cursor := by
  rw [cursor_step]
  exact hadvance _ hp

include hrestart

theorem collect_keeps {p : Pending} {x : UInt8} (h : st.collect options p x = .ok (st', events))
    (hp : P st.cursor) : P st'.cursor := by
  have hstep := step_keeps hadvance hp
  unfold State.collect at h
  split at h
  · generalize st.step = stepped at h hstep
    rcases stepped with ⟨e | y, st₁⟩
    · cases h
    · obtain ⟨rfl, -⟩ := Prod.mk.inj (Except.ok.inj h)
      exact hstep
  · split at h
    · rw [State.cursor_of_complain h]
      exact hp
    · split at h
      · obtain ⟨rfl, -⟩ := Prod.mk.inj (Except.ok.inj h)
        exact hrestart _ hp
      · obtain ⟨rfl, -⟩ := Prod.mk.inj (Except.ok.inj h)
        exact hp

theorem feed_keeps {x : UInt8} (h : st.feed options x = .ok (st', events)) (hp : P st.cursor) :
    P st'.cursor := by
  unfold State.feed at h
  split at h
  · have hcursor := st.cursor_detect options x
    rw [Except.ok.inj h] at hcursor
    rw [hcursor]
    exact hp
  · exact collect_keeps hadvance hrestart h hp

/-- What each advance and each restart of a line keeps, a round keeps. -/
theorem round_keeps (h : st.round options = .moved st' events) (hp : P st.cursor) :
    P st'.cursor := by
  have hstep := step_keeps hadvance hp
  unfold State.round at h
  generalize st.step = stepped at h hstep
  rcases stepped with ⟨e | _ | x, st₁⟩
  · cases h
  · cases h
  · dsimp only at h
    split at h
    · cases h
    · next st₂ events₂ hfeed =>
      obtain ⟨rfl, rfl⟩ := Round.moved.inj h
      exact feed_keeps hadvance hrestart hfeed hstep

end

/-- The states that a scan comes to, those in the middle of a round among them. -/
inductive Reaches (options : Options) (source : Source) : State → Prop where
  | start : Reaches options source (.start source)
  | step {st : State} (h : Reaches options source st) : Reaches options source st.step.2
  | round {st st' : State} {events : List Event} (h : Reaches options source st)
    (hr : st.round options = .moved st' events) : Reaches options source st'

theorem Reaches.leaves {options : Options} {after source : Source} {st : State}
    (h : Reaches options source st) (hs : .ended :: after <:+ source) :
    st.cursor.Leaves after := by
  induction h with
  | start => exact ⟨(List.suffix_cons _ _).trans hs, fun _ => hs⟩
  | step _ ih => exact step_keeps (fun _ => Cursor.Leaves.advance) ih
  | round _ hr ih =>
    exact round_keeps (fun _ => Cursor.Leaves.advance) (fun _ h => ⟨h.left, h.unended⟩) hr ih

/-- A scan through a buffer of any capacity comes to what the scan of the same bytes as a whole
comes to, and it never reads behind the first end of its source. -/
theorem scan_buffered_eq_scan_bytes (capacity : ℕ+) (options : Options) {script : Source}
    (h : ∀ e, .failed e ∉ script.beforeEnd) :
    scan options (script.buffered capacity) =
        scan options (.ofBytes (script.beforeEnd.flatMap Read.bytes)) ∧
      ∀ st, Reaches options (script.buffered capacity) st →
        script.afterEnd.buffered capacity <:+ st.cursor.source := by
  constructor
  · apply scan_of_supply
    rw [Source.supply_buffered, Source.supply_of_beforeEnd h]
  · intro st hst
    rcases script.split_at_end with hnone | hsplit
    · rw [hnone, Source.buffered]
      exact List.nil_suffix
    · have hended := Source.ended_suffix_buffered capacity script.beforeEnd script.afterEnd
      rw [← hsplit] at hended
      exact (hst.leaves hended).left

/-- Interruptions, pieces that a buffer of two bytes cuts in the middle of a splice, and a failure
behind the end that is never met. -/
theorem scan_buffered_cut_splice :
    let script : Source :=
      [.interrupted, .data Byte.hash (utf8 "a\\"), .interrupted, .data Byte.linefeed (utf8 "b\nc"),
        .ended, .failed ⟨"behind the end"⟩]
    (scan ⟨.strict, .flush, true⟩ (script.buffered 2)).deliveries =
        [.directive ⟨1, 2, ⟨0, 6⟩, utf8 "a\\\nb\n", true⟩] ∧
      (scan ⟨.strict, .flush, true⟩ (script.buffered 2)).outcome =
        .ok ⟨3, 1, 0, false, .unquoted⟩ ∧
      ∀ st, Reaches ⟨.strict, .flush, true⟩ (script.buffered 2) st →
        [.failed ⟨"behind the end"⟩] <:+ st.cursor.source := by
  intro script
  have h := @scan_buffered_eq_scan_bytes 2 ⟨.strict, .flush, true⟩ script
    (by simp [script, Source.beforeEnd])
  have hafter : script.afterEnd.buffered 2 = [.failed ⟨"behind the end"⟩] := by decide +kernel
  rw [h.1, ← hafter]
  exact ⟨by decide +kernel, by decide +kernel, h.2⟩

end Scan

end HashLine
