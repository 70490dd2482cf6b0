import HashLine.Proofs.Arrival

/-! A cursor that is advanced again and again although its source fails now and then. A failed advance keeps
what it has already read, so the next one goes on from there: no byte is lost and none comes twice, and
each failure of the source is met once. -/

namespace HashLine

def Read.failure? : Read → Option SystemError
  | failed e => some e
  | _ => none

namespace Source

def bytesBeforeEnd (s : Source) : Bytes :=
  s.beforeEnd.flatMap Read.bytes

def failuresBeforeEnd (s : Source) : List SystemError :=
  s.beforeEnd.filterMap Read.failure?

section

variable {read : Read} (h : read ≠ .ended) (rest : Source)

include h

theorem beforeEnd_cons : beforeEnd (read :: rest) = read :: rest.beforeEnd :=
  List.takeWhile_cons_of_pos (by simpa using h)

theorem bytesBeforeEnd_cons :
    bytesBeforeEnd (read :: rest) = read.bytes ++ rest.bytesBeforeEnd := by
  rw [bytesBeforeEnd, beforeEnd_cons h, List.flatMap_cons]
  rfl

theorem failuresBeforeEnd_cons :
    failuresBeforeEnd (read :: rest) = read.failure?.toList ++ rest.failuresBeforeEnd := by
  rw [failuresBeforeEnd, beforeEnd_cons h, List.filterMap_cons]
  cases read.failure? <;> rfl

end

/-- What is still to come when a pull has brought a byte, the end or a failure. -/
def Spends (before after : Source) : Except SystemError (Option UInt8) → Prop
  | .ok (some b) => before.bytesBeforeEnd = b :: after.bytesBeforeEnd ∧
      before.failuresBeforeEnd = after.failuresBeforeEnd
  | .ok none => before.bytesBeforeEnd = [] ∧ before.failuresBeforeEnd = []
  | .error e => before.bytesBeforeEnd = after.bytesBeforeEnd ∧
      before.failuresBeforeEnd = e :: after.failuresBeforeEnd

theorem spends_pull (s : Source) : s.Spends s.pull.2 s.pull.1 := by
  fun_induction pull s with
  | case1 => exact ⟨rfl, rfl⟩
  | case2 b rest =>
    exact ⟨bytesBeforeEnd_cons (by simp) rest, failuresBeforeEnd_cons (by simp) rest⟩
  | case3 b b' tail rest =>
    constructor
    · rw [bytesBeforeEnd_cons (by simp), bytesBeforeEnd_cons (by simp)]
      rfl
    · rw [failuresBeforeEnd_cons (by simp), failuresBeforeEnd_cons (by simp)]
      rfl
  | case4 rest => exact ⟨rfl, rfl⟩
  | case5 rest ih =>
    have hb := bytesBeforeEnd_cons (show Read.interrupted ≠ .ended by simp) rest
    have hf := failuresBeforeEnd_cons (show Read.interrupted ≠ .ended by simp) rest
    unfold Spends at ih ⊢
    rw [hb, hf]
    exact ih
  | case6 e rest =>
    exact ⟨bytesBeforeEnd_cons (by simp) rest, failuresBeforeEnd_cons (by simp) rest⟩

theorem beforeEnd_readInto (room : ℕ+) (rest : Source) {read : Read} {s : Source}
    (hb : s.bytesBeforeEnd = (readInto room rest read).2.bytesBeforeEnd)
    (hf : s.failuresBeforeEnd = (readInto room rest read).2.failuresBeforeEnd) :
    bytesBeforeEnd ((readInto room rest read).1 :: s) = bytesBeforeEnd (read :: rest) ∧
      failuresBeforeEnd ((readInto room rest read).1 :: s) = failuresBeforeEnd (read :: rest) := by
  cases read with
  | data b tail =>
    simp only [readInto] at hb hf ⊢
    cases hdrop : tail.drop room.natPred with
    | nil =>
      rw [hdrop] at hb hf
      simp [bytesBeforeEnd_cons, failuresBeforeEnd_cons, hb, hf]
    | cons b' tail' =>
      rw [hdrop] at hb hf
      have htail : tail.take room.natPred ++ b' :: tail' = tail := by
        rw [← hdrop, List.take_append_drop]
      constructor
      · rw [bytesBeforeEnd_cons (by simp), hb, bytesBeforeEnd_cons (by simp),
          bytesBeforeEnd_cons (by simp), ← List.append_assoc]
        exact congrArg (b :: · ++ rest.bytesBeforeEnd) htail
      · rw [failuresBeforeEnd_cons (by simp), hf, failuresBeforeEnd_cons (by simp),
          failuresBeforeEnd_cons (by simp)]
        rfl
  | ended => exact ⟨rfl, rfl⟩
  | interrupted => simp_all [readInto, bytesBeforeEnd_cons, failuresBeforeEnd_cons]
  | failed e => simp_all [readInto, bytesBeforeEnd_cons, failuresBeforeEnd_cons]

theorem beforeEnd_buffered (capacity : ℕ+) (s : Source) :
    (s.buffered capacity).bytesBeforeEnd = s.bytesBeforeEnd ∧
      (s.buffered capacity).failuresBeforeEnd = s.failuresBeforeEnd := by
  fun_induction buffered capacity s with
  | case1 => exact ⟨rfl, rfl⟩
  | case2 read rest ih => exact beforeEnd_readInto capacity rest ih.1 ih.2

end Source

namespace Cursor

def failure? : Except SystemError (Option UInt8) → Option SystemError
  | .error e => some e
  | .ok _ => none

/-- The results of `n` advances, one after the other whether or not they fail, and the cursor then. -/
def tries (c : Cursor) : Nat → List (Except SystemError (Option UInt8)) × Cursor
  | 0 => ([], c)
  | n + 1 => ((c.tries n).1 ++ [(c.tries n).2.advance.1], (c.tries n).2.advance.2)

/-- The cursor over `s` that has moved `k` times and has the next byte ahead. -/
def movedOver (s : Bytes) : Nat → Cursor
  | 0 => { start (.ofBytes s.tail) with next := s.head?, primed := true, exhausted := s.isEmpty }
  | k + 1 => atOffset s k

theorem advance_movedOver (s : Bytes) (k : Nat) :
    (movedOver s k).advance = (.ok s[k]?, movedOver s (k + 1)) := by
  cases k with
  | zero =>
    match s with
    | [] => rfl
    | [b] => rfl
    | [b, b'] => rfl
    | b :: b' :: b'' :: rest => rfl
  | succ k => exact advance_atOffset s k

theorem tries_ofBytes (s : Bytes) (k : Nat) :
    ((start (.ofBytes s)).tries (k + 1)).2 = movedOver s (k + 1) := by
  induction k with
  | zero => exact congrArg Prod.snd (advance_start s)
  | succ k ih => rw [tries, ih, advance_movedOver]

theorem primed_movedOver (s : Bytes) (k : Nat) : (movedOver s k).primed = true := by
  cases k <;> rfl

theorem next_movedOver (s : Bytes) (k : Nat) : (movedOver s k).next = s[k]? := by
  cases k with
  | zero => exact List.head?_eq_getElem?
  | succ k => rfl

theorem exhausted_movedOver (s : Bytes) (k : Nat) :
    (movedOver s k).exhausted = decide (s.length ≤ k) := by
  cases k with
  | zero => cases s <;> rfl
  | succ k => rfl

theorem source_movedOver (s : Bytes) (k : Nat) : (movedOver s k).source = .ofBytes (s.drop (k + 1)) := by
  cases k with
  | zero => exact congrArg Source.ofBytes List.drop_one.symm
  | succ k => rfl

theorem prime_of_primed {c : Cursor} (hp : c.primed = true) : c.prime = (.ok (), c) := by
  simp [prime, hp]

theorem advance_of_lookahead {c c' : Cursor} (hp : c.primed = true) {fresh : Option UInt8}
    (hl : c.lookahead = (.ok fresh, c')) : c.advance = (.ok c'.next, c'.shift fresh) := by
  simp only [advance, prime_of_primed hp, hl]

theorem advance_of_no_next {c : Cursor} (hp : c.primed = true) (hn : c.next = none) :
    c.advance = (.ok none, c.shift none) := by
  have hl : c.lookahead = (.ok none, c) := if_neg (by simp [hn])
  rw [advance_of_lookahead hp hl, hn]

section

variable {c : Cursor} (hp : c.primed = true) (hn : c.next.isSome = true)
  (he : c.exhausted = false) {rest : Source}

include hp hn he

theorem advance_of_pull {x : Option UInt8} (hpull : c.source.pull = (.ok x, rest)) :
    c.advance = (.ok c.next, ({ c with exhausted := x.isNone }.shift x).onto rest) := by
  have hl : c.lookahead = c.read := if_pos hn
  rw [read_eq_of_pull he hpull] at hl
  rw [advance_of_lookahead hp hl]
  rfl

theorem advance_of_failed_pull {e : SystemError} (hpull : c.source.pull = (.error e, rest)) :
    c.advance = (.error e, c.onto rest) := by
  have hl : c.lookahead = c.read := if_pos hn
  rw [read_eq_of_failed_pull he hpull] at hl
  simp only [advance, prime_of_primed hp, hl, onto]

end

/-- A cursor that has moved `k` times over a script that brings `s`, the failures in `left` being still
to come. Before it first moves it may or may not have the first byte ahead. -/
inductive Resumes (s : Bytes) : Nat → List SystemError → Cursor → Prop where
  | fresh {source : Source} (hb : source.bytesBeforeEnd = s) :
    Resumes s 0 source.failuresBeforeEnd (start source)
  | reading {k : Nat} {source : Source} (hk : k < s.length)
    (hb : source.bytesBeforeEnd = s.drop (k + 1)) :
    Resumes s k source.failuresBeforeEnd ((movedOver s k).onto source)
  | ended {k : Nat} {source : Source} (hk : s.length ≤ k) :
    Resumes s k [] ((movedOver s k).onto source)

section

variable {s : Bytes} {k : Nat} {source : Source}

theorem movedOver_of_lt (hk : k < s.length) :
    (movedOver s k).next.isSome = true ∧ (movedOver s k).exhausted = false := by
  simp [next_movedOver, exhausted_movedOver, hk]

theorem advance_onto (hk : k < s.length) {rest : Source}
    (hpull : source.pull = (.ok s[k + 1]?, rest)) :
    ((movedOver s k).onto source).advance = (.ok s[k]?, (movedOver s (k + 1)).onto rest) := by
  obtain ⟨hn, he⟩ := movedOver_of_lt hk
  have hpull' : (movedOver s k).source.pull = (.ok s[k + 1]?, .ofBytes (s.drop (k + 1)).tail) := by
    rw [source_movedOver, Source.pull_ofBytes, List.head?_drop]
  have hmoved := advance_of_pull (primed_movedOver s k) hn he hpull'
  rw [advance_movedOver] at hmoved
  rw [advance_of_pull (c := (movedOver s k).onto source) (primed_movedOver s k) hn he hpull,
    (Prod.mk.inj hmoved).2]
  exact congrArg (fun x => (Except.ok x, _)) (next_movedOver s k)

theorem advance_ended (hk : s.length ≤ k) :
    ((movedOver s k).onto source).advance = (.ok s[k]?, (movedOver s (k + 1)).onto source) := by
  have hn : (movedOver s k).next = none := by simp [next_movedOver, hk]
  have hmoved := advance_of_no_next (primed_movedOver s k) hn
  rw [advance_movedOver] at hmoved
  rw [advance_of_no_next (c := (movedOver s k).onto source) (primed_movedOver s k) hn,
    (Prod.mk.inj hmoved).1, (Prod.mk.inj hmoved).2]
  rfl

/-- The read that fills the slot ahead leaves a cursor at the same place, so it does not matter whether
it comes in the same advance as the next read or in an earlier one. -/
theorem advance_fresh {rest : Source} (hpull : source.pull = (.ok s[0]?, rest)) :
    (start source).advance = ((movedOver s 0).onto rest).advance := by
  have hread := read_eq_of_pull (c := start source) rfl hpull
  have hfilled : (start source).prime = (.ok (), (movedOver s 0).onto rest) := by
    rw [prime_eq_of_read rfl hread]
    cases s <;> rfl
  simp only [advance, hfilled, prime_of_primed (c := (movedOver s 0).onto rest) rfl]

theorem advance_fresh_failed {e : SystemError} {rest : Source}
    (hpull : source.pull = (.error e, rest)) :
    (start source).advance = (.error e, start rest) := by
  rw [advance, prime_eq_of_failed_read rfl (read_eq_of_failed_pull (c := start source) rfl hpull)]
  rfl

/-- What an advance comes to: one of the failures to come, after which nothing has moved, or the next
byte. -/
def Resumed (s : Bytes) (k : Nat) (left : List SystemError)
    (result : Except SystemError (Option UInt8) × Cursor) : Prop :=
  (∃ e left', left = e :: left' ∧ result.1 = .error e ∧ Resumes s k left' result.2) ∨
    result.1 = .ok s[k]? ∧ Resumes s (k + 1) left result.2

theorem resumed_reading (hk : k < s.length) (hb : source.bytesBeforeEnd = s.drop (k + 1)) :
    Resumed s k source.failuresBeforeEnd ((movedOver s k).onto source).advance := by
  obtain ⟨hn, he⟩ := movedOver_of_lt hk
  have hspends := source.spends_pull
  rcases hpull : source.pull with ⟨e | x, rest⟩
  · rw [hpull] at hspends
    obtain ⟨hb', hf⟩ := hspends
    rw [advance_of_failed_pull (c := (movedOver s k).onto source) (primed_movedOver s k) hn he hpull]
    exact .inl ⟨e, _, hf, rfl, .reading hk (hb'.symm.trans hb)⟩
  · rw [hpull] at hspends
    cases x with
    | none =>
      obtain ⟨hb', hf⟩ := hspends
      have hlast : s.length ≤ k + 1 := List.drop_eq_nil_iff.mp (hb.symm.trans hb')
      rw [← List.getElem?_eq_none hlast] at hpull
      rw [advance_onto hk hpull, hf]
      exact .inr ⟨rfl, .ended hlast⟩
    | some b =>
      obtain ⟨hb', hf⟩ := hspends
      have hdrop : s.drop (k + 1) = b :: rest.bytesBeforeEnd := hb.symm.trans hb'
      have hnext : s[k + 1]? = some b := by rw [← List.head?_drop, hdrop, List.head?_cons]
      have hrest : rest.bytesBeforeEnd = s.drop (k + 1 + 1) := by
        rw [← List.tail_drop, hdrop, List.tail_cons]
      rw [← hnext] at hpull
      rw [advance_onto hk hpull, hf]
      exact .inr ⟨rfl, .reading (List.getElem?_eq_some_iff.mp hnext).1 hrest⟩

theorem resumed_ended (hk : s.length ≤ k) :
    Resumed s k [] ((movedOver s k).onto source).advance := by
  rw [advance_ended hk]
  exact .inr ⟨rfl, .ended (Nat.le_succ_of_le hk)⟩

theorem resumed_fresh (hb : source.bytesBeforeEnd = s) :
    Resumed s 0 source.failuresBeforeEnd (start source).advance := by
  have hspends := source.spends_pull
  rcases hpull : source.pull with ⟨e | x, rest⟩
  · rw [hpull] at hspends
    obtain ⟨hb', hf⟩ := hspends
    rw [advance_fresh_failed hpull]
    exact .inl ⟨e, _, hf, rfl, .fresh (hb'.symm.trans hb)⟩
  · rw [hpull] at hspends
    cases x with
    | none =>
      obtain ⟨hb', hf⟩ := hspends
      obtain rfl : s = [] := hb.symm.trans hb'
      rw [advance_fresh (s := []) hpull, hf]
      exact resumed_ended (Nat.le_refl 0)
    | some b =>
      obtain ⟨hb', hf⟩ := hspends
      obtain rfl : s = b :: rest.bytesBeforeEnd := hb.symm.trans hb'
      rw [advance_fresh (s := b :: rest.bytesBeforeEnd) hpull, hf]
      exact resumed_reading (Nat.succ_pos _) rfl

theorem Resumes.advance {left : List SystemError} {c : Cursor} (h : Resumes s k left c) :
    Resumed s k left c.advance := by
  cases h with
  | fresh hb => exact resumed_fresh hb
  | reading hk hb => exact resumed_reading hk hb
  | ended hk => exact resumed_ended hk

theorem Resumes.eq_onto {left : List SystemError} {c : Cursor} (h : Resumes s k left c)
    (hk : 0 < k) : c = (movedOver s k).onto c.source := by
  cases h with
  | fresh hb => cases hk
  | reading hlt hb => rfl
  | ended hle => rfl

theorem Resumes.left_eq_nil {left : List SystemError} {c : Cursor} (h : Resumes s k left c)
    (hk : 0 < k) (hend : s.length ≤ k) : left = [] := by
  cases h with
  | fresh hb => cases hk
  | reading hlt hb => exact absurd hend (Nat.not_le_of_lt hlt)
  | ended hle => rfl

end

theorem exists_resumes_tries (source : Source) (n : Nat) :
    ∃ k left,
      ((start source).tries n).1.filterMap Except.toOption =
        (List.range k).map (source.bytesBeforeEnd[·]?) ∧
      source.failuresBeforeEnd = ((start source).tries n).1.filterMap failure? ++ left ∧
      k + (((start source).tries n).1.filterMap failure?).length = n ∧
      Resumes source.bytesBeforeEnd k left ((start source).tries n).2 := by
  induction n with
  | zero => exact ⟨0, _, rfl, rfl, rfl, .fresh rfl⟩
  | succ n ih =>
    obtain ⟨k, left, hmoved, hfailed, hn, hresumes⟩ := ih
    rw [tries, List.filterMap_append, List.filterMap_append]
    -- A call that fails takes the next failure off those to come, one that does not the next byte.
    rcases hresumes.advance with ⟨e, left', rfl, hresult, hnext⟩ | ⟨hresult, hnext⟩
    · refine ⟨k, left', ?_, ?_, ?_, hnext⟩
      · simp [hresult, hmoved, Except.toOption]
      · simp [hresult, hfailed, failure?]
      · simp [hresult, failure?]
        omega
    · refine ⟨k + 1, left, ?_, ?_, ?_, hnext⟩
      · simp [hresult, hmoved, Except.toOption, List.range_succ]
      · simp [hresult, hfailed, failure?, List.filterMap_cons]
      · simp [hresult, failure?, List.filterMap_cons]
        omega

/-- A cursor that is advanced on after failures brings every byte before the end of its script once and
in order, and then the end for ever. It fails as often as the script does, interruptions apart, and
when it has moved `k` times it is the cursor that has moved `k` times over the bytes as a whole. -/
theorem advance_resumes_after_failures (capacity : ℕ+) (script : Source) (n : Nat) :
    let s := script.bytesBeforeEnd
    let tried := (start (script.buffered capacity)).tries n
    let moved := tried.1.filterMap Except.toOption
    let failed := tried.1.filterMap failure?
    moved = (List.range moved.length).map (s[·]?) ∧
      failed <+: script.failuresBeforeEnd ∧ moved.length + failed.length = n ∧
      (0 < moved.length → s.length ≤ moved.length → failed = script.failuresBeforeEnd) ∧
      (0 < moved.length →
        tried.2 = ((start (.ofBytes s)).tries moved.length).2.onto tried.2.source) := by
  obtain ⟨k, left, hmoved, hfailed, hn, hresumes⟩ := exists_resumes_tries (script.buffered capacity) n
  obtain ⟨hbytes, hfailures⟩ := script.beforeEnd_buffered capacity
  rw [hbytes] at hmoved hresumes
  rw [hfailures] at hfailed
  intro s tried moved failed
  have hlength : moved.length = k := by
    simp only [moved, tried, hmoved, List.length_map, List.length_range]
  rw [hlength]
  refine ⟨hmoved, ⟨left, hfailed.symm⟩, hn, ?_, ?_⟩
  · intro hk hend
    rw [hfailed, hresumes.left_eq_nil hk hend, List.append_nil]
  · intro hk
    obtain ⟨j, rfl⟩ := Nat.exists_eq_succ_of_ne_zero (Nat.ne_of_gt hk)
    rw [tries_ofBytes]
    exact hresumes.eq_onto hk

/-- The source fails before the first byte, behind it and behind the last, and a buffer of one byte cuts
the piece between; of what stands behind the end nothing is met. -/
theorem advance_resumes_at_every_read :
    let script : Source :=
      [.failed ⟨"a"⟩, .data Byte.hash [], .interrupted, .failed ⟨"b"⟩, .failed ⟨"c"⟩,
        .data Byte.linefeed [Byte.tab], .failed ⟨"d"⟩, .interrupted, .ended, .data Byte.hash [],
        .failed ⟨"e"⟩]
    let tried := (start (script.buffered 1)).tries 8
    tried.1.filterMap Except.toOption = [some Byte.hash, some Byte.linefeed, some Byte.tab, none] ∧
      tried.1.filterMap failure? = [⟨"a"⟩, ⟨"b"⟩, ⟨"c"⟩, ⟨"d"⟩] ∧
      tried.2 = ((start (.ofBytes [Byte.hash, Byte.linefeed, Byte.tab])).tries 4).2.onto
        tried.2.source := by
  intro script tried
  have hlength : (tried.1.filterMap Except.toOption).length = 4 := by decide +kernel
  obtain ⟨hmoved, -, -, hfailed, hcursor⟩ := advance_resumes_after_failures 1 script 8
  rw [hlength] at hmoved hfailed hcursor
  exact ⟨hmoved, (hfailed (by decide) (by decide)).trans rfl, hcursor (by decide)⟩

end Cursor

end HashLine
