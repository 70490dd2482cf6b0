import HashLine.Proofs.Offset
import HashLine.Scan

/-! A source as a script of reads, and a scan over it beside a scan of an input that is at hand as a
whole. Only what the script brings before it first ends or fails matters: up to there the two scans
are in the same state but for the source itself. -/

namespace HashLine

namespace Source

/-- What a source brings: its bytes up to the first end or failure, and the failure if it is one. -/
def supply : Source → Bytes × Option SystemError
  | [] => ([], none)
  | .data b tail :: rest => (b :: tail ++ (supply rest).1, (supply rest).2)
  | .ended :: _ => ([], none)
  | .interrupted :: rest => supply rest
  | .failed e :: _ => ([], some e)

theorem supply_ofBytes (s : Bytes) : (ofBytes s).supply = (s, none) := by
  cases s with
  | nil => rfl
  | cons b rest => simp [ofBytes, supply]

theorem pull_of_supply_cons {s : Source} {x : UInt8} {xs : Bytes} {fault : Option SystemError}
    (h : s.supply = (x :: xs, fault)) :
    ∃ rest, s.pull = (.ok (some x), rest) ∧ rest.supply = (xs, fault) := by
  fun_induction pull s with
  | case1 => simp [supply] at h
  | case2 b rest =>
    obtain ⟨hx, rfl⟩ := Prod.mk.inj h
    obtain ⟨rfl, rfl⟩ := List.cons.inj hx
    exact ⟨rest, rfl, rfl⟩
  | case3 b b' tail rest =>
    obtain ⟨hx, rfl⟩ := Prod.mk.inj h
    obtain ⟨rfl, rfl⟩ := List.cons.inj hx
    exact ⟨_, rfl, rfl⟩
  | case4 rest => simp [supply] at h
  | case5 rest ih => exact ih h
  | case6 e rest => simp [supply] at h

theorem pull_of_supply_nil {s : Source} (h : s.supply = ([], none)) :
    ∃ rest, s.pull = (.ok none, rest) := by
  fun_induction pull s with
  | case1 => exact ⟨[], rfl⟩
  | case2 b rest => simp [supply] at h
  | case3 b b' tail rest => simp [supply] at h
  | case4 rest => exact ⟨rest, rfl⟩
  | case5 rest ih => exact ih h
  | case6 e rest => simp [supply] at h

theorem pull_of_supply_failed {s : Source} {e : SystemError} (h : s.supply = ([], some e)) :
    ∃ rest, s.pull = (.error e, rest) := by
  fun_induction pull s with
  | case1 => simp [supply] at h
  | case2 b rest => simp [supply] at h
  | case3 b b' tail rest => simp [supply] at h
  | case4 rest => simp [supply] at h
  | case5 rest ih => exact ih h
  | case6 e' rest =>
    obtain rfl : e' = e := by simpa [supply] using h
    exact ⟨rest, rfl⟩

end Source

namespace Cursor

/-- The same cursor over another source. -/
def onto (source : Source) (c : Cursor) : Cursor :=
  { c with source := source }

/-- The number of bytes that have been taken from the source. -/
def taken (c : Cursor) : Nat :=
  c.consumed + c.next.toList.length

theorem read_eq_of_pull {c : Cursor} (he : c.exhausted = false) {x : Option UInt8} {rest : Source}
    (hp : c.source.pull = (.ok x, rest)) :
    c.read = (.ok x, { c with source := rest, exhausted := x.isNone }) := by
  simp only [read]
  rw [he, hp]
  cases x with
  | none => rfl
  | some b => simp

theorem read_eq_of_failed_pull {c : Cursor} (he : c.exhausted = false) {e : SystemError}
    {rest : Source} (hp : c.source.pull = (.error e, rest)) :
    c.read = (.error e, { c with source := rest }) := by
  simp only [read]
  rw [he, hp]
  rfl

theorem frame_read (c : Cursor) :
    c.read.2 = { c with source := c.read.2.source, exhausted := c.read.2.exhausted } := by
  unfold read
  split
  · rfl
  · split <;> rfl

theorem frame_lookahead (c : Cursor) :
    c.lookahead.2 =
      { c with source := c.lookahead.2.source, exhausted := c.lookahead.2.exhausted } := by
  unfold lookahead
  split
  · exact c.frame_read
  · rfl

theorem prime_eq_of_read {c c' : Cursor} (hp : c.primed = false) {x : Option UInt8}
    (hr : c.read = (.ok x, c')) : c.prime = (.ok (), { c' with next := x, primed := true }) := by
  simp only [prime]
  rw [hp, hr]
  rfl

theorem prime_eq_of_failed_read {c c' : Cursor} (hp : c.primed = false) {e : SystemError}
    (hr : c.read = (.error e, c')) : c.prime = (.error e, c') := by
  simp only [prime]
  rw [hp, hr]
  rfl

theorem consumed_prime (c : Cursor) : c.prime.2.consumed = c.consumed := by
  have hread := congrArg consumed c.frame_read
  unfold prime
  split
  · rfl
  · generalize c.read = result at hread
    match result with
    | (.error e, c') => exact hread
    | (.ok x, c') => exact hread

theorem consumed_shift (c : Cursor) (fresh : Option UInt8) :
    (c.shift fresh).consumed = c.consumed + c.next.toList.length := by
  cases hn : c.next <;> simp [shift, hn]

theorem consumed_of_advance {c c' : Cursor} {x : Option UInt8} (h : c.advance = (.ok x, c')) :
    c'.consumed = c.consumed + x.toList.length := by
  have hprime := c.consumed_prime
  simp only [advance] at h
  split at h
  · cases h
  · next c₁ h₁ =>
    have hlook := congrArg consumed c₁.frame_lookahead
    split at h
    · cases h
    · next fresh c₂ h₂ =>
      rw [h₁] at hprime
      rw [h₂] at hlook
      obtain ⟨hx, rfl⟩ := Prod.mk.inj h
      rw [consumed_shift, ← Except.ok.inj hx, hlook, ← hprime]

/-- A cursor that has taken `n` bytes of `b ++ r`, beside a source of which as many have been taken
and that brings `b` before it fails, or ends if nothing follows `b`. -/
structure Reads (b r : Bytes) (fault : Option SystemError) (n : Nat) (source : Source)
    (c : Cursor) : Prop where
  bounded : n ≤ b.length
  script : c.exhausted = false → source.supply = (b.drop n, fault)
  whole : c.exhausted = false → c.source.supply = ((b ++ r).drop n, none)
  live : fault.isSome → c.exhausted = false
  rest : fault = none → r = []

section

variable {b r : Bytes} {fault : Option SystemError} {n : Nat} {source : Source} {c : Cursor}

theorem Reads.read_more (h : Reads b r fault n source c) (he : c.exhausted = false)
    (hn : n < b.length) :
    ∃ c' source', c.read = (.ok (some b[n]), c') ∧
      (c.onto source).read = (.ok (some b[n]), c'.onto source') ∧
      Reads b r fault (n + 1) source' c' := by
  have hs := h.script he
  have hw := h.whole he
  have hwhole : (b ++ r).drop n = b[n] :: (b ++ r).drop (n + 1) := by
    rw [List.drop_append_of_le_length h.bounded, List.drop_eq_getElem_cons hn, List.cons_append,
      List.drop_append_of_le_length hn]
  rw [List.drop_eq_getElem_cons hn] at hs
  rw [hwhole] at hw
  obtain ⟨source', hp', hs'⟩ := Source.pull_of_supply_cons hs
  obtain ⟨rest, hp, hw'⟩ := Source.pull_of_supply_cons hw
  exact ⟨_, source', read_eq_of_pull he hp, read_eq_of_pull (c := c.onto source) he hp',
    hn, fun _ => hs', fun _ => hw', fun _ => rfl, h.rest⟩

theorem Reads.read_broken {e : SystemError} (h : Reads b r (some e) b.length source c) :
    ∃ source', (c.onto source).read = (.error e, c.onto source') := by
  have he := h.live rfl
  have hs := h.script he
  rw [List.drop_length] at hs
  obtain ⟨source', hp⟩ := Source.pull_of_supply_failed hs
  exact ⟨source', read_eq_of_failed_pull (c := c.onto source) he hp⟩

theorem Reads.read_ended (h : Reads b r none b.length source c) (he : c.exhausted = false) :
    ∃ c' source', c.read = (.ok none, c') ∧ (c.onto source).read = (.ok none, c'.onto source') ∧
      Reads b r none b.length source' c' := by
  have hs := h.script he
  have hw := h.whole he
  rw [List.drop_length] at hs
  rw [h.rest rfl, List.append_nil, List.drop_length] at hw
  obtain ⟨source', hp'⟩ := Source.pull_of_supply_nil hs
  obtain ⟨rest, hp⟩ := Source.pull_of_supply_nil hw
  exact ⟨_, source', read_eq_of_pull he hp, read_eq_of_pull (c := c.onto source) he hp',
    h.bounded, by simp, by simp, by simp, h.rest⟩

/-- What a read comes to: the failure of the source once `b` is used up, or the same byte on both
sides. -/
theorem Reads.read (h : Reads b r fault n source c) :
    (∃ e source', fault = some e ∧ n = b.length ∧
        (c.onto source).read = (.error e, c.onto source')) ∨
      ∃ x c' source', c.read = (.ok x, c') ∧ (c.onto source).read = (.ok x, c'.onto source') ∧
        Reads b r fault (n + x.toList.length) source' c' ∧ (fault.isSome → x.isSome) := by
  cases he : c.exhausted with
  | true =>
    have hr : c.read = (.ok none, c) := by simp [Cursor.read, he]
    have hr' : (c.onto source).read = (.ok none, c.onto source) := by
      simp [Cursor.read, onto, he]
    exact .inr ⟨none, c, source, hr, hr', h, fun hf => by simp [h.live hf] at he⟩
  | false =>
    by_cases hn : n < b.length
    · obtain ⟨c', source', hr, hr', hreads⟩ := h.read_more he hn
      exact .inr ⟨_, c', source', hr, hr', hreads, fun _ => rfl⟩
    · obtain rfl : n = b.length := Nat.le_antisymm h.bounded (Nat.le_of_not_lt hn)
      cases fault with
      | some e =>
        obtain ⟨source', hr⟩ := h.read_broken
        exact .inl ⟨e, source', rfl, rfl, hr⟩
      | none =>
        obtain ⟨c', source', hr, hr', hreads⟩ := h.read_ended he
        exact .inr ⟨none, c', source', hr, hr', hreads, by simp⟩

end

/-- A cursor between two advances, beside a source from which it could read instead of its own. -/
structure Beside (b r : Bytes) (fault : Option SystemError) (source : Source) (c : Cursor) : Prop
    extends Reads b r fault c.taken source c where
  unprimed : c.primed = false → c.next = none ∧ c.consumed = 0
  ahead : fault.isSome → c.primed = true → c.next.isSome

section

variable {b r : Bytes} {fault : Option SystemError} {source : Source} {c : Cursor}

theorem taken_of_next (h : c.next.isSome = true) : c.taken = c.consumed + 1 := by
  obtain ⟨x, hx⟩ := Option.isSome_iff_exists.mp h
  simp [taken, hx]

theorem Beside.prime (h : Beside b r fault source c) :
    (∃ e source', fault = some e ∧ b.length ≤ c.consumed ∧
        (c.onto source).prime = (.error e, c.onto source')) ∨
      ∃ c' source', c.prime = (.ok (), c') ∧ (c.onto source).prime = (.ok (), c'.onto source') ∧
        Beside b r fault source' c' ∧ c'.primed = true := by
  cases hp : c.primed with
  | true =>
    have hc : c.prime = (.ok (), c) := by simp [Cursor.prime, hp]
    have hc' : (c.onto source).prime = (.ok (), c.onto source) := by
      simp [Cursor.prime, onto, hp]
    exact .inr ⟨c, source, hc, hc', h, hp⟩
  | false =>
    have htaken : c.taken = c.consumed := by simp [taken, (h.unprimed hp).1]
    rcases h.read with ⟨e, source', hf, hn, hr⟩ | ⟨x, c', source', hr, hr', hreads, hx⟩
    · exact .inl ⟨e, source', hf, by omega, prime_eq_of_failed_read (c := c.onto source) hp hr⟩
    · let filled : Cursor := { c' with next := x, primed := true }
      have hconsumed := congrArg consumed c.frame_read
      rw [hr] at hconsumed
      have hn : c.taken + x.toList.length = filled.taken := by
        rw [htaken, ← hconsumed]
        rfl
      rw [hn] at hreads
      exact .inr ⟨filled, source', prime_eq_of_read hp hr,
        prime_eq_of_read (c := c.onto source) hp hr',
        ⟨⟨hreads.bounded, hreads.script, hreads.whole, hreads.live, hreads.rest⟩, by simp [filled],
          fun hf _ => hx hf⟩, rfl⟩

theorem Beside.lookahead (h : Beside b r fault source c) (hp : c.primed = true) :
    (∃ e source', fault = some e ∧ b.length ≤ c.consumed + 1 ∧
        (c.onto source).lookahead = (.error e, c.onto source')) ∨
      ∃ x c' source', c.lookahead = (.ok x, c') ∧
        (c.onto source).lookahead = (.ok x, c'.onto source') ∧
        Reads b r fault (c.taken + x.toList.length) source' c' ∧ (fault.isSome → x.isSome) := by
  by_cases hnext : c.next.isSome = true
  · have hc : c.lookahead = c.read := if_pos hnext
    have hc' : (c.onto source).lookahead = (c.onto source).read := if_pos hnext
    have htaken := taken_of_next hnext
    rw [hc, hc']
    rcases h.read with ⟨e, source', hf, hn, hr⟩ | hsame
    · exact .inl ⟨e, source', hf, by omega, hr⟩
    · exact .inr hsame
  · have hc : c.lookahead = (.ok none, c) := if_neg hnext
    have hc' : (c.onto source).lookahead = (.ok none, c.onto source) := if_neg hnext
    exact .inr ⟨none, c, source, hc, hc', h.toReads, fun hf => absurd (h.ahead hf hp) hnext⟩

theorem Beside.restartLine (h : Beside b r fault source c) :
    Beside b r fault source c.restartLine :=
  ⟨⟨h.bounded, h.script, h.whole, h.live, h.rest⟩, h.unprimed, h.ahead⟩

theorem taken_shift (c : Cursor) (fresh : Option UInt8) :
    (c.shift fresh).taken = c.taken + fresh.toList.length :=
  congrArg (· + fresh.toList.length) (c.consumed_shift fresh)

/-- An advance fails with the source if `b` holds no byte to stand ahead, and else finds the same
byte on both sides. -/
theorem Beside.advance (h : Beside b r fault source c) :
    (∃ e c', fault = some e ∧ b.length ≤ c.consumed + 1 ∧
        (c.onto source).advance = (.error e, c')) ∨
      ∃ x c' source', c.advance = (.ok x, c') ∧
        (c.onto source).advance = (.ok x, c'.onto source') ∧ Beside b r fault source' c' ∧
        (fault.isSome → x.isSome) := by
  have hconsumed := c.consumed_prime
  simp only [Cursor.advance]
  rcases h.prime with ⟨e, source', hf, hn, hp⟩ | ⟨c₁, source₁, hp, hp', h₁, hprimed⟩
  · exact .inl ⟨e, c.onto source', hf, by omega, by rw [hp]⟩
  · rw [hp] at hconsumed
    rw [hp, hp']
    dsimp only at hconsumed ⊢
    have hframe := c₁.frame_lookahead
    rcases h₁.lookahead hprimed with
      ⟨e, source', hf, hn, hl⟩ | ⟨x, c₂, source₂, hl, hl', hreads, hx⟩
    · exact .inl ⟨e, c₁.onto source', hf, by omega, by rw [hl]⟩
    · rw [hl] at hframe
      dsimp only at hframe
      have hnext : c₂.next = c₁.next := by rw [hframe]
      have htaken : (c₂.shift x).taken = c₁.taken + x.toList.length := by
        rw [taken_shift, hframe]
        rfl
      have hprimed' : (c₂.shift x).primed = true := by
        rw [hframe]
        exact hprimed
      rw [← htaken] at hreads
      refine .inr ⟨c₂.next, c₂.shift x, source₂, by rw [hl], by rw [hl']; rfl, ?_, ?_⟩
      · exact ⟨⟨hreads.bounded, hreads.script, hreads.whole, hreads.live, hreads.rest⟩,
          fun hp => by simp [hprimed'] at hp, fun hf _ => hx hf⟩
      · intro hf
        rw [hnext]
        exact h₁.ahead hf hprimed

/-- While a failure is still ahead, a cursor that has passed a byte has another before it. -/
theorem Beside.consumed_lt (h : Beside b r fault source c) (hf : fault.isSome)
    (hc : 0 < c.consumed) : c.consumed < b.length := by
  have hprimed : c.primed = true := by
    by_contra hp
    have hzero := (h.unprimed (Bool.eq_false_iff.mpr hp)).2
    omega
  have htaken := taken_of_next (h.ahead hf hprimed)
  have hbounded := h.bounded
  omega

end

end Cursor

end HashLine
