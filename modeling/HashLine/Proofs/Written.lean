import HashLine.Proofs.Concatenation
import HashLine.Proofs.Deliveries
import HashLine.Proofs.Directives

/-! Directives as they are written, from the `#` on. Only the last byte of a written directive can end
it. Where it does, the directive can be scanned again with anything behind it, and it is found first;
where it does not, the directive takes in what follows. -/

namespace HashLine

namespace Scan

structure Whole (w : Bytes) : Prop where
  hash : w.head? = some Byte.hash
  ends : ∀ m, EndsAt w m ↔ m + 1 = w.length

structure Unended (w : Bytes) : Prop where
  hash : w.head? = some Byte.hash
  endless : ∀ m, ¬ EndsAt w m

section

variable {gate : Bool} {s : Bytes} {i stop : Nat}

theorem openAt_begun {k : Nat} (h : openAt gate s k = some i) :
    StartsAt gate s i ∧ ∀ m, i < m → m < k → ¬ EndsAt s m := by
  induction k with
  | zero => cases h
  | succ k ih =>
    cases ho : openAt gate s k with
    | none =>
      rw [openAt_succ_of_none ho] at h
      split at h
      · next hstart =>
        cases h
        exact ⟨hstart, fun m him hmk => by omega⟩
      · cases h
    | some j =>
      rw [openAt_succ_of_some ho] at h
      split at h
      · cases h
      · next hend =>
        cases h
        obtain ⟨hstart, hbody⟩ := ih ho
        refine ⟨hstart, ?_⟩
        intro m him hmk
        rcases Nat.lt_or_eq_of_le (Nat.le_of_lt_succ hmk) with hm | rfl
        · exact hbody m him hm
        · exact hend

theorem slice_eq_cons (hs : s[i]? = some Byte.hash) (hi : i < stop) :
    (s.take stop).drop i = Byte.hash :: (s.take stop).drop (i + 1) := by
  obtain ⟨hl, hb⟩ := List.getElem?_eq_some_iff.mp hs
  have hlen : i < (s.take stop).length := by
    rw [List.length_take]
    omega
  rw [List.drop_eq_getElem_cons hlen, List.getElem_take, hb]

/-- What ends a slice that begins with a `#` ends the whole input there. -/
theorem endsAt_slice (hs : s[i]? = some Byte.hash) (m : Nat) :
    EndsAt ((s.take stop).drop i) m ↔ i + m < stop ∧ EndsAt s (i + m) := by
  have hget (n : Nat) : ((s.take stop).drop i)[n]? = if i + n < stop then s[i + n]? else none := by
    rw [List.getElem?_drop, List.getElem?_take]
  cases m with
  | zero =>
    have hne : s[i]? ≠ some Byte.linefeed := by
      rw [hs]
      decide
    constructor
    · rintro ⟨hend, -⟩
      rw [hget] at hend
      split at hend
      · exact absurd hend hne
      · cases hend
    · rintro ⟨-, hend, -⟩
      exact absurd hend hne
  | succ m =>
    simp only [EndsAt, byteBefore]
    rw [hget, hget]
    by_cases hlt : i + (m + 1) < stop
    · rw [if_pos hlt, if_pos (by omega)]
      exact (and_iff_right hlt).symm
    · rw [if_neg hlt]
      simp [hlt]

end

section

variable {gate : Bool} {s : Bytes} {d : Directive}

theorem Delivers.whole (h : Delivers gate s (.directive d)) (ht : d.terminated = true) :
    Whole (Byte.hash :: d.text) := by
  cases h with
  | @ended i k ho he =>
    obtain ⟨⟨hhash, -⟩, hbody⟩ := openAt_begun ho
    have hik := openAt_lt ho
    have hk := he.lt_length
    have hw : Byte.hash :: (directiveOf s i (k + 1) true).text = (s.take (k + 1)).drop i :=
      (slice_eq_cons hhash (by omega)).symm
    refine ⟨rfl, ?_⟩
    intro m
    rw [hw, endsAt_slice hhash, List.length_drop, List.length_take]
    constructor
    · rintro ⟨hm, hend⟩
      have hge : ¬ (i < i + m ∧ i + m < k) := fun h => hbody _ h.1 h.2 hend
      have hpos : m ≠ 0 := by
        rintro rfl
        rw [Nat.add_zero] at hend
        exact absurd (hhash.symm.trans hend.1) (by decide)
      omega
    · intro hm
      obtain rfl : k = i + m := by omega
      exact ⟨by omega, he⟩
  | cutOff ho => cases ht

theorem Delivers.unended (h : Delivers gate s (.directive d)) (ht : d.terminated = false) :
    Unended (Byte.hash :: d.text) := by
  cases h with
  | ended ho he => cases ht
  | @cutOff i ho =>
    obtain ⟨⟨hhash, -⟩, hbody⟩ := openAt_begun ho
    have hw : Byte.hash :: (directiveOf s i s.length false).text = (s.take s.length).drop i :=
      (slice_eq_cons hhash (openAt_lt ho)).symm
    refine ⟨rfl, ?_⟩
    intro m hm
    rw [hw] at hm
    obtain ⟨hlt, hend⟩ := (endsAt_slice hhash m).mp hm
    by_cases hpos : m = 0
    · subst hpos
      exact absurd (hhash.symm.trans hend.1) (by decide)
    · exact hbody _ (by omega) hlt hend

end

theorem byteBefore_length (w : Bytes) : byteBefore w w.length = w.getLast? := by
  rw [← getLast?_take w (Nat.le_refl _), List.take_length]

theorem endsAt_concat (w : Bytes) (m : Nat) :
    EndsAt (w ++ [Byte.linefeed]) m ↔
      EndsAt w m ∨ m = w.length ∧ w.getLast? ≠ some Byte.backslash := by
  rcases Nat.lt_trichotomy m w.length with hm | rfl | hm
  · rw [endsAt_append_left _ hm]
    simp [Nat.ne_of_lt hm]
  · have hnot : ¬ EndsAt w w.length := fun h => absurd h.lt_length (Nat.lt_irrefl _)
    have hlast : byteBefore (w ++ [Byte.linefeed]) w.length = w.getLast? := by
      rw [byteBefore_append_left _ (Nat.le_refl _), byteBefore_length]
    simp [EndsAt, hlast]
  · have hleft : ¬ EndsAt (w ++ [Byte.linefeed]) m := by
      intro h
      have hlt := h.lt_length
      rw [List.length_append, List.length_singleton] at hlt
      omega
    have hright : ¬ EndsAt w m := fun h => absurd h.lt_length (by omega)
    simp [hleft, hright, Nat.ne_of_gt hm]

section

variable {w : Bytes}

theorem Whole.length_pos (h : Whole w) : 0 < w.length := by
  cases w with
  | nil => cases h.hash
  | cons b w => exact Nat.succ_pos _

theorem Whole.getLast? (h : Whole w) : w.getLast? = some Byte.linefeed := by
  have hpos := h.length_pos
  have hend := (h.ends (w.length - 1)).mpr (by omega)
  rw [List.getLast?_eq_getElem?]
  exact hend.1

theorem Unended.concat_whole (h : Unended w) (hb : w.getLast? ≠ some Byte.backslash) :
    Whole (w ++ [Byte.linefeed]) where
  hash := by
    rw [List.head?_append_of_ne_nil _ (by rintro rfl; cases h.hash)]
    exact h.hash
  ends m := by
    rw [endsAt_concat, List.length_append, List.length_singleton, Nat.add_right_cancel_iff]
    simp [h.endless m, hb]

theorem Unended.concat_unended (h : Unended w) (hb : w.getLast? = some Byte.backslash) :
    Unended (w ++ [Byte.linefeed]) where
  hash := by
    rw [List.head?_append_of_ne_nil _ (by rintro rfl; cases h.hash)]
    exact h.hash
  endless m := by
    rw [endsAt_concat]
    simp [h.endless m, hb]

end

end Scan

/-- Does the linefeed at the end of the written directive end it? It does not where the directive was
cut off behind a backslash, or behind a spliced line end. -/
def Directive.EndsItself (d : Directive) : Prop :=
  d.terminated = true ∨
    (d.text.getLast? ≠ some Byte.backslash ∧ d.text.getLast? ≠ some Byte.linefeed)

instance (d : Directive) : Decidable d.EndsItself :=
  inferInstanceAs (Decidable (_ ∨ _))

theorem getLast?_hash_cons {b : UInt8} (hb : b ≠ Byte.hash) (t : Bytes) :
    (Byte.hash :: t).getLast? = some b ↔ t.getLast? = some b := by
  rw [List.getLast?_cons]
  cases t.getLast? with
  | none => simp [hb.symm]
  | some c => simp

theorem Directive.source_of_linefeed {d : Directive}
    (h : (Byte.hash :: d.text).getLast? = some Byte.linefeed) :
    d.source = Byte.hash :: d.text :=
  if_pos h

theorem Directive.source_of_no_linefeed {d : Directive}
    (h : (Byte.hash :: d.text).getLast? ≠ some Byte.linefeed) :
    d.source = Byte.hash :: d.text ++ [Byte.linefeed] :=
  if_neg h

theorem Directive.getLast?_source (d : Directive) : d.source.getLast? = some Byte.linefeed := by
  by_cases h : (Byte.hash :: d.text).getLast? = some Byte.linefeed
  · rw [source_of_linefeed h, h]
  · rw [source_of_no_linefeed h]
    exact List.getLast?_concat

namespace Scan

section

variable {gate : Bool} {s : Bytes} {d : Directive}

theorem Delivers.whole_source (h : Delivers gate s (.directive d)) (he : d.EndsItself) :
    Whole d.source := by
  cases ht : d.terminated with
  | true =>
    have hw := h.whole ht
    rw [Directive.source_of_linefeed hw.getLast?]
    exact hw
  | false =>
    obtain ⟨hb, hl⟩ := he.resolve_left (by simp [ht])
    have hu := h.unended ht
    rw [ne_eq, ← getLast?_hash_cons (by decide)] at hb hl
    rw [Directive.source_of_no_linefeed hl]
    exact hu.concat_whole hb

theorem Delivers.unended_source (h : Delivers gate s (.directive d)) (he : ¬ d.EndsItself) :
    Unended d.source := by
  rw [Directive.EndsItself, not_or, Bool.not_eq_true] at he
  have hu := h.unended he.1
  by_cases hl : (Byte.hash :: d.text).getLast? = some Byte.linefeed
  · rw [Directive.source_of_linefeed hl]
    exact hu
  · have hb : d.text.getLast? = some Byte.backslash := by
      by_contra hb
      exact he.2 ⟨hb, fun h => hl ((getLast?_hash_cons (by decide) _).mpr h)⟩
    rw [Directive.source_of_no_linefeed hl]
    exact hu.concat_unended ((getLast?_hash_cons (by decide) _).mpr hb)

end

section

variable {s : Bytes}

theorem startsAt_zero (hs : s.head? = some Byte.hash) : StartsAt false s 0 :=
  ⟨List.head?_eq_getElem?.symm.trans hs, by simp [lineHead], by simp⟩

theorem firstFrom_zero (hs : s.head? = some Byte.hash) :
    firstFrom s (StartsAt false s) 0 = some 0 :=
  (firstFrom_eq_some_iff fun _ => StartsAt.lt_length).mpr
    ⟨startsAt_zero hs, Nat.le_refl _, fun m _ hm => absurd hm (Nat.not_lt_zero m)⟩

theorem regions_of_ended (hs : s.head? = some Byte.hash) {j : Nat}
    (hj : firstFrom s (EndsAt s) 1 = some j) :
    regions false s = ⟨0, some j⟩ :: regionsFrom false s (j + 1) := by
  have hi := firstFrom_zero hs
  rw [regions, regionsFrom]
  split
  · simp_all
  · next i hi' =>
    obtain rfl : 0 = i := Option.some.inj (hi.symm.trans hi')
    split
    · simp_all
    · simp_all

theorem regions_of_endless (hs : s.head? = some Byte.hash)
    (hj : firstFrom s (EndsAt s) 1 = none) : regions false s = [⟨0, none⟩] := by
  have hi := firstFrom_zero hs
  rw [regions, regionsFrom]
  split
  · simp_all
  · next i hi' =>
    obtain rfl : 0 = i := Option.some.inj (hi.symm.trans hi')
    split
    · rfl
    · simp_all

theorem regionsFrom_length : regionsFrom false s s.length = [] := by
  have hn : firstFrom s (StartsAt false s) s.length = none :=
    (firstFrom_eq_none_iff fun _ => StartsAt.lt_length).mpr fun m hm h =>
      absurd h.lt_length (Nat.not_lt.mpr hm)
  rw [regionsFrom]
  split
  · rfl
  · simp_all

end

section

variable {w : Bytes}

theorem Whole.regions (h : Whole w) : regions false w = [⟨0, some (w.length - 1)⟩] := by
  have hpos := h.length_pos
  have hlast : w.length ≠ 1 := by
    intro hone
    have hend := ((h.ends 0).mpr (by omega)).1
    rw [← List.head?_eq_getElem?, h.hash] at hend
    exact absurd hend (by decide)
  have hj : firstFrom w (EndsAt w) 1 = some (w.length - 1) := by
    refine (firstFrom_eq_some_iff fun _ => EndsAt.lt_length).mpr
      ⟨(h.ends _).mpr (by omega), by omega, ?_⟩
    intro m _ hm hend
    have hl := (h.ends m).mp hend
    omega
  have hnext : w.length - 1 + 1 = w.length := by omega
  rw [regions_of_ended h.hash hj, hnext, regionsFrom_length]

theorem Unended.regions (h : Unended w) : regions false w = [⟨0, none⟩] := by
  refine regions_of_endless h.hash ?_
  exact (firstFrom_eq_none_iff fun _ => EndsAt.lt_length).mpr fun m _ => h.endless m

theorem Whole.closed (h : Whole w) : Closed false w where
  endsLine := .inr h.getLast?
  closed := by
    rw [openAt_length, h.regions]
    rfl
  unquoted hg := by cases hg

end

end Scan

end HashLine
