import HashLine.Proofs.Course

/-! The regions of an input that its directives take up, found by looking for the next offset where a
directive can start and from there for the first where it ends. An offset inside a region is one
where the course of a scan has a directive open. -/

namespace HashLine

namespace Scan

/-- From a `#` to the linefeed that ends its directive, or to the end of the input. -/
structure Region where
  start : Nat
  stop : Option Nat
deriving DecidableEq, Repr

/-- The first offset of `s` from `k` on that has the property. -/
def firstFrom (s : Bytes) (p : Nat → Prop) [DecidablePred p] (k : Nat) : Option Nat :=
  (List.range' k (s.length - k)).find? (p ·)

section

variable {s : Bytes} {p : Nat → Prop} [DecidablePred p] {k : Nat}

theorem firstFrom_eq_some_iff (hp : ∀ m, p m → m < s.length) {i : Nat} :
    firstFrom s p k = some i ↔ p i ∧ k ≤ i ∧ ∀ m, k ≤ m → m < i → ¬ p m := by
  simp only [firstFrom]
  rw [List.find?_range'_eq_some]
  simp only [decide_eq_true_eq, List.mem_range'_1, Bool.not_eq_true', decide_eq_false_iff_not]
  constructor
  · rintro ⟨hi, hk, hn⟩
    exact ⟨hi, hk.1, hn⟩
  · rintro ⟨hi, hk, hn⟩
    have hl := hp i hi
    exact ⟨hi, ⟨hk, by omega⟩, hn⟩

theorem firstFrom_eq_none_iff (hp : ∀ m, p m → m < s.length) :
    firstFrom s p k = none ↔ ∀ m, k ≤ m → ¬ p m := by
  simp only [firstFrom]
  rw [List.find?_range'_eq_none]
  simp only [Bool.not_eq_true', decide_eq_false_iff_not]
  constructor
  · intro hn m hm hpm
    have hl := hp m hpm
    exact hn m hm (by omega) hpm
  · exact fun hn m hm _ => hn m hm

end

theorem StartsAt.lt_length {gate : Bool} {s : Bytes} {k : Nat} (h : StartsAt gate s k) :
    k < s.length :=
  (List.getElem?_eq_some_iff.mp h.1).1

theorem EndsAt.lt_length {s : Bytes} {k : Nat} (h : EndsAt s k) : k < s.length :=
  (List.getElem?_eq_some_iff.mp h.1).1

/-- The regions from offset `k` on: each runs from the first start to the first end after it, and
the next is looked for behind that. -/
def regionsFrom (gate : Bool) (s : Bytes) (k : Nat) : List Region :=
  match _hi : firstFrom s (StartsAt gate s) k with
  | none => []
  | some i =>
    match hj : firstFrom s (EndsAt s) (i + 1) with
    | none => [⟨i, none⟩]
    | some j => ⟨i, some j⟩ :: regionsFrom gate s (j + 1)
termination_by s.length - k
decreasing_by
  have hs := (firstFrom_eq_some_iff fun _ => StartsAt.lt_length).mp _hi
  have he := (firstFrom_eq_some_iff fun _ => EndsAt.lt_length).mp hj
  have hl := he.1.lt_length
  omega

def regions (gate : Bool) (s : Bytes) : List Region :=
  regionsFrom gate s 0

/-- Does offset `k` lie in the region, behind its `#`? -/
def Region.Holds (r : Region) (k : Nat) : Prop :=
  r.start < k ∧ ∀ j ∈ r.stop, k ≤ j

instance (r : Region) (k : Nat) : Decidable (r.Holds k) :=
  inferInstanceAs (Decidable (_ ∧ _))

def Region.open? (r : Region) : Option Nat :=
  match r.stop with
  | none => some r.start
  | some _ => none

section

variable {gate : Bool} {s : Bytes}

theorem openAt_of_no_start {k l : Nat} (ho : openAt gate s k = none) (hkl : k ≤ l)
    (hn : ∀ m, k ≤ m → m < l → ¬ StartsAt gate s m) : openAt gate s l = none := by
  induction l, hkl using Nat.le_induction with
  | base => exact ho
  | succ l hkl ih =>
    have hl := ih fun m hm hml => hn m hm (by omega)
    rw [openAt_succ_of_none hl, if_neg (hn l hkl (by omega))]

theorem openAt_of_no_end {i k l : Nat} (ho : openAt gate s k = some i) (hkl : k ≤ l)
    (hn : ∀ m, k ≤ m → m < l → ¬ EndsAt s m) : openAt gate s l = some i := by
  induction l, hkl using Nat.le_induction with
  | base => exact ho
  | succ l hkl ih =>
    have hl := ih fun m hm hml => hn m hm (by omega)
    rw [openAt_succ_of_some hl, if_neg (hn l hkl (by omega))]

theorem openAt_of_firstFrom {k i : Nat} (ho : openAt gate s k = none)
    (hi : firstFrom s (StartsAt gate s) k = some i) :
    k ≤ i ∧ i < s.length ∧ (∀ m, k ≤ m → m ≤ i → openAt gate s m = none) ∧
      openAt gate s (i + 1) = some i := by
  obtain ⟨hs, hki, hn⟩ := (firstFrom_eq_some_iff fun _ => StartsAt.lt_length).mp hi
  have hgap : ∀ m, k ≤ m → m ≤ i → openAt gate s m = none := fun m hkm hmi =>
    openAt_of_no_start ho hkm fun l hkl hlm => hn l hkl (by omega)
  refine ⟨hki, hs.lt_length, hgap, ?_⟩
  rw [openAt_succ_of_none (hgap i hki (Nat.le_refl _)), if_pos hs]

theorem openAt_of_endless {i : Nat} (ho : openAt gate s (i + 1) = some i)
    (hj : firstFrom s (EndsAt s) (i + 1) = none) {m : Nat} (hm : i < m) :
    openAt gate s m = some i := by
  have hn := (firstFrom_eq_none_iff fun _ => EndsAt.lt_length).mp hj
  exact openAt_of_no_end ho hm fun l hl _ => hn l hl

theorem openAt_of_ended {i j : Nat} (ho : openAt gate s (i + 1) = some i)
    (hj : firstFrom s (EndsAt s) (i + 1) = some j) :
    i < j ∧ EndsAt s j ∧ (∀ m, i < m → m ≤ j → openAt gate s m = some i) ∧
      (∀ m, i < m → m < j → ¬ EndsAt s m) ∧ openAt gate s (j + 1) = none := by
  obtain ⟨he, hij, hn⟩ := (firstFrom_eq_some_iff fun _ => EndsAt.lt_length).mp hj
  have hbody : ∀ m, i < m → m ≤ j → openAt gate s m = some i := fun m him hmj =>
    openAt_of_no_end ho him fun l hil hlm => hn l hil (by omega)
  refine ⟨hij, he, hbody, hn, ?_⟩
  rw [openAt_succ_of_some (hbody j hij (Nat.le_refl _)), if_pos he]

theorem start_of_mem_regionsFrom {k : Nat} {r : Region} (h : r ∈ regionsFrom gate s k) :
    k ≤ r.start := by
  fun_induction regionsFrom gate s k with
  | case1 k hi => simp at h
  | case2 k i hi hj =>
    have hs := (firstFrom_eq_some_iff fun _ => StartsAt.lt_length).mp hi
    rw [List.mem_singleton.mp h]
    exact hs.2.1
  | case3 k i hi j hj ih =>
    have hs := (firstFrom_eq_some_iff fun _ => StartsAt.lt_length).mp hi
    have he := (firstFrom_eq_some_iff fun _ => EndsAt.lt_length).mp hj
    rcases List.mem_cons.mp h with rfl | h
    · exact hs.2.1
    · have hr := ih h
      omega

theorem openAt_isSome_iff_from {k l : Nat} (ho : openAt gate s k = none) (hkl : k ≤ l) :
    (openAt gate s l).isSome = true ↔ ∃ r ∈ regionsFrom gate s k, r.Holds l := by
  fun_induction regionsFrom gate s k with
  | case1 k hi =>
    have hn := (firstFrom_eq_none_iff fun _ => StartsAt.lt_length).mp hi
    rw [openAt_of_no_start ho hkl fun m hm _ => hn m hm]
    simp
  | case2 k i hi hj =>
    obtain ⟨hki, -, hgap, hi'⟩ := openAt_of_firstFrom ho hi
    by_cases hl : l ≤ i
    · simp [hgap l hkl hl, Region.Holds, hl]
    · have hil : i < l := by omega
      simp [openAt_of_endless hi' hj hil, Region.Holds, hil]
  | case3 k i hi j hj ih =>
    obtain ⟨hki, -, hgap, hi'⟩ := openAt_of_firstFrom ho hi
    obtain ⟨hij, -, hbody, -, hj'⟩ := openAt_of_ended hi' hj
    simp only [List.exists_mem_cons_iff]
    by_cases hl : l ≤ j
    · have hrest : ¬ ∃ r ∈ regionsFrom gate s (j + 1), r.Holds l := by
        rintro ⟨r, hr, hh⟩
        have hjr := start_of_mem_regionsFrom hr
        have hlr := hh.1
        omega
      by_cases hli : l ≤ i
      · rw [hgap l hkl hli]
        simp only [Option.isSome_none, Bool.false_eq_true, hrest, or_false, false_iff]
        rintro ⟨hil, -⟩
        dsimp only at hil
        omega
      · have hil : i < l := by omega
        simp [hbody l hil hl, Region.Holds, hil, hl]
    · have hnot : ¬ (⟨i, some j⟩ : Region).Holds l := by
        rintro ⟨-, hlj⟩
        have := hlj j rfl
        omega
      rw [ih hj' (by omega)]
      simp only [hnot, false_or]

theorem openAt_isSome_iff (k : Nat) :
    (openAt gate s k).isSome = true ↔ ∃ r ∈ regions gate s, r.Holds k :=
  openAt_isSome_iff_from rfl (Nat.zero_le k)

theorem openAt_length_from {k : Nat} (ho : openAt gate s k = none) (hk : k ≤ s.length) :
    openAt gate s s.length = (regionsFrom gate s k).getLast?.bind Region.open? := by
  fun_induction regionsFrom gate s k with
  | case1 k hi =>
    have hn := (firstFrom_eq_none_iff fun _ => StartsAt.lt_length).mp hi
    exact openAt_of_no_start ho hk fun m hm _ => hn m hm
  | case2 k i hi hj =>
    obtain ⟨-, hil, -, hi'⟩ := openAt_of_firstFrom ho hi
    exact openAt_of_endless hi' hj hil
  | case3 k i hi j hj ih =>
    obtain ⟨-, -, -, hi'⟩ := openAt_of_firstFrom ho hi
    obtain ⟨-, he, -, -, hj'⟩ := openAt_of_ended hi' hj
    rw [ih hj' he.lt_length, List.getLast?_cons]
    cases (regionsFrom gate s (j + 1)).getLast? <;> rfl

theorem openAt_length : openAt gate s s.length = (regions gate s).getLast?.bind Region.open? :=
  openAt_length_from rfl (Nat.zero_le _)

end

end Scan

end HashLine
