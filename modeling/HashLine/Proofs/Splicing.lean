import HashLine.Directive

/-! Splicing read off the offsets of a text. A backslash with a linefeed right behind it is a spliced
line end. No two of these overlap, so a text can be joined without going from left to right: the bytes
that stay are those that belong to none. What stands first on the joined line can be told from the text
as well, behind the spliced line ends before it. -/

namespace HashLine

def SpliceAt (t : Bytes) (k : Nat) : Prop :=
  t[k]? = some Byte.backslash ∧ t[k + 1]? = some Byte.linefeed

instance (t : Bytes) (k : Nat) : Decidable (SpliceAt t k) :=
  inferInstanceAs (Decidable (_ ∧ _))

/-- Is the byte at this offset one of the two of a spliced line end? -/
def InSplice (t : Bytes) : Nat → Prop
  | 0 => SpliceAt t 0
  | k + 1 => SpliceAt t (k + 1) ∨ SpliceAt t k

instance (t : Bytes) : DecidablePred (InSplice t)
  | 0 => inferInstanceAs (Decidable (SpliceAt t 0))
  | k + 1 => inferInstanceAs (Decidable (SpliceAt t (k + 1) ∨ SpliceAt t k))

def splices (t : Bytes) : Nat :=
  (List.range t.length).countP (SpliceAt t ·)

def keptAt (t : Bytes) (k : Nat) : Option UInt8 :=
  if InSplice t k then none else t[k]?

/-- The bytes that belong to no spliced line end. -/
def unspliced (t : Bytes) : Bytes :=
  (List.range t.length).filterMap (keptAt t)

theorem not_spliceAt_zero {b : UInt8} {t : Bytes}
    (hpair : ∀ rest, b = Byte.backslash → t = Byte.linefeed :: rest → False) :
    ¬ SpliceAt (b :: t) 0 := by
  rintro ⟨hb, ht⟩
  cases t with
  | nil => cases ht
  | cons c rest =>
    have hc : c = Byte.linefeed := Option.some.inj ht
    exact hpair rest (Option.some.inj hb) (by rw [hc])

theorem splices_cons (b : UInt8) (t : Bytes) :
    splices (b :: t) = splices t + if SpliceAt (b :: t) 0 then 1 else 0 := by
  rw [splices, List.length_cons, List.range_succ_eq_map, List.countP_cons, List.countP_map]
  simp only [decide_eq_true_eq]
  rfl

theorem splices_spliced (t : Bytes) :
    splices (Byte.backslash :: Byte.linefeed :: t) = splices t + 1 := by
  have hno : ¬ SpliceAt (Byte.linefeed :: t) 0 := fun h => absurd (Option.some.inj h.1) (by decide)
  rw [splices_cons, splices_cons, if_neg hno, if_pos ⟨rfl, rfl⟩]

theorem keptAt_succ {b : UInt8} {t : Bytes} (h : ¬ SpliceAt (b :: t) 0) :
    keptAt (b :: t) ∘ Nat.succ = keptAt t := by
  funext k
  have hiff : InSplice (b :: t) (k + 1) ↔ InSplice t k := by
    cases k with
    -- only the offset right behind the new byte looks back at it
    | zero => exact or_iff_left h
    | succ k => exact Iff.rfl
  show (if InSplice (b :: t) (k + 1) then none else t[k]?) = _
  simp only [hiff]
  rfl

theorem unspliced_cons {b : UInt8} {t : Bytes} (h : ¬ SpliceAt (b :: t) 0) :
    unspliced (b :: t) = b :: unspliced t := by
  have hfirst : keptAt (b :: t) 0 = some b := if_neg h
  rw [unspliced, List.length_cons, List.range_succ_eq_map, List.filterMap_cons_some hfirst,
    List.filterMap_map, keptAt_succ h]
  rfl

theorem unspliced_spliced (t : Bytes) :
    unspliced (Byte.backslash :: Byte.linefeed :: t) = unspliced t := by
  have hpair : SpliceAt (Byte.backslash :: Byte.linefeed :: t) 0 := ⟨rfl, rfl⟩
  have hfirst : keptAt (Byte.backslash :: Byte.linefeed :: t) 0 = none := if_pos hpair
  have hsecond : (keptAt (Byte.backslash :: Byte.linefeed :: t) ∘ Nat.succ) 0 = none := by
    show keptAt (Byte.backslash :: Byte.linefeed :: t) 1 = none
    exact if_pos (.inr hpair)
  have hrest : (keptAt (Byte.backslash :: Byte.linefeed :: t) ∘ Nat.succ) ∘ Nat.succ = keptAt t :=
    keptAt_succ fun h => absurd (Option.some.inj h.1) (by decide)
  rw [unspliced, List.length_cons, List.length_cons, List.range_succ_eq_map,
    List.filterMap_cons_none hfirst, List.filterMap_map, List.range_succ_eq_map,
    List.filterMap_cons_none hsecond, List.filterMap_map, hrest]
  rfl

theorem splice_eq_unspliced (t : Bytes) : splice t = unspliced t := by
  fun_induction splice t with
  | case1 => rfl
  | case2 rest ih => exact ih.trans (unspliced_spliced rest).symm
  | case3 b rest hpair ih => rw [unspliced_cons (not_spliceAt_zero hpair), ih]

theorem length_splice (t : Bytes) : (splice t).length + 2 * splices t = t.length := by
  fun_induction splice t with
  | case1 => rfl
  | case2 rest ih =>
    show (splice rest).length + 2 * splices (Byte.backslash :: Byte.linefeed :: rest) = _
    rw [splices_spliced, List.length_cons, List.length_cons]
    omega
  | case3 b rest hpair ih =>
    rw [splices_cons, if_neg (not_spliceAt_zero hpair), List.length_cons, List.length_cons]
    omega

theorem count_linefeed_splice (t : Bytes) :
    (splice t).count Byte.linefeed + splices t = t.count Byte.linefeed := by
  fun_induction splice t with
  | case1 => rfl
  | case2 rest ih =>
    show _ + splices (Byte.backslash :: Byte.linefeed :: rest) =
      (Byte.backslash :: Byte.linefeed :: rest).count Byte.linefeed
    rw [splices_spliced, List.count_cons_of_ne (by decide), List.count_cons_self]
    omega
  | case3 b rest hpair ih =>
    rw [splices_cons, if_neg (not_spliceAt_zero hpair), List.count_cons, List.count_cons]
    omega

theorem isSpliced_iff (t : Bytes) : isSpliced t = true ↔ ∃ k, SpliceAt t k := by
  fun_induction isSpliced t with
  | case1 => simp [SpliceAt]
  | case2 rest => exact iff_of_true rfl ⟨0, rfl, rfl⟩
  | case3 b rest hpair ih =>
    rw [ih]
    constructor
    · rintro ⟨k, hk⟩
      exact ⟨k + 1, hk⟩
    · rintro ⟨k, hk⟩
      cases k with
      | zero => exact absurd hk (not_spliceAt_zero hpair)
      | succ k => exact ⟨k, hk⟩

theorem splice_append {a b : Bytes}
    (h : a.getLast? = some Byte.backslash → b.head? ≠ some Byte.linefeed) :
    splice (a ++ b) = splice a ++ splice b := by
  fun_induction splice a with
  | case1 => rfl
  | case2 rest ih =>
    apply ih
    intro hlast
    apply h
    rw [List.getLast?_cons, List.getLast?_cons, hlast]
    rfl
  | case3 c rest hpair ih =>
    have hkeep : splice (c :: rest ++ b) = c :: splice (rest ++ b) := by
      refine splice.eq_3 c _ ?_
      intro more hc hrest
      cases rest with
      | nil =>
        -- the last byte of `a`: it begins a spliced line end only if `b` has the other half
        have hb : b = Byte.linefeed :: more := hrest
        exact h (by rw [hc]; rfl) (by rw [hb]; rfl)
      | cons x rest => exact hpair rest hc (by rw [(List.cons.inj hrest).1])
    rw [hkeep, List.cons_append, ih]
    intro hlast
    apply h
    rw [List.getLast?_cons, hlast]
    rfl

def isIndent (b : UInt8) : Bool :=
  b == Byte.space || b == Byte.tab

def dropSplices : Bytes → Bytes
  | Byte.backslash :: Byte.linefeed :: rest => dropSplices rest
  | bytes => bytes

theorem head?_splice (t : Bytes) : (splice t).head? = (dropSplices t).head? := by
  fun_induction dropSplices t with
  | case1 rest ih => exact ih
  | case2 bytes hpair =>
    cases bytes with
    | nil => rfl
    | cons b rest =>
      rw [splice.eq_3 b rest fun more hb hrest => hpair more (by rw [hb, hrest])]
      rfl

theorem splice_cons_of_ne {b : UInt8} (hb : b ≠ Byte.backslash) (t : Bytes) :
    splice (b :: t) = b :: splice t :=
  splice.eq_3 b t fun _ h _ => hb h

theorem splice_identifier_append {run : Bytes} (hrun : ∀ b ∈ run, Byte.inIdentifier b = true)
    (t : Bytes) : splice (run ++ t) = run ++ splice t := by
  induction run with
  | nil => rfl
  | cons b run ih =>
    have hb : b ≠ Byte.backslash := by
      rintro rfl
      exact absurd (hrun _ List.mem_cons_self) (by decide)
    rw [List.cons_append, splice_cons_of_ne hb, ih fun c hc => hrun c (List.mem_cons_of_mem b hc)]
    rfl

theorem isIndent_eq_false {b : UInt8} {t : Bytes}
    (hspace : ∀ rest, b :: t = Byte.space :: rest → False)
    (htab : ∀ rest, b :: t = Byte.tab :: rest → False) : isIndent b = false := by
  have hs : b ≠ Byte.space := fun h => hspace t (congrArg (· :: t) h)
  have ht : b ≠ Byte.tab := fun h => htab t (congrArg (· :: t) h)
  simp [isIndent, hs, ht]

/-- The indent of a logical line is the indent of the text, joined. -/
theorem dropWhile_isIndent_splice (t : Bytes) :
    (splice t).dropWhile isIndent = splice (dropIndent t) := by
  fun_induction dropIndent t with
  | case1 rest ih => exact ih
  | case2 rest ih => exact ih
  | case3 rest ih => exact ih
  | case4 bytes hspace htab hpair =>
    cases bytes with
    | nil => rfl
    | cons b rest =>
      have hb := isIndent_eq_false hspace htab
      rw [splice.eq_3 b rest fun more hb hrest => hpair more (by rw [hb, hrest]),
        List.dropWhile_cons_of_neg (by simp [hb])]

/-- In a text that is one line, what looks like a spliced line end is the end of the text. -/
theorem takeWhile_dropIndent_of_line {u : Bytes}
    (hu : ∀ k, u[k]? = some Byte.linefeed → k + 1 = u.length) :
    (dropIndent u).takeWhile Byte.inIdentifier =
      (u.dropWhile isIndent).takeWhile Byte.inIdentifier := by
  fun_induction dropIndent u with
  | case1 rest ih =>
    exact ih fun k hk => Nat.succ.inj (hu (k + 1) hk)
  | case2 rest ih =>
    exact ih fun k hk => Nat.succ.inj (hu (k + 1) hk)
  | case3 rest ih =>
    have hlength : 2 = rest.length + 2 := hu 1 rfl
    obtain rfl : rest = [] := List.length_eq_zero_iff.mp (by omega)
    rfl
  | case4 bytes hspace htab hpair =>
    cases bytes with
    | nil => rfl
    | cons b rest =>
      have hb := isIndent_eq_false hspace htab
      rw [List.dropWhile_cons_of_neg (by simp [hb])]

end HashLine
