import HashLine.Proofs.Course

/-! Two inputs joined at the end of a line. Before the seam an offset of the whole has what it has in
the first input. Behind it an offset has what it has in the second, if the first leaves neither a
directive nor quotes open. -/

namespace HashLine

section

variable (a b : Bytes) (k : Nat)

theorem getElem?_append_seam : (a ++ b)[a.length + k]? = b[k]? := by
  rw [List.getElem?_append_right (Nat.le_add_right _ _), Nat.add_sub_cancel_left]

theorem take_append_seam : (a ++ b).take (a.length + k) = a ++ b.take k := by
  rw [List.take_append, List.take_of_length_le (Nat.le_add_right _ _), Nat.add_sub_cancel_left]

theorem linefeedsBefore_append_right :
    linefeedsBefore (a ++ b) (a.length + k) = linefeedsBefore b k + a.count Byte.linefeed := by
  simp only [linefeedsBefore]
  rw [take_append_seam, List.count_append, Nat.add_comm]

theorem lineOf_append_right :
    Cursor.lineOf (a ++ b) (a.length + k) =
      min (Cursor.lineOf b k + a.count Byte.linefeed) Cursor.lastLine := by
  simp only [Cursor.lineOf]
  rw [linefeedsBefore_append_right]
  omega

end

section

variable {a : Bytes} (b : Bytes) {k : Nat}

theorem linefeedsBefore_append_left (hk : k ≤ a.length) :
    linefeedsBefore (a ++ b) k = linefeedsBefore a k := by
  simp only [linefeedsBefore]
  rw [List.take_append_of_le_length hk]

theorem lineOf_append_left (hk : k ≤ a.length) :
    Cursor.lineOf (a ++ b) k = Cursor.lineOf a k := by
  simp only [Cursor.lineOf]
  rw [linefeedsBefore_append_left b hk]

theorem byteBefore_append_left (hk : k ≤ a.length) : byteBefore (a ++ b) k = byteBefore a k := by
  cases k with
  | zero => rfl
  | succ k => exact List.getElem?_append_left hk

theorem lineHead_append_left (hk : k ≤ a.length) : lineHead (a ++ b) k = lineHead a k := by
  simp only [lineHead]
  rw [List.take_append_of_le_length hk]

theorem quotesBefore_append_left (hk : k ≤ a.length) :
    quotesBefore (a ++ b) k = quotesBefore a k := by
  simp only [quotesBefore]
  rw [List.take_append_of_le_length hk]

end

theorem Quotes.after_congr {before before' : Option UInt8} (h : before ≠ some Byte.backslash)
    (h' : before' ≠ some Byte.backslash) (q : Quotes) (xs : Bytes) :
    q.after before xs = q.after before' xs := by
  cases xs with
  | nil => rfl
  | cons x xs => simp only [Quotes.after, Quotes.update, if_neg h, if_neg h']

/-- An input that is empty or whose last line is ended. -/
def EndsLine (a : Bytes) : Prop :=
  a = [] ∨ a.getLast? = some Byte.linefeed

section

variable {a : Bytes} (h : EndsLine a)

include h

theorem EndsLine.getLast?_ne : a.getLast? ≠ some Byte.backslash := by
  rcases h with rfl | h
  · simp
  · rw [h]
    decide

theorem EndsLine.succ_lt_of_backslash {k : Nat} (hb : a[k]? = some Byte.backslash) :
    k + 1 < a.length := by
  have hk : k < a.length := (List.getElem?_eq_some_iff.mp hb).1
  by_contra hlast
  apply h.getLast?_ne
  rw [List.getLast?_eq_getElem?, show a.length - 1 = k by omega, hb]

theorem EndsLine.byteBefore_append_right (b : Bytes) (k : Nat) :
    byteBefore (a ++ b) (a.length + k) = some Byte.backslash ↔
      byteBefore b k = some Byte.backslash := by
  cases k with
  | zero =>
    have hlast : byteBefore (a ++ b) a.length = a.getLast? := by
      rw [byteBefore_append_left b (Nat.le_refl _), ← getLast?_take a (Nat.le_refl _),
        List.take_length]
    rw [Nat.add_zero, hlast]
    simp [h.getLast?_ne, byteBefore]
  | succ k =>
    change (a ++ b)[a.length + k]? = _ ↔ _
    rw [getElem?_append_seam]
    rfl

theorem EndsLine.lineHead_append_right (b : Bytes) (k : Nat) :
    lineHead (a ++ b) (a.length + k) = lineHead b k := by
  simp only [lineHead]
  rw [take_append_seam]
  induction b.take k using List.reverseRecOn with
  | nil =>
    rcases h with rfl | h
    · rfl
    · obtain ⟨init, rfl⟩ := List.getLast?_eq_some_iff.mp h
      rw [List.append_nil, List.rtakeWhile_concat_neg _ _ _ (by simp)]
      rfl
  | append_singleton xs x ih =>
    rw [← List.append_assoc, List.rtakeWhile_concat, List.rtakeWhile_concat, ih]

theorem EndsLine.quotesBefore_append_right (hq : quotesBefore a a.length = .unquoted)
    (b : Bytes) (k : Nat) :
    quotesBefore (a ++ b) (a.length + k) = quotesBefore b k := by
  simp only [quotesBefore] at hq ⊢
  rw [List.take_length] at hq
  rw [take_append_seam, Quotes.after_append, hq, Option.or_none]
  exact Quotes.after_congr h.getLast?_ne (by simp) _ _

end

namespace Scan

section

variable {gate : Bool} {a : Bytes} (b : Bytes) {k : Nat}

theorem startsAt_append_left (hk : k < a.length) :
    StartsAt gate (a ++ b) k ↔ StartsAt gate a k := by
  simp only [StartsAt]
  rw [List.getElem?_append_left hk, lineHead_append_left b (Nat.le_of_lt hk),
    quotesBefore_append_left b hk]

theorem endsAt_append_left (hk : k < a.length) : EndsAt (a ++ b) k ↔ EndsAt a k := by
  simp only [EndsAt]
  rw [List.getElem?_append_left hk, byteBefore_append_left b (Nat.le_of_lt hk)]

theorem strayAt_append_left (h : EndsLine a) (hk : k < a.length) :
    StrayAt (a ++ b) k ↔ StrayAt a k := by
  simp only [StrayAt]
  rw [List.getElem?_append_left hk, quotesBefore_append_left b hk]
  refine and_congr_right fun hb => ?_
  -- The first input does not end in a backslash, so the byte behind this one is still in it.
  rw [List.getElem?_append_left (h.succ_lt_of_backslash hb)]

theorem openAt_append_left (hk : k ≤ a.length) :
    openAt gate (a ++ b) k = openAt gate a k := by
  induction k with
  | zero => rfl
  | succ k ih =>
    simp only [openAt, ih (Nat.le_of_succ_le hk), startsAt_append_left b hk,
      endsAt_append_left b hk]

end

/-- An input that ends with its last line, leaving no directive open, and no quotes where those
matter. -/
structure Closed (gate : Bool) (a : Bytes) : Prop where
  endsLine : EndsLine a
  closed : openAt gate a a.length = none
  unquoted : gate = true → quotesBefore a a.length = .unquoted

section

variable {gate : Bool} {a : Bytes} (h : Closed gate a) (b : Bytes) (k : Nat)

include h

theorem Closed.startsAt_append_right :
    StartsAt gate (a ++ b) (a.length + k) ↔ StartsAt gate b k := by
  simp only [StartsAt]
  rw [getElem?_append_seam, h.endsLine.lineHead_append_right, Nat.add_assoc]
  refine and_congr_right fun _ => and_congr_right fun _ => imp_congr_right fun hg => ?_
  rw [h.endsLine.quotesBefore_append_right (h.unquoted hg)]

theorem Closed.endsAt_append_right : EndsAt (a ++ b) (a.length + k) ↔ EndsAt b k := by
  simp only [EndsAt]
  rw [getElem?_append_seam, ne_eq, h.endsLine.byteBefore_append_right]

theorem Closed.openAt_append_right :
    openAt gate (a ++ b) (a.length + k) = (openAt gate b k).map (a.length + ·) := by
  induction k with
  | zero =>
    rw [Nat.add_zero, openAt_append_left b (Nat.le_refl _), h.closed]
    rfl
  | succ k ih =>
    rw [← Nat.add_assoc]
    cases ho : openAt gate b k with
    | none =>
      rw [ho] at ih
      rw [openAt_succ_of_none ih, openAt_succ_of_none ho]
      simp only [h.startsAt_append_right]
      split <;> rfl
    | some i =>
      rw [ho] at ih
      rw [openAt_succ_of_some ih, openAt_succ_of_some ho]
      simp only [h.endsAt_append_right]
      split <;> rfl

end

/-- An input that ends with its last line, leaving neither a directive nor quotes open. -/
structure Clean (gate : Bool) (a : Bytes) : Prop where
  endsLine : EndsLine a
  closed : openAt gate a a.length = none
  unquoted : quotesBefore a a.length = .unquoted

section

variable {gate : Bool} {a : Bytes} (h : Clean gate a) (b : Bytes) (k : Nat)

include h

theorem Clean.toClosed : Closed gate a :=
  ⟨h.endsLine, h.closed, fun _ => h.unquoted⟩

theorem Clean.endsAt_append_right : EndsAt (a ++ b) (a.length + k) ↔ EndsAt b k :=
  h.toClosed.endsAt_append_right b k

theorem Clean.strayAt_append_right : StrayAt (a ++ b) (a.length + k) ↔ StrayAt b k := by
  simp only [StrayAt]
  rw [getElem?_append_seam, Nat.add_assoc, getElem?_append_seam,
    h.endsLine.quotesBefore_append_right h.unquoted]

theorem Clean.openAt_append_right :
    openAt gate (a ++ b) (a.length + k) = (openAt gate b k).map (a.length + ·) :=
  h.toClosed.openAt_append_right b k

end

end Scan

end HashLine
