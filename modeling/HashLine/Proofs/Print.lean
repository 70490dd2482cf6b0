import HashLine.Proofs.ReadBack

/-! Numbers and source lines in print. A row of a window is two printed lines: a number in its columns and
the line of the source, and below that what marks it. The columns are as wide as the last number needs, and
a number is told from what stands around it, so that nothing else can have been printed there. -/

namespace HashLine

def blanks (n : Nat) : String :=
  String.ofList (List.replicate n ' ')

/-- The number stands at the right of its columns with a bar behind it, both in bold blue. -/
def WindowRow.sourceLine (columns : Nat) (row : WindowRow) : String :=
  "\x1b[1;34m" ++ blanks (columns - (toString row.number).length) ++ toString row.number ++ " |\x1b[0m " ++
    String.ofList row.text

/-- Padding and carets have a style of their own. -/
def WindowRow.caretLine (style : Style) (columns : Nat) (row : WindowRow) : String :=
  blanks columns ++ " \x1b[1;34m|\x1b[0m \x1b[" ++ style.code ++ "m" ++
    String.ofList (row.padding ++ List.replicate row.carets '^') ++ "\x1b[0m"

def WindowRow.printed (style : Style) (columns : Nat) (row : WindowRow) : String :=
  row.sourceLine columns ++ "\n" ++ row.caretLine style columns

theorem WindowRow.render_eq_printed (style : Style) (columns : Nat) (row : WindowRow) :
    row.render style columns = row.printed style columns := by
  rw [← String.toList_inj]
  simp [render, printed, sourceLine, caretLine, Style.paint, Style.code, padLeft, blanks]

theorem length_toString_le {m n : Nat} (h : m ≤ n) : (toString m).length ≤ (toString n).length := by
  have hlength (n : Nat) : (toString n).length = (Nat.toDigits 10 n).length := by
    rw [← String.length_toList, Nat.toString_eq_repr, Nat.toList_repr]
  have hpos : 0 < (Nat.toDigits 10 n).length := List.length_pos_iff.mpr Nat.toDigits_ne_nil
  have hlt : n < 10 ^ (Nat.toDigits 10 n).length :=
    (Nat.length_toDigits_le_iff (by decide) hpos).mp (Nat.le_refl _)
  rw [hlength, hlength]
  exact (Nat.length_toDigits_le_iff (by decide) hpos).mpr (Nat.lt_of_le_of_lt h hlt)

/-- Of numbers in a row the last is the longest. -/
theorem foldl_max_lengths (first n width : Nat) (h : width ≤ (toString first).length) :
    ((List.range' first (n + 1)).map fun k => (toString k).length).foldl max width =
      (toString (first + n)).length := by
  induction n generalizing first width with
  | zero => simpa using h
  | succ n ih =>
    rw [List.range'_succ, List.map_cons, List.foldl_cons, Nat.max_eq_right h,
      ih (first + 1) _ (length_toString_le (Nat.le_succ first)), Nat.add_right_comm, Nat.add_assoc]

theorem Window.width_of_numbers {rows : List WindowRow} {first n : Nat}
    (h : rows.map WindowRow.number = List.range' first (n + 1)) :
    width rows = (toString (first + n)).length + 1 := by
  have hlengths : (rows.map fun r => (toString r.number).length) =
      (List.range' first (n + 1)).map fun k => (toString k).length := by
    rw [← h, List.map_map]
    rfl
  rw [width, hlengths, foldl_max_lengths first n 0 (Nat.zero_le _)]

theorem Window.render_eq_printed (style : Style) (span : Span) (source : String) :
    render style span source = "\n".intercalate
      ((rows span source).map (WindowRow.printed style (width (rows span source)))) := by
  have hrender : WindowRow.render style (width (rows span source)) =
      WindowRow.printed style (width (rows span source)) :=
    funext fun row => row.render_eq_printed style _
  rw [render, hrender]

/-- A window in print that has this number in its first row. -/
def Window.StartsWith (first : Nat) (text : String) : Prop :=
  ∃ n rest, text = "\x1b[1;34m" ++ blanks n ++ toString first ++ " |\x1b[0m " ++ rest

theorem Window.startsWith_printed (style : Style) (columns : Nat) (row : WindowRow) (more : List WindowRow) :
    StartsWith row.number ("\n".intercalate ((row :: more).map (WindowRow.printed style columns))) := by
  rw [List.map_cons, WindowRow.printed, WindowRow.sourceLine, String.append_assoc, String.append_assoc,
    String.intercalate_cons_append]
  exact ⟨_, _, rfl⟩

/-- No number goes on behind a mark that does not begin with a digit. -/
theorem not_isDigit_head_append {mark : String} {c : Char} (h : mark.toList.head? = some c)
    (hc : c.isDigit = false) (rest : String) :
    ∀ d ∈ (mark ++ rest).toList.head?, d.isDigit = false := by
  have hhead : (mark ++ rest).toList.head? = some c := by
    rw [String.toList_append, List.head?_append, h]
    rfl
  rw [hhead]
  rintro d ⟨⟩
  exact hc

section

variable {m n : Nat} {s t : String} (hs : ∀ c ∈ s.toList.head?, c.isDigit = false)
  (ht : ∀ c ∈ t.toList.head?, c.isDigit = false)

include hs ht

theorem eq_of_number_eq (h : toString m ++ s = toString n ++ t) : m = n ∧ s = t := by
  have hread := ReadBack.number_append m hs
  rw [← String.toList_append, h, String.toList_append, ReadBack.number_append n ht] at hread
  obtain ⟨rfl, heq⟩ := Prod.mk.inj (Option.some.inj hread)
  exact ⟨rfl, String.toList_inj.mp heq.symm⟩

/-- A number behind blanks, with no digit after it, is told from what stands around it. -/
theorem eq_of_padded_eq {a b : Nat} (h : blanks a ++ (toString m ++ s) = blanks b ++ (toString n ++ t)) :
    m = n ∧ s = t := by
  have hdrop (a m : Nat) (rest : String) :
      (blanks a ++ (toString m ++ rest)).toList.dropWhile (· == ' ') = (toString m ++ rest).toList := by
    have hblank : ∀ c ∈ List.replicate a ' ', (c == ' ') = true := by simp
    rw [blanks, String.toList_append, String.toList_ofList, List.dropWhile_append_of_pos hblank,
      String.toList_append, Nat.toString_eq_repr, Nat.toList_repr]
    obtain ⟨c, digits, hdigits⟩ := List.exists_cons_of_ne_nil (@Nat.toDigits_ne_nil m 10)
    have hdigit : c.isDigit = true :=
      Nat.isDigit_of_mem_toDigits (by decide) (by decide) (hdigits ▸ List.mem_cons_self)
    have hc : ¬ (c == ' ') = true := by
      rw [beq_iff_eq]
      rintro rfl
      exact absurd hdigit (by decide)
    rw [hdigits, List.cons_append]
    exact List.dropWhile_cons_of_neg hc
  apply eq_of_number_eq hs ht
  rw [← String.toList_inj, ← hdrop a m s, h, hdrop]

end

theorem Window.StartsWith.unique {m n : Nat} {text : String} (h : StartsWith m text)
    (h' : StartsWith n text) : m = n := by
  obtain ⟨a, rest, rfl⟩ := h
  obtain ⟨b, rest', heq⟩ := h'
  simp only [String.append_assoc, String.append_right_inj] at heq
  have hbar : " |\x1b[0m ".toList.head? = some ' ' := by simp
  exact (eq_of_padded_eq (not_isDigit_head_append hbar rfl rest) (not_isDigit_head_append hbar rfl rest')
    heq).1

end HashLine
