import HashLine.Proofs.Delimiting
import HashLine.Proofs.Splicing

/-! The logical line of a directive. In the text of a directive that a scan has found, every linefeed
belongs to a spliced line end, but for the one that ends it. Joined, such a text is one line, and the
lines that it took up are one more than its spliced line ends. -/

namespace HashLine

namespace Scan

theorem inSplice_of_not_ends {t : Bytes} {k : Nat} (hl : t[k]? = some Byte.linefeed)
    (he : ¬ EndsAt (Byte.hash :: t) (k + 1)) : InSplice t k := by
  have hb : byteBefore (Byte.hash :: t) (k + 1) = some Byte.backslash := by
    by_contra hne
    exact he ⟨hl, hne⟩
  cases k with
  -- the byte before the first of the text is the `#`
  | zero => exact absurd (Option.some.inj hb) (by decide)
  | succ k => exact .inr ⟨hb, hl⟩

theorem Unended.linefeed_not_mem_splice {t : Bytes} (h : Unended (Byte.hash :: t)) :
    Byte.linefeed ∉ splice t := by
  rw [splice_eq_unspliced]
  intro hmem
  obtain ⟨k, -, hk⟩ := List.mem_filterMap.mp hmem
  by_cases hin : InSplice t k
  · rw [keptAt, if_pos hin] at hk
    cases hk
  · rw [keptAt, if_neg hin] at hk
    exact hin (inSplice_of_not_ends hk (h.endless (k + 1)))

/-- Without the linefeed that ends it, a whole directive ends nowhere, and no backslash is last. -/
theorem Whole.unended_of_concat {t : Bytes} (h : Whole (Byte.hash :: t ++ [Byte.linefeed])) :
    Unended (Byte.hash :: t) ∧ (Byte.hash :: t).getLast? ≠ some Byte.backslash := by
  have hends (m : Nat) := (endsAt_concat (Byte.hash :: t) m).symm.trans (h.ends m)
  rw [List.length_append, List.length_singleton] at hends
  have hendless : ∀ m, ¬ EndsAt (Byte.hash :: t) m := by
    intro m hm
    have hlt := hm.lt_length
    have hlast := (hends m).mp (.inl hm)
    omega
  refine ⟨⟨rfl, hendless⟩, ?_⟩
  rcases (hends (Byte.hash :: t).length).mpr rfl with hm | hm
  · exact absurd hm (hendless _)
  · exact hm.2

theorem Whole.exists_line {t : Bytes} (h : Whole (Byte.hash :: t)) :
    ∃ line, Byte.linefeed ∉ line ∧ splice t = line ++ [Byte.linefeed] := by
  obtain ⟨init, rfl⟩ := List.getLast?_eq_some_iff.mp
    ((getLast?_hash_cons (by decide) t).mp h.getLast?)
  obtain ⟨hunended, hlast⟩ := Whole.unended_of_concat h
  refine ⟨splice init, hunended.linefeed_not_mem_splice, ?_⟩
  rw [splice_append fun hb => absurd ((getLast?_hash_cons (by decide) init).mpr hb) hlast]
  rfl

section

variable {gate : Bool} {s : Bytes} {d : Directive}

theorem Delivers.exists_line (h : Delivers gate s (.directive d)) :
    ∃ line, Byte.linefeed ∉ line ∧
      d.logicalText = line ++ if d.terminated = true then [Byte.linefeed] else [] := by
  rw [d.logicalText_eq_splice]
  by_cases ht : d.terminated = true
  · rw [if_pos ht]
    exact (h.whole ht).exists_line
  · rw [if_neg ht]
    have hunended := h.unended (Bool.eq_false_iff.mpr ht)
    exact ⟨splice d.text, hunended.linefeed_not_mem_splice, (List.append_nil _).symm⟩

theorem Delivers.count_linefeed_text (h : Delivers gate s (.directive d)) :
    d.text.count Byte.linefeed = splices d.text + if d.terminated = true then 1 else 0 := by
  obtain ⟨line, hline, hlogical⟩ := h.exists_line
  have hcount := count_linefeed_splice d.text
  rw [← d.logicalText_eq_splice, hlogical, List.count_append, List.count_eq_zero.mpr hline] at hcount
  by_cases ht : d.terminated = true
  · rw [if_pos ht, List.count_singleton_self] at hcount
    rw [if_pos ht]
    omega
  · rw [if_neg ht, List.count_nil] at hcount
    rw [if_neg ht]
    omega

end

/-- From a `#` to the last byte of a slice there are the linefeeds of its text but for the last byte. -/
theorem linefeedsBefore_slice {s : Bytes} {i stop : Nat} (hs : s[i]? = some Byte.hash)
    (hi : i < stop) (hstop : stop ≤ s.length) :
    linefeedsBefore s (stop - 1) =
      linefeedsBefore s i + ((s.take stop).drop (i + 1)).dropLast.count Byte.linefeed := by
  obtain ⟨n, rfl⟩ := Nat.exists_eq_add_of_le (show i + 1 ≤ stop from hi)
  have htext : (s.take (i + 1 + n)).drop (i + 1) = (s.drop (i + 1)).take n := by
    rw [List.drop_take]
    congr 1
    omega
  have hfirst : linefeedsBefore s (i + 1) = linefeedsBefore s i := by
    rw [linefeedsBefore_succ, hs, if_neg (by decide), Nat.add_zero]
  rw [htext]
  cases n with
  | zero => simp
  | succ n =>
    have hlength : ((s.drop (i + 1)).take (n + 1)).length = n + 1 := by
      rw [List.length_take, List.length_drop]
      omega
    have hdrop : ((s.drop (i + 1)).take (n + 1)).dropLast = (s.drop (i + 1)).take n := by
      rw [List.dropLast_eq_take, hlength, List.take_take]
      congr 1
      omega
    have hlast : i + 1 + (n + 1) - 1 = i + 1 + n := by omega
    rw [hdrop, hlast, ← hfirst]
    simp only [linefeedsBefore]
    rw [List.take_add, List.count_append]

theorem Delivers.endLine_eq {gate : Bool} {s : Bytes} {d : Directive}
    (hl : s.count Byte.linefeed < Cursor.lastLine) (h : Delivers gate s (.directive d)) :
    d.endLine = d.line + d.text.dropLast.count Byte.linefeed := by
  have hslice {i stop : Nat} (terminated : Bool) (hs : s[i]? = some Byte.hash) (hi : i < stop)
      (hstop : stop ≤ s.length) :
      (directiveOf s i stop terminated).endLine = (directiveOf s i stop terminated).line +
        (directiveOf s i stop terminated).text.dropLast.count Byte.linefeed := by
    simp only [directiveOf, Cursor.lineOf_of_count_lt hl]
    rw [linefeedsBefore_slice hs hi hstop, Nat.add_assoc]
  cases h with
  | @ended i k ho he =>
    exact hslice true (openAt_begun ho).1.1 (Nat.lt_succ_of_lt (openAt_lt ho)) he.lt_length
  | cutOff ho => exact hslice false (openAt_begun ho).1.1 (openAt_lt ho) (Nat.le_refl _)

theorem count_linefeed_dropLast (t : Bytes) :
    t.count Byte.linefeed =
      t.dropLast.count Byte.linefeed + if t.getLast? = some Byte.linefeed then 1 else 0 := by
  rcases List.eq_nil_or_concat' t with rfl | ⟨init, b, rfl⟩
  · rfl
  · rw [List.dropLast_concat, List.getLast?_concat, List.count_append]
    by_cases hb : b = Byte.linefeed <;> simp [hb]

section

variable {gate : Bool} {s : Bytes} {d : Directive}

theorem Delivers.endLine_add (hl : s.count Byte.linefeed < Cursor.lastLine)
    (h : Delivers gate s (.directive d)) :
    d.line + splices d.text = d.endLine +
      if d.terminated = false ∧ d.text.getLast? = some Byte.linefeed then 1 else 0 := by
  have hend := h.endLine_eq hl
  have hcount := h.count_linefeed_text
  have hlast := count_linefeed_dropLast d.text
  by_cases ht : d.terminated = true
  · have hl : d.text.getLast? = some Byte.linefeed :=
      (getLast?_hash_cons (by decide) d.text).mp (h.whole ht).getLast?
    rw [if_pos ht] at hcount
    rw [if_pos hl] at hlast
    rw [if_neg (by simp [ht])]
    omega
  · rw [if_neg ht] at hcount
    simp only [Bool.eq_false_iff.mpr ht, true_and]
    omega

theorem Delivers.linefeed_last (h : Delivers gate s (.directive d)) {k : Nat}
    (hk : d.logicalText[k]? = some Byte.linefeed) : k + 1 = d.logicalText.length := by
  obtain ⟨line, hline, hlogical⟩ := h.exists_line
  have hk' : k < d.logicalText.length := (List.getElem?_eq_some_iff.mp hk).1
  have hge : line.length ≤ k := by
    by_contra hlt
    rw [hlogical, List.getElem?_append_left (by omega)] at hk
    exact hline (List.mem_of_getElem? hk)
  have hlength : d.logicalText.length ≤ line.length + 1 := by
    rw [hlogical, List.length_append]
    split <;> simp
  omega

theorem Delivers.getLast?_logicalText (h : Delivers gate s (.directive d)) :
    d.logicalText.getLast? = some Byte.linefeed ↔ d.terminated = true := by
  obtain ⟨line, hline, hlogical⟩ := h.exists_line
  rw [hlogical]
  by_cases ht : d.terminated = true
  · rw [if_pos ht, List.getLast?_concat]
    exact iff_of_true rfl ht
  · rw [if_neg ht, List.append_nil]
    exact iff_of_false (fun hlast => hline (List.mem_of_getLast? hlast)) ht

end

/-- The logical text of a directive that a scan has found is one line: it has no linefeed but the one
that ends the directive, and the directive takes up a line more for each spliced line end, unless the
input stops right behind one. Whatever the text, joining it byte by byte and taking it as it is where
nothing is spliced both leave the bytes outside all spliced line ends. -/
theorem logical_text_is_one_line (options : Options) (source : Source) :
    (source.supply.1.count Byte.linefeed < Cursor.lastLine →
      ∀ d ∈ (scan options source).directives,
        (∀ k, d.logicalText[k]? = some Byte.linefeed → k + 1 = d.logicalText.length) ∧
          (d.logicalText.getLast? = some Byte.linefeed ↔ d.terminated = true) ∧
          d.logicalText.length + 2 * splices d.text = d.text.length ∧
          d.line + splices d.text = d.endLine +
            if d.terminated = false ∧ d.text.getLast? = some Byte.linefeed then 1 else 0) ∧
      ∀ d : Directive,
        (isSpliced d.text = true ↔ ∃ k, SpliceAt d.text k) ∧
          (isSpliced d.text = false → d.text = unspliced d.text) ∧
          splice d.text = unspliced d.text ∧ d.logicalText = unspliced d.text := by
  constructor
  · intro hl d hd
    have h := delivers_directive options source hd
    refine ⟨fun k hk => h.linefeed_last hk, h.getLast?_logicalText, ?_, h.endLine_add hl⟩
    rw [d.logicalText_eq_splice]
    exact length_splice d.text
  · intro d
    have hsplice := splice_eq_unspliced d.text
    refine ⟨isSpliced_iff d.text, ?_, hsplice, d.logicalText_eq_splice.trans hsplice⟩
    intro hplain
    rw [← hsplice, splice_eq_self hplain]

/-- Two backslashes before a linefeed, and an input that stops right behind a spliced line end. -/
theorem logical_text_of_cut_off_splice :
    let d : Directive := ⟨1, 2, ⟨0, 7⟩, utf8 "a\\\\\n\\\n", false⟩
    d ∈ (scan {} (.ofBytes (utf8 "#a\\\\\n\\\n"))).directives ∧
      d.logicalText = utf8 "a\\" ∧ d.logicalText.getLast? ≠ some Byte.linefeed ∧
      d.line + splices d.text = d.endLine + 1 := by
  intro d
  have hd : d ∈ (scan {} (.ofBytes (utf8 "#a\\\\\n\\\n"))).directives := by decide +kernel
  obtain ⟨hfound, htext⟩ := logical_text_is_one_line {} (.ofBytes (utf8 "#a\\\\\n\\\n"))
  obtain ⟨-, hlast, -, hlines⟩ := hfound (by decide +kernel) d hd
  refine ⟨hd, (htext d).2.2.2.trans (by decide +kernel), ?_, ?_⟩
  · rw [ne_eq, hlast]
    decide
  · exact hlines.trans (by decide +kernel)

end Scan

end HashLine
