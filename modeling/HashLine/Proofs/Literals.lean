import HashLine.Proofs.ReadBack

/-! Quoted bytes as a literal. The code of a byte is one plain character, or a backslash, the character
behind it and perhaps some digits, so the backslashes before a quote tell what it is: behind an odd run it
stands for a byte, and behind an even one it ends the literal. -/

namespace HashLine.Byte

def Printable (c : Char) : Prop :=
  0x20 ≤ c.toNat ∧ c.toNat ≤ 0x7e

instance : DecidablePred Printable := fun c =>
  inferInstanceAs (Decidable (0x20 ≤ c.toNat ∧ c.toNat ≤ 0x7e))

/-- Printable, and neither of the two characters that steer the reading of a literal. -/
def Plain (c : Char) : Prop :=
  Printable c ∧ c ≠ '"' ∧ c ≠ '\\'

instance : DecidablePred Plain := fun c =>
  inferInstanceAs (Decidable (Printable c ∧ c ≠ '"' ∧ c ≠ '\\'))

inductive Code : List Char → Prop
  | plain {c : Char} : Plain c → Code [c]
  | escaped {c : Char} {digits : List Char} :
      Printable c → (∀ d ∈ digits, Plain d) → Code ('\\' :: c :: digits)

/-- The length of the run of backslashes at the end of a text. -/
def endingBackslashes (text : List Char) : Nat :=
  (text.rtakeWhile (· == '\\')).length

/-- The bytes of the literal that a text begins with, and the text behind it. -/
def unquote? (text : String) : Option (Bytes × String) :=
  match text.toList with
  | '"' :: rest => (ReadBack.quoted rest).map fun (bytes, rest) => (bytes, String.ofList rest)
  | _ => none

theorem toList_quoted (bytes : Bytes) :
    (quoted bytes).toList = '"' :: (bytes.flatMap escape ++ ['"']) := by
  simp [quoted]

theorem unquote?_quoted_append (bytes : Bytes) (rest : String) :
    unquote? (quoted bytes ++ rest) = some (bytes, rest) := by
  have htext : (quoted bytes ++ rest).toList =
      '"' :: (bytes.flatMap escape ++ '"' :: rest.toList) := by
    simp [toList_quoted]
  rw [unquote?, htext]
  simp [ReadBack.quoted_flatMap_escape]

theorem printable_ofNat {b : UInt8} (h : 0x20 ≤ b ∧ b ≤ 0x7e) : Printable (Char.ofNat b.toNat) := by
  rw [Printable, ReadBack.toNat_ofNat_toNat]
  exact ⟨UInt8.le_iff_toNat_le.mp h.1, UInt8.le_iff_toNat_le.mp h.2⟩

theorem plain_digitChar {n : Nat} (hn : n < 16) : Plain (Nat.digitChar n) := by
  have hall : ∀ n < 16, Plain (Nat.digitChar n) := by decide
  exact hall n hn

theorem code_escape (b : UInt8) : Code (escape b) := by
  have hb := b.toNat_lt
  unfold escape
  split_ifs with h₁ h₂ h₃ hquote hslash hprintable
  · exact .escaped (by decide) (by simp)
  · exact .escaped (by decide) (by simp)
  · exact .escaped (by decide) (by simp)
  · exact .escaped (by decide) (by simp)
  · exact .escaped (by decide) (by simp)
  · exact .plain ⟨printable_ofNat hprintable, ReadBack.ofNat_toNat_ne hquote,
      ReadBack.ofNat_toNat_ne hslash⟩
  · apply Code.escaped (by decide)
    intro d hd
    rcases List.mem_pair.mp hd with rfl | rfl
    · exact plain_digitChar (by omega)
    · exact plain_digitChar (by omega)

theorem endingBackslashes_concat_backslash (text : List Char) :
    endingBackslashes (text ++ ['\\']) = endingBackslashes text + 1 := by
  simp [endingBackslashes]

theorem endingBackslashes_concat {c : Char} (hc : c ≠ '\\') (text : List Char) :
    endingBackslashes (text ++ [c]) = 0 := by
  simp [endingBackslashes, hc]

namespace Code

variable {code before : List Char}

theorem printable (h : Code code) : ∀ c ∈ code, Printable c := by
  cases h with
  | plain hc => simpa using hc.1
  | escaped hc hdigits =>
    intro c hmem
    rcases List.mem_cons.mp hmem with rfl | hmem
    · decide
    · rcases List.mem_cons.mp hmem with rfl | hmem
      · exact hc
      · exact (hdigits c hmem).1

/-- A code leaves no backslash that would escape what follows it. -/
theorem even_append (h : Code code) (hbefore : endingBackslashes before % 2 = 0) :
    endingBackslashes (before ++ code) % 2 = 0 := by
  cases h with
  | plain hc => rw [endingBackslashes_concat hc.2.2]
  | @escaped c digits hc hdigits =>
    rcases digits.eq_nil_or_concat' with rfl | ⟨first, last, rfl⟩
    · -- Here alone a code can end in a backslash, and then it has two of them.
      rw [List.append_cons]
      by_cases hslash : c = '\\'
      · rw [hslash, endingBackslashes_concat_backslash, endingBackslashes_concat_backslash]
        omega
      · rw [endingBackslashes_concat hslash]
    · have hlast : last ≠ '\\' := (hdigits last (by simp)).2.2
      rw [← List.cons_append, ← List.cons_append, ← List.append_assoc, endingBackslashes_concat hlast]

theorem odd_of_quote (h : Code code) (hbefore : endingBackslashes before % 2 = 0)
    {head tail : List Char} (hquote : code = head ++ '"' :: tail) :
    endingBackslashes (before ++ head) % 2 = 1 := by
  cases h with
  | @plain c hc =>
    have hmem : '"' ∈ [c] := by simp [hquote]
    exact absurd (List.mem_singleton.mp hmem).symm hc.2.1
  | @escaped c digits hc hdigits =>
    -- The one place for a quote is right behind the backslash.
    cases head with
    | nil => exact absurd (List.cons.inj hquote).1 (by decide)
    | cons slash head =>
      obtain ⟨rfl, hrest⟩ := List.cons.inj hquote
      cases head with
      | nil =>
        rw [endingBackslashes_concat_backslash]
        omega
      | cons c' head =>
        have hbehind : digits = head ++ '"' :: tail := (List.cons.inj hrest).2
        have hdigit : '"' ∈ digits := by simp [hbehind]
        exact absurd rfl (hdigits '"' hdigit).2.1

end Code

section

variable {bytes : Bytes} {before : List Char}

theorem even_append_flatMap_escape (hbefore : endingBackslashes before % 2 = 0) :
    endingBackslashes (before ++ bytes.flatMap escape) % 2 = 0 := by
  induction bytes generalizing before with
  | nil => simpa using hbefore
  | cons b bytes ih =>
    rw [List.flatMap_cons, ← List.append_assoc]
    exact ih ((code_escape b).even_append hbefore)

theorem odd_of_quote_in_flatMap_escape (hbefore : endingBackslashes before % 2 = 0)
    {head tail : List Char} (hquote : bytes.flatMap escape = head ++ '"' :: tail) :
    endingBackslashes (before ++ head) % 2 = 1 := by
  induction bytes generalizing before head with
  | nil => simp at hquote
  | cons b bytes ih =>
    have hbehind := (code_escape b).even_append hbefore
    rw [List.flatMap_cons] at hquote
    -- The quote stands behind the first code, or in it.
    rcases List.append_eq_append_iff.mp hquote with ⟨more, rfl, hmore⟩ | ⟨part, hpart, hmore⟩
    · rw [← List.append_assoc]
      exact ih hbehind hmore
    · cases part with
      | nil =>
        have hhead : endingBackslashes (before ++ escape b ++ []) % 2 = 1 := ih hbehind hmore.symm
        rwa [List.append_nil, hpart, List.append_nil] at hhead
      | cons c part =>
        obtain ⟨rfl, -⟩ := List.cons.inj hmore
        exact (code_escape b).odd_of_quote hbefore hpart

end

theorem printable_quoted (bytes : Bytes) : ∀ c ∈ (quoted bytes).toList, Printable c := by
  have hquote : Printable '"' := by decide
  have hcodes : ∀ c ∈ bytes.flatMap escape, Printable c := by
    intro c hc
    obtain ⟨b, -, hmem⟩ := List.mem_flatMap.mp hc
    exact (code_escape b).printable c hmem
  rw [toList_quoted]
  intro c hc
  rcases List.mem_cons.mp hc with rfl | hc
  · exact hquote
  · rcases List.mem_append.mp hc with hc | hc
    · exact hcodes c hc
    · exact List.mem_singleton.mp hc ▸ hquote

theorem odd_iff_not_last {bytes : Bytes} {before after : List Char}
    (h : (quoted bytes).toList = before ++ '"' :: after) (hbefore : before ≠ []) :
    endingBackslashes before % 2 = 1 ↔ after ≠ [] := by
  have hopening : endingBackslashes ['"'] % 2 = 0 := by decide
  obtain ⟨first, head, rfl⟩ := List.exists_cons_of_ne_nil hbefore
  rw [toList_quoted] at h
  obtain ⟨rfl, hcodes⟩ := List.cons.inj h
  rcases after.eq_nil_or_concat' with rfl | ⟨tail, last, rfl⟩
  · have hhead : bytes.flatMap escape = head := List.append_cancel_right hcodes
    have heven : endingBackslashes ('"' :: head) % 2 = 0 :=
      hhead ▸ even_append_flatMap_escape hopening
    simp [heven]
  · have hinside : bytes.flatMap escape ++ ['"'] = (head ++ '"' :: tail) ++ [last] := by
      simpa using hcodes
    have hodd : endingBackslashes ('"' :: head) % 2 = 1 :=
      odd_of_quote_in_flatMap_escape hopening (List.append_inj_left' hinside rfl)
    simp [hodd]

/-- Quoted bytes are a literal that delimits itself: whatever text follows, it reads as those bytes and
leaves that text. It is printable ASCII, and of the quotes behind its first all but the last stand behind
an odd run of backslashes. -/
theorem quoted_is_literal (bytes : Bytes) :
    (∀ rest : String, unquote? (quoted bytes ++ rest) = some (bytes, rest)) ∧
      (∀ c ∈ (quoted bytes).toList, Printable c) ∧
      ∀ before after : List Char, (quoted bytes).toList = before ++ '"' :: after → before ≠ [] →
        (endingBackslashes before % 2 = 1 ↔ after ≠ []) := by
  refine ⟨unquote?_quoted_append bytes, printable_quoted bytes, ?_⟩
  intro before after h hbefore
  exact odd_iff_not_last h hbefore

/-- A quote behind three backslashes stands for a byte, and one behind two ends the literal. -/
theorem quoted_is_literal_of_backslashes :
    let bytes : Bytes := [backslash, doubleQuote, 0xff, backslash]
    quoted bytes = "\"\\\\\\\"\\xff\\\\\"" ∧
      unquote? (quoted bytes ++ "\"n") = some (bytes, "\"n") ∧
      Printable 'x' ∧
      endingBackslashes "\"\\\\\\".toList % 2 = 1 ∧
      ¬ endingBackslashes "\"\\\\\\\"\\xff\\\\".toList % 2 = 1 := by
  intro bytes
  obtain ⟨hread, hprintable, hruns⟩ := quoted_is_literal bytes
  refine ⟨by decide, hread "\"n", hprintable 'x' (by decide), ?_, ?_⟩
  · exact (hruns "\"\\\\\\".toList "\\xff\\\\\"".toList (by decide) (by decide)).mpr (by decide)
  · exact mt (hruns "\"\\\\\\\"\\xff\\\\".toList [] (by decide) (by decide)).mp (by decide)

end HashLine.Byte
