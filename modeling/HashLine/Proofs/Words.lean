import HashLine.Proofs.Names

/-! The words of a text: its runs of identifier bytes, as they are left when the text is cut at every other
byte. Searching for a word finds the first of these runs that is that word, and finds nothing else. -/

namespace HashLine

/-- Some bytes of a text and the offset at which they begin. -/
structure Token where
  start : Nat
  bytes : Bytes
deriving DecidableEq, Repr

/-- The pieces of a text in which one byte stands between each two. -/
def placed (offset : Nat) : List Bytes → List Token
  | [] => []
  | piece :: more => ⟨offset, piece⟩ :: placed (offset + piece.length + 1) more

def identifierPieces (bytes : Bytes) : List Bytes :=
  bytes.splitOnP fun b => !Byte.inIdentifier b

/-- The longest runs of identifier bytes, from left to right. -/
def identifierRuns (bytes : Bytes) : List Token :=
  (placed 0 (identifierPieces bytes)).filter fun t => !t.bytes.isEmpty

/-- Where the first of the tokens that is `word` starts. -/
def firstStart (word : Bytes) (tokens : List Token) : Option Nat :=
  (tokens.find? fun t => t.bytes == word).map Token.start

section

variable {word piece : Bytes}

theorem firstStart_of_eq (h : piece = word) (start : Nat) (tokens : List Token) :
    firstStart word (⟨start, piece⟩ :: tokens) = some start := by
  simp [firstStart, h]

theorem firstStart_of_ne (h : piece ≠ word) (start : Nat) (tokens : List Token) :
    firstStart word (⟨start, piece⟩ :: tokens) = firstStart word tokens := by
  simp [firstStart, h]

theorem isSome_firstStart_iff {tokens : List Token} :
    (firstStart word tokens).isSome = true ↔ word ∈ tokens.map Token.bytes := by
  simp [firstStart]

theorem firstStart_identifierRuns (hne : word ≠ []) (bytes : Bytes) :
    firstStart word (identifierRuns bytes) = firstStart word (placed 0 (identifierPieces bytes)) := by
  rw [firstStart, firstStart, identifierRuns, List.find?_filter]
  congr 2
  funext t
  by_cases h : t.bytes = word <;> simp [h, hne]

end

theorem identifierPieces_of_separator {b : UInt8} (hb : Byte.inIdentifier b = false) (rest : Bytes) :
    identifierPieces (b :: rest) = [] :: identifierPieces rest := by
  simp [identifierPieces, List.splitOnP_cons_eq_if_modifyHead, hb]

theorem identifierPieces_of_identifier {b : UInt8} (hb : Byte.inIdentifier b = true) {rest first : Bytes}
    {more : List Bytes} (h : identifierPieces rest = first :: more) :
    identifierPieces (b :: rest) = (b :: first) :: more := by
  simp only [identifierPieces] at h
  simp [identifierPieces, List.splitOnP_cons_eq_if_modifyHead, hb, h]

theorem exists_identifierPieces (bytes : Bytes) :
    ∃ more, identifierPieces bytes = bytes.takeWhile Byte.inIdentifier :: more := by
  induction bytes with
  | nil => exact ⟨[], rfl⟩
  | cons b rest ih =>
    obtain ⟨more, hrest⟩ := ih
    cases hb : Byte.inIdentifier b with
    | false =>
      rw [List.takeWhile_cons_of_neg (by simp [hb])]
      exact ⟨_, identifierPieces_of_separator hb rest⟩
    | true =>
      rw [List.takeWhile_cons_of_pos hb]
      exact ⟨more, identifierPieces_of_identifier hb hrest⟩

section

variable {word : Bytes}

theorem standsAlone_of_identifier_before {before : Option UInt8}
    (hbefore : before.any Byte.inIdentifier = true) (bytes : Bytes) :
    standsAlone word before bytes = false := by
  simp [standsAlone, hbefore]

/-- Where no identifier byte stands before, the word has to be the whole run. -/
theorem standsAlone_iff (hword : ∀ b ∈ word, Byte.inIdentifier b = true) {before : Option UInt8}
    (hbefore : before.any Byte.inIdentifier = false) (bytes : Bytes) :
    standsAlone word before bytes = true ↔ bytes.takeWhile Byte.inIdentifier = word := by
  simp only [standsAlone, hbefore, Bool.and_eq_true, Bool.not_eq_true', List.isPrefixOf_iff_prefix,
    and_true]
  constructor
  · rintro ⟨⟨rest, rfl⟩, hrest⟩
    rw [List.drop_left, ← takeWhile_eq_nil_iff_head?] at hrest
    rw [List.takeWhile_append_of_pos hword, hrest, List.append_nil]
  · rintro rfl
    have hsplit := @List.takeWhile_append_dropWhile _ Byte.inIdentifier bytes
    have hdrop := congrArg (List.drop (bytes.takeWhile Byte.inIdentifier).length) hsplit
    have hhead := List.head?_dropWhile_not Byte.inIdentifier bytes
    rw [List.drop_left] at hdrop
    rw [← hdrop]
    refine ⟨List.takeWhile_prefix _, ?_⟩
    cases h : (bytes.dropWhile Byte.inIdentifier).head? with
    | none => rfl
    | some b =>
      rw [h] at hhead
      exact hhead

/-- The search along the cut. Behind an identifier byte the first piece is the rest of a longer run and is
passed over. -/
theorem findWordFrom_eq_firstStart (hne : word ≠ []) (hword : ∀ b ∈ word, Byte.inIdentifier b = true)
    {bytes first : Bytes} {more : List Bytes} (hpieces : identifierPieces bytes = first :: more)
    (offset : Nat) (before : Option UInt8) :
    findWordFrom word offset before bytes = firstStart word
      (if before.any Byte.inIdentifier then placed (offset + first.length + 1) more
        else placed offset (first :: more)) := by
  induction bytes generalizing offset before first more with
  | nil =>
    obtain ⟨rfl, rfl⟩ := List.cons.inj hpieces
    cases before.any Byte.inIdentifier with
    | true => rfl
    | false => exact (firstStart_of_ne hne.symm offset []).symm
  | cons b rest ih =>
    obtain ⟨more', hrest⟩ := exists_identifierPieces rest
    have hnext := ih hrest (offset + 1) (some b)
    rw [findWordFrom, hnext]
    cases hb : Byte.inIdentifier b with
    | false =>
      have hrun : (b :: rest).takeWhile Byte.inIdentifier = [] :=
        List.takeWhile_cons_of_neg (by simp [hb])
      rw [identifierPieces_of_separator hb, hrest] at hpieces
      obtain ⟨rfl, rfl⟩ := List.cons.inj hpieces
      cases hbefore : before.any Byte.inIdentifier with
      | true => simp [standsAlone_of_identifier_before hbefore, hb]
      | false =>
        have halone := mt (standsAlone_iff hword hbefore (b :: rest)).mp (hrun ▸ hne.symm)
        rw [if_neg halone]
        simp [hb, placed, firstStart_of_ne hne.symm]
    | true =>
      have hrun : (b :: rest).takeWhile Byte.inIdentifier = b :: rest.takeWhile Byte.inIdentifier :=
        List.takeWhile_cons_of_pos hb
      have hoffset : offset + 1 + (rest.takeWhile Byte.inIdentifier).length + 1 =
          offset + (b :: rest.takeWhile Byte.inIdentifier).length + 1 := by
        rw [List.length_cons]
        omega
      rw [identifierPieces_of_identifier hb hrest] at hpieces
      obtain ⟨rfl, rfl⟩ := List.cons.inj hpieces
      cases hbefore : before.any Byte.inIdentifier with
      | true => simp [standsAlone_of_identifier_before hbefore, hb, hoffset]
      | false =>
        have halone := standsAlone_iff hword hbefore (b :: rest)
        rw [hrun] at halone
        by_cases hfound : b :: rest.takeWhile Byte.inIdentifier = word
        · rw [if_pos (halone.mpr hfound)]
          exact (firstStart_of_eq hfound offset _).symm
        · rw [if_neg (mt halone.mp hfound)]
          simp [hb, placed, firstStart_of_ne hfound, hoffset]

theorem findWord_eq_firstStart (hne : word ≠ []) (hword : ∀ b ∈ word, Byte.inIdentifier b = true)
    (haystack : Bytes) : findWord haystack word = firstStart word (identifierRuns haystack) := by
  obtain ⟨more, hpieces⟩ := exists_identifierPieces haystack
  have hfind := findWordFrom_eq_firstStart hne hword hpieces 0 none
  have hnonempty : ¬ word.isEmpty = true := by simpa using hne
  rw [findWord, if_neg hnonempty, hfind, ← hpieces, firstStart_identifierRuns hne]
  rfl

end

/-- Searching for a word is looking it up among the runs of identifier bytes, and so a directive mentions
an identifier just when it is one of the runs of its logical line. -/
theorem word_found_iff_run :
    (∀ haystack word, word ≠ [] → (∀ b ∈ word, Byte.inIdentifier b = true) →
      findWord haystack word = firstStart word (identifierRuns haystack)) ∧
      ∀ (d : Directive) (identifier : String), isIdentifier (utf8 identifier) = true →
        (d.mentions identifier = true ↔
          utf8 identifier ∈ (identifierRuns d.logicalText).map Token.bytes) := by
  constructor
  · intro haystack word hne hword
    exact findWord_eq_firstStart hne hword haystack
  · intro d identifier h
    obtain ⟨hne, hword⟩ := inIdentifier_of_isIdentifier h
    rw [Directive.mentions, findWord_eq_firstStart hne hword]
    exact isSome_firstStart_iff

/-- The word first stands glued to others, on either side; the identifier is spliced together. -/
theorem word_found_behind_glued_ones :
    let haystack := utf8 "FOOBAR MY_FOO x(FOO)FOO"
    let d : Directive := ⟨1, 2, ⟨0, 16⟩, utf8 "ifdef OLD_\\\nAPI\n", true⟩
    identifierRuns haystack = [⟨0, utf8 "FOOBAR"⟩, ⟨7, utf8 "MY_FOO"⟩, ⟨14, utf8 "x"⟩,
        ⟨16, utf8 "FOO"⟩, ⟨20, utf8 "FOO"⟩] ∧
      findWord haystack (utf8 "FOO") = some 16 ∧
      d.mentions "OLD_API" = true ∧ ¬ d.mentions "OLD_" = true := by
  intro haystack d
  refine ⟨by decide +kernel, ?_, ?_, ?_⟩
  · rw [word_found_iff_run.1 haystack (utf8 "FOO") (by decide +kernel) (by decide +kernel)]
    decide +kernel
  · rw [word_found_iff_run.2 d "OLD_API" (by decide)]
    decide +kernel
  · rw [word_found_iff_run.2 d "OLD_" (by decide)]
    decide +kernel

end HashLine
