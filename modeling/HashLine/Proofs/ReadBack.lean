import HashLine.Proofs.Lines

/-! The plain report read back. Every part of a line is told from what follows it by its first character,
and the text of a directive, whatever bytes it holds, by the quote that ends it: no quote of its own is
written without a backslash. So a report, with the name of its file, gives back all that it tells of its
findings. -/

namespace HashLine

/-- What a line of the plain report tells of a finding. -/
structure PlainEntry where
  line : Nat
  endLine : Nat
  text : Bytes
  matched : List String
deriving DecidableEq, Repr

def Finding.plainEntry (f : Finding) : PlainEntry :=
  ⟨f.directive.line, f.directive.endLine, f.directive.text, f.matched⟩

namespace ReadBack

def skip (expected text : List Char) : Option (List Char) :=
  if expected.isPrefixOf text then some (text.drop expected.length) else none

def number (text : List Char) : Option (Nat × List Char) :=
  match text.takeWhile Char.isDigit with
  | [] => none
  | digits => some (Nat.ofDigitChars 10 digits 0, text.dropWhile Char.isDigit)

/-- One line, or the first and the last of several. -/
def range (text : List Char) : Option ((Nat × Nat) × List Char) := do
  let (first, rest) ← number text
  match rest with
  | '-' :: rest =>
    let (last, rest) ← number rest
    return ((first, last), rest)
  | _ => return ((first, first), rest)

def hexDigit? (c : Char) : Option Nat :=
  (List.range 16).find? fun n => Nat.digitChar n == c

def escaped? : Char → Option UInt8
  | 'n' => some Byte.linefeed
  | 't' => some Byte.tab
  | 'r' => some Byte.carriageReturn
  | '"' => some Byte.doubleQuote
  | '\\' => some Byte.backslash
  | _ => none

/-- The bytes up to the quote that ends them. -/
def quoted : List Char → Option (Bytes × List Char)
  | [] => none
  | '"' :: rest => some ([], rest)
  | '\\' :: 'x' :: high :: low :: rest => do
    let byte := UInt8.ofNat (16 * (← hexDigit? high) + (← hexDigit? low))
    let (bytes, rest) ← quoted rest
    return (byte :: bytes, rest)
  | '\\' :: c :: rest => do
    let byte ← escaped? c
    let (bytes, rest) ← quoted rest
    return (byte :: bytes, rest)
  | c :: rest => do
    let (bytes, rest) ← quoted rest
    return (UInt8.ofNat c.toNat :: bytes, rest)

/-- Names between backquotes, up to the end of the line. -/
def names : List Char → Option (List (List Char) × List Char)
  | [] => none
  | '`' :: ')' :: '\n' :: rest => some ([[]], rest)
  | '`' :: ',' :: ' ' :: '`' :: rest => do
    let (more, rest) ← names rest
    return ([] :: more, rest)
  | c :: rest =>
    match names rest with
    | some (name :: more, rest) => some ((c :: name) :: more, rest)
    | _ => none

def mentions : List Char → Option (List String × List Char)
  | '\n' :: rest => some ([], rest)
  | text => do
    let (found, rest) ← names (← skip " (mentions `".toList text)
    return (found.map String.ofList, rest)

def entry (file : String) (text : List Char) : Option (PlainEntry × List Char) := do
  let ((line, endLine), rest) ← range (← skip (file ++ ":").toList text)
  let (bytes, rest) ← quoted (← skip ": \"".toList rest)
  let (matched, rest) ← mentions rest
  return (⟨line, endLine, bytes, matched⟩, rest)

def entries (file : String) (text : List Char) : Option (List PlainEntry) :=
  if text = [] then some []
  else match entry file text with
    | none => none
    | some (first, rest) =>
      if rest.length < text.length then (first :: ·) <$> entries file rest else none
termination_by text.length

end ReadBack

/-- The entries of a plain report on a file of this name. -/
def readPlain (file : String) (report : Bytes) : Option (List PlainEntry) :=
  (decode? report).bind fun text => ReadBack.entries file text.toList

namespace ReadBack

theorem skip_append (expected rest : List Char) : skip expected (expected ++ rest) = some rest := by
  simp [skip]

theorem number_append (n : Nat) {rest : List Char} (hrest : ∀ c ∈ rest.head?, c.isDigit = false) :
    number ((toString n).toList ++ rest) = some (n, rest) := by
  rw [Nat.toString_eq_repr, Nat.toList_repr]
  have hdigits : ∀ c ∈ Nat.toDigits 10 n, c.isDigit = true := fun c hc =>
    Nat.isDigit_of_mem_toDigits (by decide) (by decide) hc
  have htake : rest.takeWhile Char.isDigit = [] := by
    cases rest with
    | nil => rfl
    | cons c rest => simp [hrest c rfl]
  have hdrop : rest.dropWhile Char.isDigit = rest := by
    cases rest with
    | nil => rfl
    | cons c rest => simp [hrest c rfl]
  simp only [number]
  rw [List.takeWhile_append_of_pos hdigits, List.dropWhile_append_of_pos hdigits, htake, hdrop,
    List.append_nil]
  split
  · next h => exact absurd h Nat.toDigits_ne_nil
  · rw [Nat.ofDigitChars_toDigits (by decide) (by decide)]

theorem range_append (f : Finding) (rest : List Char) :
    range (f.lineRange.toList ++ ':' :: rest) =
      some ((f.directive.line, f.directive.endLine), ':' :: rest) := by
  have hcolon : ∀ c ∈ (':' :: rest).head?, c.isDigit = false := by
    rintro c ⟨⟩
    rfl
  rw [Finding.lineRange]
  by_cases h : f.directive.endLine = f.directive.line
  · rw [if_pos h, range, number_append _ hcolon, h]
    rfl
  · rw [if_neg h, String.toList_append, String.toList_append, List.append_assoc, List.append_assoc,
      range, number_append _ (by rintro c ⟨⟩; rfl)]
    change (number ((toString f.directive.endLine).toList ++ ':' :: rest)).bind _ = _
    rw [number_append _ hcolon]
    rfl

theorem hexDigit?_digitChar {n : Nat} (hn : n < 16) : hexDigit? (Nat.digitChar n) = some n := by
  have hall : ∀ n < 16, hexDigit? (Nat.digitChar n) = some n := by decide
  exact hall n hn

theorem toNat_ofNat_toNat (b : UInt8) : (Char.ofNat b.toNat).toNat = b.toNat := by
  have hb := b.toNat_lt
  have hvalid : b.toNat.isValidChar := .inl (by omega)
  rw [Char.ofNat, dif_pos hvalid]
  rfl

theorem ofNat_toNat_ne {b b' : UInt8} (h : b ≠ b') : Char.ofNat b.toNat ≠ Char.ofNat b'.toNat := by
  intro heq
  have hnat := congrArg Char.toNat heq
  rw [toNat_ofNat_toNat, toNat_ofNat_toNat] at hnat
  exact h (UInt8.toNat_inj.mp hnat)

/-- A byte as it is written is read as that byte, and reading goes on behind it. -/
theorem quoted_escape (b : UInt8) (rest : List Char) :
    quoted (Byte.escape b ++ rest) = (quoted rest).map fun (bytes, rest) => (b :: bytes, rest) := by
  have hmap (byte : UInt8) : ((quoted rest).bind fun (bytes, rest) => some (byte :: bytes, rest)) =
      (quoted rest).map fun (bytes, rest) => (byte :: bytes, rest) := by
    cases quoted rest <;> rfl
  unfold Byte.escape
  split_ifs with h₁ h₂ h₃ h₄ h₅ h₆
  · subst h₁
    exact hmap _
  · subst h₂
    exact hmap _
  · subst h₃
    exact hmap _
  · subst h₄
    exact hmap _
  · subst h₅
    exact hmap _
  · -- Printable, and neither the quote nor the backslash.
    have hquote : Char.ofNat b.toNat = '"' → False := ofNat_toNat_ne h₄
    have hslash : Char.ofNat b.toNat ≠ '\\' := ofNat_toNat_ne h₅
    rw [List.singleton_append, quoted.eq_5 _ _ hquote (fun _ _ _ h => absurd h hslash)
      (fun _ _ h => absurd h hslash), toNat_ofNat_toNat, UInt8.ofNat_toNat]
    exact hmap b
  · have hb := b.toNat_lt
    have hbyte : UInt8.ofNat (16 * (b.toNat / 16) + b.toNat % 16) = b := by
      rw [Nat.div_add_mod, UInt8.ofNat_toNat]
    simp only [List.cons_append, List.nil_append, quoted]
    rw [hexDigit?_digitChar (by omega), hexDigit?_digitChar (by omega)]
    simp only [bind, Option.bind, hbyte]
    cases quoted rest <;> rfl

theorem quoted_flatMap_escape (bytes : Bytes) (rest : List Char) :
    quoted (bytes.flatMap Byte.escape ++ '"' :: rest) = some (bytes, rest) := by
  induction bytes with
  | nil => rfl
  | cons b bytes ih =>
    rw [List.flatMap_cons, List.append_assoc, quoted_escape, ih]
    rfl

theorem names_append {name text first : List Char} {more : List (List Char)} {rest : List Char}
    (hname : '`' ∉ name) (h : names text = some (first :: more, rest)) :
    names (name ++ text) = some ((name ++ first) :: more, rest) := by
  induction name with
  | nil => exact h
  | cons c name ih =>
    obtain ⟨hc, hname⟩ := not_or.mp fun hmem => hname (List.mem_cons.mpr hmem)
    have hne : c ≠ '`' := fun heq => hc heq.symm
    rw [List.cons_append, names.eq_4 _ _ (fun _ hcq => absurd hcq hne) (fun _ hcq => absurd hcq hne),
      ih hname]
    rfl

/-- Names without a backquote are told apart by the backquotes between them. -/
theorem names_intercalate {found : List (List Char)} (hne : found ≠ [])
    (hfound : ∀ name ∈ found, '`' ∉ name) (rest : List Char) :
    names ("`, `".toList.intercalate found ++ "`)\n".toList ++ rest) = some (found, rest) := by
  induction found with
  | nil => exact absurd rfl hne
  | cons name found ih =>
    have hname := hfound name List.mem_cons_self
    cases found with
    | nil =>
      rw [List.intercalate_singleton, List.append_assoc,
        names_append hname (show names _ = some ([[]], rest) from rfl), List.append_nil]
    | cons next more =>
      have hmore := ih (by simp) fun name hmem => hfound name (List.mem_cons_of_mem _ hmem)
      have hsep : names ("`, `".toList ++ ("`, `".toList.intercalate (next :: more) ++
          "`)\n".toList ++ rest)) = some ([] :: next :: more, rest) := by
        change (names ("`, `".toList.intercalate (next :: more) ++ "`)\n".toList ++ rest)).bind _ = _
        rw [hmore]
        rfl
      rw [List.intercalate_cons_cons]
      simp only [List.append_assoc] at hsep ⊢
      rw [names_append hname hsep, List.append_nil]

theorem mentions_matched {matched : List String} (h : ∀ name ∈ matched, '`' ∉ name.toList)
    (rest : List Char) :
    mentions ((if matched.isEmpty then "" else
      " (mentions `" ++ "`, `".intercalate matched ++ "`)").toList ++ '\n' :: rest) =
      some (matched, rest) := by
  cases matched with
  | nil => rfl
  | cons name more =>
    have hnames := names_intercalate (List.cons_ne_nil name.toList (more.map String.toList))
      (by simpa using h) rest
    have hmore : (name :: more).map String.toList = name.toList :: more.map String.toList := rfl
    simp only [List.isEmpty_cons, Bool.false_eq_true, if_false, String.toList_append,
      String.toList_intercalate, List.append_assoc, hmore] at hnames ⊢
    rw [mentions, skip_append]
    · change (names ("`, `".toList.intercalate (name.toList :: more.map String.toList) ++
        ("`)\n".toList ++ rest))).bind _ = _
      rw [hnames]
      simp [String.ofList_toList, Function.comp_def, pure]
    · intro rest' heq
      exact absurd (List.cons.inj heq).1 (by decide)

theorem entry_plainLine {f : Finding} (h : ∀ name ∈ f.matched, '`' ∉ name.toList)
    (file : String) (rest : List Char) :
    entry file ((f.plainLine file).toList ++ '\n' :: rest) = some (f.plainEntry, rest) := by
  have hquoted (rest : List Char) : (Byte.quoted f.directive.text).toList ++ rest =
      '"' :: (f.directive.text.flatMap Byte.escape ++ '"' :: rest) := by
    simp [Byte.quoted]
  have hline : (f.plainLine file).toList ++ '\n' :: rest = (file ++ ":").toList ++
      (f.lineRange.toList ++ ':' :: ' ' :: '"' :: (f.directive.text.flatMap Byte.escape ++ '"' ::
        ((if f.matched.isEmpty then "" else
          " (mentions `" ++ "`, `".intercalate f.matched ++ "`)").toList ++ '\n' :: rest))) := by
    rw [← hquoted]
    simp [Finding.plainLine]
  have hskip (rest : List Char) : skip ": \"".toList (':' :: ' ' :: '"' :: rest) = some rest :=
    skip_append ": \"".toList rest
  rw [hline, entry, skip_append]
  simp only [bind, Option.bind_some, range_append, hskip, quoted_flatMap_escape, mentions_matched h]
  rfl

theorem entries_append {file : String} {text rest : List Char} {first : PlainEntry}
    (h : entry file (text ++ rest) = some (first, rest)) (hne : text ≠ []) :
    entries file (text ++ rest) = (first :: ·) <$> entries file rest := by
  have hnil : text ++ rest ≠ [] := by simp [hne]
  have hlt : rest.length < (text ++ rest).length := by
    have hpos := List.length_pos_iff.mpr hne
    rw [List.length_append]
    omega
  rw [entries, if_neg hnil, h]
  exact if_pos hlt

theorem entries_flatMap {file : String} {findings : List Finding}
    (h : ∀ f ∈ findings, ∀ name ∈ f.matched, '`' ∉ name.toList) :
    entries file (findings.flatMap fun f => (f.plainLine file).toList ++ ['\n']) =
      some (findings.map Finding.plainEntry) := by
  induction findings with
  | nil => simp [entries]
  | cons f findings ih =>
    have hfirst := entry_plainLine (h f List.mem_cons_self) file
      (findings.flatMap fun f => (f.plainLine file).toList ++ ['\n'])
    rw [List.append_cons] at hfirst
    rw [List.flatMap_cons, entries_append hfirst (by simp),
      ih fun f hf => h f (List.mem_cons_of_mem _ hf)]
    rfl

end ReadBack

/-- The identifiers that findings are matched by are C identifiers, as a filter takes no others. -/
def Report.Named (r : Report) : Prop :=
  ∀ f ∈ r.findings, ∀ name ∈ f.matched, isIdentifier (utf8 name) = true

instance (r : Report) : Decidable r.Named :=
  inferInstanceAs (Decidable (∀ f ∈ r.findings, ∀ name ∈ f.matched, _))

theorem not_mem_of_isIdentifier {name : String} (h : isIdentifier (utf8 name) = true) {c : Char}
    (b : UInt8) (hc : String.utf8EncodeChar c = [b]) (hb : Byte.inIdentifier b = false) :
    c ∉ name.toList := by
  intro hmem
  have hbyte : b ∈ utf8 name := by
    rw [utf8_eq_flatMap, List.mem_flatMap]
    exact ⟨c, hmem, by rw [hc]; exact List.mem_singleton_self b⟩
  rw [(inIdentifier_of_isIdentifier h).2 b hbyte] at hb
  cases hb

theorem Report.toList_plain (file : String) (r : Report) :
    (r.plain file).toList = r.findings.flatMap fun f => (f.plainLine file).toList ++ ['\n'] := by
  simp [plain, String.toList_join, List.flatMap_map]

theorem linefeed_not_mem_escape (b : UInt8) : '\n' ∉ Byte.escape b := by
  have hdigit : ∀ n < 16, '\n' ≠ Nat.digitChar n := by decide
  have hb := b.toNat_lt
  unfold Byte.escape
  split_ifs with h₁
  · decide
  · decide
  · decide
  · decide
  · decide
  · have hne : Char.ofNat b.toNat ≠ '\n' := ReadBack.ofNat_toNat_ne h₁
    simpa using hne.symm
  · simp [hdigit (b.toNat / 16) (by omega), hdigit (b.toNat % 16) (by omega)]

theorem linefeed_not_mem_toString (n : Nat) : '\n' ∉ (toString n).toList := by
  intro hmem
  rw [Nat.toString_eq_repr, Nat.toList_repr] at hmem
  exact absurd (Nat.isDigit_of_mem_toDigits (by decide) (by decide) hmem) (by decide)

theorem not_mem_intercalate {α : Type} {x : α} {sep : List α} {parts : List (List α)}
    (hsep : x ∉ sep) (h : ∀ part ∈ parts, x ∉ part) : x ∉ sep.intercalate parts := by
  induction parts with
  | nil => simp
  | cons part parts ih =>
    have hpart := h part List.mem_cons_self
    have hmore := ih fun part hmem => h part (List.mem_cons_of_mem _ hmem)
    cases parts with
    | nil => simpa using hpart
    | cons next more =>
      rw [List.intercalate_cons_cons]
      simp [hpart, hsep, hmore]

theorem Finding.linefeed_not_mem_plainLine {file : String} {f : Finding}
    (hfile : '\n' ∉ file.toList) (h : ∀ name ∈ f.matched, '\n' ∉ name.toList) :
    '\n' ∉ (f.plainLine file).toList := by
  have hrange : '\n' ∉ f.lineRange.toList := by
    rw [lineRange]
    split
    · exact linefeed_not_mem_toString _
    · simp only [String.toList_append, List.mem_append, not_or]
      exact ⟨⟨linefeed_not_mem_toString _, by decide⟩, linefeed_not_mem_toString _⟩
  have hquoted : '\n' ∉ (Byte.quoted f.directive.text).toList := by
    simp [Byte.quoted, linefeed_not_mem_escape]
  have hnames : '\n' ∉ "`, `".toList.intercalate (f.matched.map String.toList) :=
    not_mem_intercalate (by decide) (by simpa using h)
  simp only [plainLine, String.toList_append, List.mem_append, not_or]
  refine ⟨⟨⟨⟨⟨hfile, by decide⟩, hrange⟩, by decide⟩, hquoted⟩, ?_⟩
  split
  · decide
  · simp only [String.toList_append, String.toList_intercalate, List.mem_append, not_or]
    exact ⟨⟨by decide, hnames⟩, by decide⟩

theorem Report.count_linefeed_plain {file : String} {r : Report} (hfile : '\n' ∉ file.toList)
    (h : r.Named) : (utf8 (r.plain file)).count Byte.linefeed = r.findings.length := by
  have hone : ∀ f ∈ r.findings, ((f.plainLine file).toList ++ ['\n']).count '\n' = 1 := by
    intro f hf
    have hnames : ∀ name ∈ f.matched, '\n' ∉ name.toList := fun name hname =>
      not_mem_of_isIdentifier (h f hf name hname) Byte.linefeed (by decide) (by decide)
    rw [List.count_append, List.count_eq_zero.mpr (f.linefeed_not_mem_plainLine hfile hnames)]
    rfl
  have hones : r.findings.map (List.count '\n' ∘ fun f => (f.plainLine file).toList ++ ['\n']) =
      r.findings.map fun _ => 1 := List.map_congr_left hone
  rw [utf8_eq_flatMap, count_linefeed_flatMap, toList_plain, List.count_flatMap, hones]
  simp

/-- The plain report can be read back: it gives the lines, the text and the matched identifiers of every
finding, so reports that look the same tell the same. On a file whose name is one line it is one line for
each finding. -/
theorem plain_report_reads_back {r : Report} (h : r.Named) (file : String) (source : Option Bytes) :
    readPlain file (r.render .plain file source) = some (r.findings.map Finding.plainEntry) ∧
      (∀ r' : Report, r'.Named → ∀ source',
        r'.render .plain file source' = r.render .plain file source →
          r'.findings.map Finding.plainEntry = r.findings.map Finding.plainEntry) ∧
      ('\n' ∉ file.toList →
        (r.render .plain file source).count Byte.linefeed = r.findings.length) := by
  have hread (r : Report) (h : r.Named) (source : Option Bytes) :
      readPlain file (r.render .plain file source) = some (r.findings.map Finding.plainEntry) := by
    rw [Report.render, readPlain, decode?_utf8, Option.bind_some, Report.toList_plain]
    exact ReadBack.entries_flatMap fun f hf name hname =>
      not_mem_of_isIdentifier (h f hf name hname) 0x60 (by decide) (by decide)
  refine ⟨hread r h source, ?_, fun hfile => r.count_linefeed_plain hfile h⟩
  intro r' h' source' heq
  have hboth := hread r' h' source'
  rw [heq, hread r h source] at hboth
  exact (Option.some.inj hboth).symm

/-- A file name and texts that look like the report around them. -/
theorem plain_report_of_lookalikes :
    let file := "a:1: \"b\"\n"
    let r : Report :=
      ⟨[⟨⟨7, 7, ⟨0, 0⟩, utf8 "\" (mentions `A`)\n\\", true⟩, []⟩,
        ⟨⟨8, 10, ⟨0, 0⟩, [0xff, 0x00, 0x22, 0x5c], false⟩, ["A", "_b1"]⟩], [], ⟨0, 0, 0, false, .unquoted⟩⟩
    r.Named ∧ readPlain file (r.render .plain file none) =
      some [⟨7, 7, utf8 "\" (mentions `A`)\n\\", []⟩, ⟨8, 10, [0xff, 0x00, 0x22, 0x5c], ["A", "_b1"]⟩] := by
  intro file r
  have hnamed : r.Named := by decide +kernel
  exact ⟨hnamed, (plain_report_reads_back hnamed file none).1⟩

end HashLine
