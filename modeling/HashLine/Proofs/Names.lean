import HashLine.Filter.Names
import HashLine.Proofs.LogicalLine
import HashLine.Proofs.ReadBack

/-! The name of a directive: the identifier bytes behind its indent, up to the first byte of another
kind. A spliced line end is such a byte, so a name that goes on behind one is cut short, although the
logical line has it whole. Nor need the bytes be an identifier: they may begin with a digit, and then no
filter can ask for them. -/

namespace HashLine

theorem takeWhile_eq_nil_iff_head? (p : UInt8 → Bool) (t : Bytes) :
    t.takeWhile p = [] ↔ t.head?.any p = false := by
  cases t with
  | nil => simp
  | cons b t => cases hb : p b <;> simp [hb]

theorem toNat_lt_of_inIdentifier {b : UInt8} (h : Byte.inIdentifier b = true) : b.toNat < 128 := by
  simp only [Byte.inIdentifier, Byte.beginsIdentifier, Byte.isLetter, Byte.isDigit, Bool.or_eq_true,
    Bool.and_eq_true, decide_eq_true_eq, beq_iff_eq, UInt8.le_iff_toNat_le] at h
  rcases h with ((⟨-, h⟩ | ⟨-, h⟩) | rfl) | ⟨-, h⟩
  · exact Nat.lt_of_le_of_lt h (by decide)
  · exact Nat.lt_of_le_of_lt h (by decide)
  · decide
  · exact Nat.lt_of_le_of_lt h (by decide)

theorem utf8_ofList_ascii {run : Bytes} (hrun : ∀ b ∈ run, b.toNat < 128) :
    utf8 (String.ofList (run.map fun b => Char.ofNat b.toNat)) = run := by
  rw [utf8_eq_flatMap, String.toList_ofList, List.flatMap_map]
  induction run with
  | nil => rfl
  | cons b run ih =>
    have hb := hrun b List.mem_cons_self
    have hval : (Char.ofNat b.toNat).val.toNat = b.toNat := ReadBack.toNat_ofNat_toNat b
    have hself : String.utf8EncodeChar (Char.ofNat b.toNat) = [b] := by
      rw [String.utf8EncodeChar, if_pos (by omega), hval, UInt8.ofNat_toNat]
    rw [List.flatMap_cons, hself, ih fun c hc => hrun c (List.mem_cons_of_mem b hc)]
    rfl

namespace Directive

def nameRun (d : Directive) : Bytes :=
  (dropIndent d.text).takeWhile Byte.inIdentifier

/-- Does the name go on behind spliced line ends? -/
def NameSpliced (d : Directive) : Prop :=
  (dropSplices ((dropIndent d.text).dropWhile Byte.inIdentifier)).head?.any Byte.inIdentifier = true

instance (d : Directive) : Decidable d.NameSpliced :=
  inferInstanceAs (Decidable (_ = true))

theorem inIdentifier_of_mem_nameRun {d : Directive} {b : UInt8} (hb : b ∈ d.nameRun) :
    Byte.inIdentifier b = true :=
  List.mem_takeWhile_imp hb

theorem utf8_name? (d : Directive) :
    d.name?.map utf8 = if d.nameRun = [] then none else some d.nameRun := by
  have hascii : ∀ b ∈ d.nameRun, b.toNat < 128 := fun b hb =>
    toNat_lt_of_inIdentifier (inIdentifier_of_mem_nameRun hb)
  rw [name?]
  split
  · next hrun =>
    have hnil : d.nameRun = [] := hrun
    rw [if_pos hnil]
    rfl
  · next hrun =>
    have hne : d.nameRun ≠ [] := hrun
    rw [if_neg hne, Option.map_some]
    exact congrArg some (utf8_ofList_ascii hascii)

theorem nameRun_of_name? {d : Directive} {name : String} (h : d.name? = some name) :
    d.nameRun ≠ [] ∧ utf8 name = d.nameRun := by
  have hutf8 := d.utf8_name?
  rw [h, Option.map_some] at hutf8
  by_cases hnil : d.nameRun = []
  · rw [if_pos hnil] at hutf8
    cases hutf8
  · rw [if_neg hnil] at hutf8
    exact ⟨hnil, Option.some.inj hutf8⟩

theorem exists_name {d : Directive} (h : d.nameRun ≠ []) :
    ∃ name, d.name? = some name ∧ utf8 name = d.nameRun := by
  have hutf8 := d.utf8_name?
  rw [if_neg h] at hutf8
  exact Option.map_eq_some_iff.mp hutf8

theorem name?_eq_iff (d e : Directive) : d.name? = e.name? ↔ d.nameRun = e.nameRun := by
  constructor
  · intro h
    have hutf8 := congrArg (Option.map utf8) h
    rw [utf8_name?, utf8_name?] at hutf8
    by_cases hd : d.nameRun = [] <;> by_cases he : e.nameRun = [] <;> simp_all
  · intro h
    simp only [nameRun] at h
    rw [name?, name?, h]

end Directive

/-- The name on the logical line is the name in the text and what of it spliced line ends set apart. -/
theorem takeWhile_logicalText (d : Directive) :
    (d.logicalText.dropWhile isIndent).takeWhile Byte.inIdentifier =
      d.nameRun ++ (splice ((dropIndent d.text).dropWhile Byte.inIdentifier)).takeWhile
        Byte.inIdentifier := by
  have hall : ∀ b ∈ d.nameRun, Byte.inIdentifier b = true := fun b hb =>
    Directive.inIdentifier_of_mem_nameRun hb
  have hsplit : dropIndent d.text = d.nameRun ++ (dropIndent d.text).dropWhile Byte.inIdentifier :=
    List.takeWhile_append_dropWhile.symm
  rw [d.logicalText_eq_splice, dropWhile_isIndent_splice]
  conv_lhs => rw [hsplit]
  rw [splice_identifier_append hall, List.takeWhile_append_of_pos hall]

theorem Directive.not_nameSpliced_iff (d : Directive) :
    ¬ d.NameSpliced ↔
      (splice ((dropIndent d.text).dropWhile Byte.inIdentifier)).takeWhile Byte.inIdentifier = [] := by
  rw [takeWhile_eq_nil_iff_head?, head?_splice, NameSpliced, Bool.not_eq_true]

namespace Scan

/-- The name of a directive is the name on its logical line, unless it goes on behind a spliced line
end; then it is only the beginning of that name. -/
theorem name_eq_logical_iff (options : Options) (source : Source) {d : Directive}
    (hd : d ∈ (scan options source).directives) :
    let logical := { d with text := d.logicalText }
    let run := (d.logicalText.dropWhile isIndent).takeWhile Byte.inIdentifier
    logical.name?.map utf8 = (if run = [] then none else some run) ∧
      (d.name? = logical.name? ↔ ¬ d.NameSpliced) ∧
      ∀ name ∈ d.name?, ∃ whole ∈ logical.name?, utf8 name <+: utf8 whole := by
  intro logical run
  have h := delivers_directive options source hd
  -- the logical text is one line, so nothing is left in it for the name to step over but blanks
  have hrun : logical.nameRun = run :=
    takeWhile_dropIndent_of_line fun _ hk => h.linefeed_last hk
  have hwhole : run = d.nameRun ++ _ := takeWhile_logicalText d
  refine ⟨?_, ?_, ?_⟩
  · rw [Directive.utf8_name?, hrun]
  · rw [Directive.name?_eq_iff, hrun, hwhole, d.not_nameSpliced_iff, List.self_eq_append_right]
  · intro name hname
    obtain ⟨hne, hutf8⟩ := Directive.nameRun_of_name? hname
    have hlogical : logical.nameRun ≠ [] := by
      rw [hrun, hwhole]
      exact List.append_ne_nil_of_left_ne_nil hne _
    obtain ⟨whole, hmem, hwhole'⟩ := Directive.exists_name hlogical
    refine ⟨whole, hmem, ?_⟩
    rw [hutf8, hwhole', hrun, hwhole]
    exact List.prefix_append _ _

/-- Spliced line ends before the name and right behind it leave the name as it is. -/
theorem name_between_splices :
    ∃ d ∈ (scan {} (.ofBytes (utf8 "# \\\n\tdefine\\\n X\\\nY"))).directives,
      d.name? = some "define" ∧ d.name? = { d with text := d.logicalText }.name? := by
  have hd : (⟨1, 4, ⟨0, 18⟩, utf8 " \\\n\tdefine\\\n X\\\nY", false⟩ : Directive) ∈
      (scan {} (.ofBytes (utf8 "# \\\n\tdefine\\\n X\\\nY"))).directives := by
    decide +kernel
  refine ⟨_, hd, by decide +kernel, ?_⟩
  exact (name_eq_logical_iff {} _ hd).2.1.mpr (by decide +kernel)

/-- A name with a spliced line end in it is cut short. -/
theorem name_cut_at_splice :
    ∃ d ∈ (scan {} (.ofBytes (utf8 "#def\\\nine X\n"))).directives,
      d.name? = some "def" ∧ { d with text := d.logicalText }.name? = some "define" := by
  have hd : (⟨1, 2, ⟨0, 12⟩, utf8 "def\\\nine X\n", true⟩ : Directive) ∈
      (scan {} (.ofBytes (utf8 "#def\\\nine X\n"))).directives := by
    decide +kernel
  exact ⟨_, hd, by decide +kernel, by decide +kernel⟩

end Scan

theorem takeNames_eq_ok {role : NameRole} {taken names out : List String}
    (h : takeNames role taken names = .ok out) :
    (∀ name ∈ names, isIdentifier (utf8 name) = true) ∧
      ∀ name, name ∈ out ↔ name ∈ taken ∨ name ∈ names := by
  induction names generalizing taken with
  | nil =>
    obtain rfl := Except.ok.inj h
    simp
  | cons first rest ih =>
    by_cases hfirst : isIdentifier (utf8 first) = true
    · rw [takeNames, if_pos hfirst] at h
      obtain ⟨hall, hmem⟩ := ih h
      refine ⟨List.forall_mem_cons.mpr ⟨hfirst, hall⟩, ?_⟩
      intro name
      rw [hmem, List.mem_cons]
      by_cases hknown : taken.contains first = true
      · rw [if_pos hknown]
        have hin : first ∈ taken := List.contains_iff_mem.mp hknown
        constructor
        · rintro (hin' | hin')
          · exact .inl hin'
          · exact .inr (.inr hin')
        · rintro (hin' | rfl | hin')
          · exact .inl hin'
          · exact .inl hin
          · exact .inr hin'
      · rw [if_neg hknown, List.mem_append, List.mem_singleton, or_assoc]
    · rw [takeNames, if_neg hfirst] at h
      cases h

theorem Filter.directives_of_ofNames {names obsolete : List String} {environment : Option Bytes}
    {filter : Filter} (h : Filter.ofNames names obsolete environment = .ok filter) :
    takeNames .directive [] names = .ok filter.directives := by
  rw [ofNames] at h
  cases hnames : takeNames .directive [] names with
  | error e =>
    rw [hnames] at h
    cases h
  | ok directives =>
    rw [hnames] at h
    dsimp only [bind, Except.bind] at h
    split at h
    · cases h
    · rw [← Except.ok.inj h]

theorem beginsIdentifier_iff {b : UInt8} (hb : Byte.inIdentifier b = true) :
    Byte.beginsIdentifier b = true ↔ Byte.isDigit b = false := by
  constructor
  · intro hbegins
    simp only [Byte.beginsIdentifier, Byte.isLetter, Byte.isDigit, Bool.or_eq_true, Bool.and_eq_true,
      decide_eq_true_eq, beq_iff_eq, Bool.and_eq_false_iff, decide_eq_false_iff_not,
      UInt8.le_iff_toNat_le] at hbegins ⊢
    right
    rcases hbegins with (⟨h, -⟩ | ⟨h, -⟩) | rfl
    · exact Nat.not_le_of_lt (Nat.lt_of_lt_of_le (by decide) h)
    · exact Nat.not_le_of_lt (Nat.lt_of_lt_of_le (by decide) h)
    · decide
  · intro hdigit
    rwa [Byte.inIdentifier, hdigit, Bool.or_false] at hb

namespace Directive

/-- Can a filter be made of directive names that lets this directive through? -/
def Selectable (d : Directive) : Prop :=
  ∃ names filter, names ≠ [] ∧ Filter.ofNames names [] none = .ok filter ∧
    (filter.matches? d).isSome = true

theorem isIdentifier_name_iff {d : Directive} {name : String} (h : d.name? = some name) :
    isIdentifier (utf8 name) = true ↔ (dropIndent d.text).head?.any Byte.isDigit = false := by
  obtain ⟨hne, hutf8⟩ := nameRun_of_name? h
  cases htext : dropIndent d.text with
  | nil => exact absurd (by rw [nameRun, htext]; rfl) hne
  | cons b rest =>
    have hb : Byte.inIdentifier b = true := by
      by_contra hb
      exact hne (by rw [nameRun, htext, List.takeWhile_cons_of_neg hb])
    have hrun : d.nameRun = b :: rest.takeWhile Byte.inIdentifier := by
      rw [nameRun, htext, List.takeWhile_cons_of_pos hb]
    have hrest : (rest.takeWhile Byte.inIdentifier).all Byte.inIdentifier = true :=
      List.all_eq_true.mpr fun c hc => List.mem_takeWhile_imp hc
    rw [hutf8, hrun, isIdentifier, hrest, Bool.and_true]
    exact beginsIdentifier_iff hb

theorem selectable_iff {d : Directive} {name : String} (h : d.name? = some name) :
    d.Selectable ↔ isIdentifier (utf8 name) = true := by
  constructor
  · rintro ⟨names, filter, hnames, hfilter, hmatches⟩
    obtain ⟨hall, hmem⟩ := takeNames_eq_ok (Filter.directives_of_ofNames hfilter)
    simp only [List.not_mem_nil, false_or] at hmem
    have hwants : filter.wants d = true := by
      rw [Filter.matches?] at hmatches
      split at hmatches
      · next hkept => exact hkept.1
      · cases hmatches
    have hlisted : filter.directives.isEmpty = false := by
      obtain ⟨first, hfirst⟩ := List.exists_mem_of_ne_nil names hnames
      rw [List.isEmpty_eq_false_iff_exists_mem]
      exact ⟨first, (hmem first).mpr hfirst⟩
    rw [Filter.wants, hlisted, h, Bool.false_or, Option.any_some, List.contains_iff_mem] at hwants
    exact hall name ((hmem name).mp hwants)
  · intro hname
    refine ⟨[name], ⟨[name], []⟩, List.cons_ne_nil _ _, ?_, ?_⟩
    · simp [Filter.ofNames, takeNames, hname, bind, Except.bind, pure, Except.pure]
    · simp [Filter.matches?, Filter.wants, h]

end Directive

/-- The name of a directive is an identifier, and a filter can ask for it, exactly if no digit stands
behind the indent. -/
theorem name_is_identifier_iff {d : Directive} {name : String} (h : d.name? = some name) :
    (isIdentifier (utf8 name) = true ↔ (dropIndent d.text).head?.any Byte.isDigit = false) ∧
      (d.Selectable ↔ (dropIndent d.text).head?.any Byte.isDigit = false) := by
  have hname := Directive.isIdentifier_name_iff h
  exact ⟨hname, (Directive.selectable_iff h).trans hname⟩

/-- A digit behind the first byte does no harm, nor does a spliced line end before it. -/
theorem name_behind_indent_is_identifier :
    let d : Directive := ⟨1, 2, ⟨0, 9⟩, utf8 "\t\\\n_1x y\n", true⟩
    d.name? = some "_1x" ∧ isIdentifier (utf8 "_1x") = true ∧ d.Selectable := by
  intro d
  have hname : d.name? = some "_1x" := by decide +kernel
  obtain ⟨hidentifier, hselectable⟩ := name_is_identifier_iff hname
  exact ⟨hname, hidentifier.mpr (by decide +kernel), hselectable.mpr (by decide +kernel)⟩

/-- A line marker has its line number for a name. -/
theorem line_marker_name_is_no_identifier :
    ∃ d ∈ (scan {} (.ofBytes (utf8 "# 1 \"a.c\"\n"))).directives,
      d.name? = some "1" ∧ isIdentifier (utf8 "1") = false ∧ ¬ d.Selectable := by
  have hd : (⟨1, 1, ⟨0, 10⟩, utf8 " 1 \"a.c\"\n", true⟩ : Directive) ∈
      (scan {} (.ofBytes (utf8 "# 1 \"a.c\"\n"))).directives := by
    decide +kernel
  have hname : (⟨1, 1, ⟨0, 10⟩, utf8 " 1 \"a.c\"\n", true⟩ : Directive).name? = some "1" := by
    decide +kernel
  refine ⟨_, hd, hname, by decide +kernel, ?_⟩
  rw [Directive.selectable_iff hname]
  decide +kernel

end HashLine
