import HashLine.Proofs.Delimiting
import HashLine.Proofs.Gating
import HashLine.Proofs.Splicing
import HashLine.Report.Render

/-! Directives written out as source and scanned again. The linefeed that closes one which was cut off
may become part of a spliced line end, but it changes neither the name of the directive nor the words
in it, so a filter lets the same directives through and they are written out the same. -/

namespace HashLine

section

variable {word : Bytes} {c : UInt8}

theorem standsAlone_concat (hw : ∀ b ∈ word, Byte.inIdentifier b = true)
    (hc : Byte.inIdentifier c = false) (before : Option UInt8) (bytes : Bytes) :
    standsAlone word before (bytes ++ [c]) = standsAlone word before bytes := by
  have hnot : word ≠ bytes ++ [c] := by
    rintro rfl
    have hin := hw c (by simp)
    rw [hc] at hin
    cases hin
  have hprefix : word.isPrefixOf (bytes ++ [c]) = word.isPrefixOf bytes := by
    rw [Bool.eq_iff_iff, List.isPrefixOf_iff_prefix, List.isPrefixOf_iff_prefix,
      List.prefix_concat_iff, or_iff_right hnot]
  by_cases hp : word <+: bytes
  · have hnext : ((bytes ++ [c]).drop word.length).head?.any Byte.inIdentifier =
        (bytes.drop word.length).head?.any Byte.inIdentifier := by
      rw [List.drop_append_of_le_length hp.length_le]
      cases bytes.drop word.length with
      | nil => simp [hc]
      | cons b rest => rfl
    simp only [standsAlone, hprefix, hnext]
  · have hno : word.isPrefixOf bytes = false := by
      rw [Bool.eq_false_iff, ne_eq, List.isPrefixOf_iff_prefix]
      exact hp
    simp only [standsAlone, hprefix, hno, Bool.false_and]

theorem findWordFrom_concat (hne : word ≠ []) (hw : ∀ b ∈ word, Byte.inIdentifier b = true)
    (hc : Byte.inIdentifier c = false) (offset : Nat) (before : Option UInt8) (bytes : Bytes) :
    findWordFrom word offset before (bytes ++ [c]) = findWordFrom word offset before bytes := by
  induction bytes generalizing offset before with
  | nil =>
    have hempty : standsAlone word before [c] = false := by
      have h := standsAlone_concat hw hc before []
      rw [List.nil_append] at h
      rw [h]
      cases word with
      | nil => exact absurd rfl hne
      | cons b rest => rfl
    simp [findWordFrom, hempty]
  | cons b rest ih =>
    have h := standsAlone_concat hw hc before (b :: rest)
    rw [List.cons_append] at h ⊢
    rw [findWordFrom, findWordFrom, h, ih]

/-- A byte that is in no identifier hides no word before it and completes none. -/
theorem findWord_concat (hw : isIdentifier word = true) (hc : Byte.inIdentifier c = false)
    (bytes : Bytes) : findWord (bytes ++ [c]) word = findWord bytes word := by
  obtain ⟨hne, hall⟩ := inIdentifier_of_isIdentifier hw
  have hnonempty : ¬ word.isEmpty = true := by simpa using hne
  rw [findWord, findWord, if_neg hnonempty, if_neg hnonempty]
  exact findWordFrom_concat hne hall hc 0 none bytes

end

/-- A linefeed behind a text is kept by the splicing, or takes a backslash away with it. -/
theorem splice_concat (t : Bytes) :
    splice (t ++ [Byte.linefeed]) = splice t ++ [Byte.linefeed] ∨
      splice t = splice (t ++ [Byte.linefeed]) ++ [Byte.backslash] := by
  by_cases hlast : t.getLast? = some Byte.backslash
  · obtain ⟨init, rfl⟩ := List.getLast?_eq_some_iff.mp hlast
    have hpair : splice (init ++ [Byte.backslash, Byte.linefeed]) = splice init := by
      rw [splice_append fun _ => by decide]
      exact List.append_nil _
    right
    rw [List.append_assoc, splice_append fun _ => by decide]
    exact congrArg (· ++ _) hpair.symm
  · left
    rw [splice_append fun hb => absurd hb hlast]
    rfl

theorem takeWhile_inIdentifier_concat {c : UInt8} (hc : Byte.inIdentifier c = false) (t : Bytes) :
    (t ++ [c]).takeWhile Byte.inIdentifier = t.takeWhile Byte.inIdentifier := by
  induction t with
  | nil => simp [hc]
  | cons b t ih => cases hb : Byte.inIdentifier b <;> simp [hb, ih]

theorem takeWhile_dropIndent_concat (t : Bytes) :
    (dropIndent (t ++ [Byte.linefeed])).takeWhile Byte.inIdentifier =
      (dropIndent t).takeWhile Byte.inIdentifier := by
  fun_induction dropIndent t with
  | case1 rest ih => exact ih
  | case2 rest ih => exact ih
  | case3 rest ih => exact ih
  | case4 bytes hspace htab hsplice =>
    by_cases hlast : bytes = [Byte.backslash]
    · subst hlast
      decide
    · have hkeep : dropIndent (bytes ++ [Byte.linefeed]) = bytes ++ [Byte.linefeed] := by
        refine dropIndent.eq_4 _ ?_ ?_ ?_
        · intro rest h
          cases bytes with
          | nil => cases h
          | cons b more => exact hspace more (by rw [(List.cons.inj h).1])
        · intro rest h
          cases bytes with
          | nil => cases h
          | cons b more => exact htab more (by rw [(List.cons.inj h).1])
        · intro rest h
          match bytes with
          | [] => cases h
          | [b] => exact hlast (congrArg (fun b => [b]) (List.cons.inj h).1)
          | b :: b' :: more =>
            obtain ⟨rfl, htail⟩ := List.cons.inj h
            exact hsplice more (by rw [(List.cons.inj htail).1])
      rw [hkeep, takeWhile_inIdentifier_concat (by decide)]

namespace Directive

/-- The first directive is what a scan makes of the second once that is written out. -/
def Reprints (e d : Directive) : Prop :=
  Byte.hash :: e.text = d.source

section

variable {e d : Directive} (h : Reprints e d)

include h

theorem Reprints.source_eq : e.source = d.source := by
  have hlast : (Byte.hash :: e.text).getLast? = some Byte.linefeed := by
    rw [h]
    exact d.getLast?_source
  rw [source_of_linefeed hlast, h]

theorem Reprints.text_eq : e.text = d.text ∨ e.text = d.text ++ [Byte.linefeed] := by
  by_cases hlast : (Byte.hash :: d.text).getLast? = some Byte.linefeed
  · left
    rw [Reprints, source_of_linefeed hlast] at h
    exact (List.cons.inj h).2
  · right
    rw [Reprints, source_of_no_linefeed hlast] at h
    exact (List.cons.inj h).2

theorem Reprints.name?_eq : e.name? = d.name? := by
  rcases h.text_eq with ht | ht
  · simp only [name?, ht]
  · simp only [name?, ht, takeWhile_dropIndent_concat]

theorem Reprints.mentions_eq {word : String} (hw : isIdentifier (utf8 word) = true) :
    e.mentions word = d.mentions word := by
  simp only [mentions, logicalText_eq_splice]
  rcases h.text_eq with ht | ht
  · rw [ht]
  · rw [ht]
    rcases splice_concat d.text with hs | hs
    · rw [hs, findWord_concat hw (by decide)]
    · rw [hs, findWord_concat hw (by decide)]

end

end Directive

theorem Filter.matches?_of_reprints {filter : Filter} {e d : Directive} (h : e.Reprints d)
    (hf : ∀ word ∈ filter.obsolete, isIdentifier (utf8 word) = true) :
    filter.matches? e = filter.matches? d := by
  have hmentioned : filter.mentioned e = filter.mentioned d :=
    List.filter_congr fun word hword => h.mentions_eq (hf word hword)
  have hwants : filter.wants e = filter.wants d := by
    rw [wants, wants, h.name?_eq]
  simp only [matches?, hwants, hmentioned]

theorem Filter.map_directive_findings (filter : Filter) (ds : List Directive) :
    (ds.filterMap filter.finding?).map Finding.directive =
      ds.filter fun d => (filter.matches? d).isSome := by
  induction ds with
  | nil => rfl
  | cons d ds ih =>
    cases hm : filter.matches? d with
    | none =>
      have hfinding : filter.finding? d = none := by rw [finding?, hm]; rfl
      rw [List.filterMap_cons_none hfinding, List.filter_cons_of_neg (by simp [hm]), ih]
    | some matched =>
      have hfinding : filter.finding? d = some ⟨d, matched⟩ := by rw [finding?, hm]; rfl
      rw [List.filterMap_cons_some hfinding, List.filter_cons_of_pos (by simp [hm]), List.map_cons, ih]

theorem Report.source_eq (r : Report) :
    r.source = (r.findings.map Finding.directive).flatMap Directive.source := by
  rw [source, List.flatMap_map]

namespace Scan

/-- What is written out before something else can be scanned again. -/
theorem reprints_flatMap_source {ds : List Directive}
    (hall : ∀ d ∈ ds, Whole d.source ∨ Unended d.source)
    (hfirst : ds.Pairwise fun d _ => Whole d.source) :
    List.Forall₂ Directive.Reprints
      (scan {} (.ofBytes (ds.flatMap Directive.source))).directives ds := by
  induction ds with
  | nil =>
    have hnone : (scan {} (.ofBytes [])).directives = [] := by
      rw [directives_eq_found, regions, show 0 = ([] : Bytes).length from rfl, regionsFrom_length]
      rfl
    rw [List.flatMap_nil, hnone]
    exact .nil
  | cons d ds ih =>
    obtain ⟨hd, hds⟩ := List.pairwise_cons.mp hfirst
    have hrest := ih (fun e he => hall e (List.mem_cons_of_mem _ he)) hds
    rw [List.flatMap_cons]
    rcases hall d List.mem_cons_self with hw | hu
    · rw [hw.directives_append]
      refine .cons (written_directiveOf hw.hash true) ?_
      rw [List.forall₂_map_left_iff]
      exact hrest
    · -- Nothing follows a directive that does not end itself.
      obtain rfl : ds = [] := by
        rw [List.eq_nil_iff_forall_not_mem]
        intro e he
        have hw := hd e he
        exact hu.endless _ ((hw.ends _).mpr (Nat.sub_add_cancel hw.length_pos))
      rw [List.flatMap_nil, List.append_nil, hu.directives]
      exact .cons (written_directiveOf hu.hash false) .nil

theorem flatMap_source_of_reprints {filter : Filter} {es ds : List Directive}
    (h : List.Forall₂ Directive.Reprints es ds)
    (hf : ∀ word ∈ filter.obsolete, isIdentifier (utf8 word) = true)
    (hall : ∀ d ∈ ds, (filter.matches? d).isSome = true) :
    (es.filter fun e => (filter.matches? e).isSome).flatMap Directive.source =
      ds.flatMap Directive.source := by
  induction h with
  | nil => rfl
  | @cons e d es ds hed hrest ih =>
    have hmatch : (filter.matches? e).isSome = true := by
      rw [Filter.matches?_of_reprints hed hf]
      exact hall d List.mem_cons_self
    have hi := ih fun d hd => hall d (List.mem_cons_of_mem _ hd)
    rw [List.filter_cons, if_pos hmatch, List.flatMap_cons, List.flatMap_cons, hed.source_eq, hi]

/-- Only the last directive of a scan can be cut off. -/
theorem pairwise_terminated (options : Options) (s : Bytes) :
    (scan options (.ofBytes s)).directives.Pairwise fun d _ => d.terminated = true := by
  have hloose (options : Options) (hc : options.continuations ≠ .strict) :
      (scan options (.ofBytes s)).directives.Pairwise fun d _ => d.terminated = true := by
    have hended : ∀ d ∈ (List.range s.length).filterMap (endedAt options.gateQuotes s),
        d.terminated = true := by
      intro d hd
      obtain ⟨k, -, hd⟩ := List.mem_filterMap.mp hd
      obtain ⟨i, rfl⟩ := eq_directiveOf_of_endedAt hd
      rfl
    rw [directives_scan_eq_ended hc, List.pairwise_append]
    refine ⟨List.pairwise_of_forall_mem_list fun d hd _ _ => hended d hd, ?_,
      fun d hd _ _ => hended d hd⟩
    exact pairwise_of_length_le_one (length_directives_closing_le options s)
  by_cases hc : options.continuations = .strict
  · have hsub : (scan options (.ofBytes s)).directives.Sublist
        (scan (warning options) (.ofBytes s)).directives := by
      have hd := deliveries_strictly options (.ofBytes s)
      rw [strictly_eq_self hc] at hd
      rw [Run.directives, hd]
      exact (List.takeWhile_sublist _).filterMap _
    exact (hloose (warning options) (warning_not_strict options)).sublist hsub
  · exact hloose options hc

/-- Only the last of the directives found does not end itself, if any does not. -/
theorem written_sources (options : Options) (s : Bytes) {ds : List Directive}
    (hsub : ds.Sublist (scan options (.ofBytes s)).directives) :
    (∀ d ∈ ds, Whole d.source ∨ Unended d.source) ∧ ds.Pairwise fun d _ => Whole d.source := by
  have hdelivers (d : Directive) (hd : d ∈ ds) := delivers_directive options _ (hsub.subset hd)
  constructor
  · intro d hd
    by_cases he : d.EndsItself
    · exact .inl ((hdelivers d hd).whole_source he)
    · exact .inr ((hdelivers d hd).unended_source he)
  · have hterminated := (pairwise_terminated options s).sublist hsub
    exact hterminated.imp_of_mem fun hd _ ht => (hdelivers _ hd).whole_source (.inl ht)

theorem map_written_of_reprints {es ds : List Directive}
    (h : List.Forall₂ Directive.Reprints es ds) :
    es.map (fun e => Byte.hash :: e.text) = ds.map Directive.source := by
  rw [← List.forall₂_eq_eq_eq, List.forall₂_map_left_iff, List.forall₂_map_right_iff]
  exact h

/-- A report written out as source is scanned as the directives in it, and with the same filter it is
written out the same again. -/
theorem reprinted_source_is_fixed {options : Options} {filter : Filter} {s : Bytes} {r : Report}
    (hf : ∀ word ∈ filter.obsolete, isIdentifier (utf8 word) = true)
    (hr : Report.ofSource options filter (.ofBytes s) = .ok r) (file : String)
    (source : Option Bytes) :
    let out := r.render .source file source
    (∃ found, directivesIn out = .ok found ∧
        found.map (fun d => Byte.hash :: d.text) = r.findings.map (·.directive.source)) ∧
      ∃ again, Report.ofSource {} filter (.ofBytes out) = .ok again ∧
        ∀ file source, again.render .source file source = out := by
  intro out
  obtain ⟨summary, -, rfl⟩ := Report.ofSource_eq_ok.mp hr
  let ds := (scan options (.ofBytes s)).directives.filter fun d => (filter.matches? d).isSome
  have hfindings : ((scan options (.ofBytes s)).directives.filterMap filter.finding?).map
      Finding.directive = ds := filter.map_directive_findings _
  have hout : out = ds.flatMap Directive.source := by
    change Report.source _ = _
    rw [Report.source_eq, hfindings]
  have hsub : ds.Sublist (scan options (.ofBytes s)).directives := List.filter_sublist
  obtain ⟨hall, hfirst⟩ := written_sources options s hsub
  have hagain := reprints_flatMap_source hall hfirst
  constructor
  · refine ⟨_, directivesIn_eq out, ?_⟩
    rw [hout, map_written_of_reprints hagain, ← hfindings, List.map_map]
    rfl
  · have ho := outcome_scan_ofBytes (show ({} : Options).continuations ≠ .strict by decide) out
    refine ⟨_, Report.ofSource_eq_ok.mpr ⟨_, ho, rfl⟩, fun _ _ => ?_⟩
    change Report.source _ = _
    rw [Report.source_eq, filter.map_directive_findings, hout]
    exact flatMap_source_of_reprints hagain hf fun d hd => (List.mem_filter.mp hd).2

/-- A spliced directive, one left out, and one that its input cuts off behind a backslash. -/
theorem reprinted_source_last_backslash :
    let filter : Filter := ⟨["define", "if"], ["A"]⟩
    let out := utf8 "#define A\\\n B\n#if A\\\n"
    (∃ found, directivesIn out = .ok found ∧
        found.map (fun d => Byte.hash :: d.text) = [utf8 "#define A\\\n B\n", utf8 "#if A\\\n"]) ∧
      ∃ again, Report.ofSource {} filter (.ofBytes out) = .ok again ∧
        ∀ file source, again.render .source file source = out := by
  have hr : Report.ofSource ⟨.warn, .flush, true⟩ ⟨["define", "if"], ["A"]⟩
      (.ofBytes (utf8 "int x;\n #define A\\\n B\n#undef A\n#if A\\")) =
        .ok ⟨[⟨⟨2, 3, ⟨8, 22⟩, utf8 "define A\\\n B\n", true⟩, ["A"]⟩,
          ⟨⟨5, 5, ⟨31, 37⟩, utf8 "if A\\", false⟩, ["A"]⟩],
          [.stray ⟨5, ⟨36, 37⟩, none⟩, .unterminated 5 ⟨31, 37⟩], ⟨5, 3, 1, true, .unquoted⟩⟩ := by
    decide +kernel
  exact reprinted_source_is_fixed (by decide +kernel) hr "" none

end Scan

end HashLine
