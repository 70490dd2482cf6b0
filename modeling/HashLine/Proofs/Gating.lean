import Mathlib.Data.List.Forall2
import Mathlib.Data.List.NodupEquivFin
import HashLine.Proofs.Policies
import HashLine.Proofs.Strays

/-! Gating by quotes only ever trims directives. A gated scan passes over a `#` in quotes and may
then start at a later one, on a line that the ungated scan has spliced. The two come together again
at the linefeed that ends both, because wherever the gated scan has a directive open, so has the
other. -/

namespace HashLine

def Directive.SameEnd (d e : Directive) : Prop :=
  d.span.stop = e.span.stop ∧ d.endLine = e.endLine ∧ d.terminated = e.terminated

/-- The first directive is what is left of the second when some of its beginning is cut away. -/
structure Directive.TrimmedFrom (d e : Directive) : Prop where
  sameEnd : d.SameEnd e
  start : e.span.start ≤ d.span.start
  text : d.text <:+ e.text

section

variable {α β : Type} {R : α → β → Prop}

theorem sublistForall₂_filterMap {f : Nat → Option α} {g : Nat → Option β}
    (h : ∀ k a, f k = some a → ∃ b, g k = some b ∧ R a b) (ks : List Nat) :
    List.SublistForall₂ R (ks.filterMap f) (ks.filterMap g) := by
  induction ks with
  | nil => exact .nil
  | cons k ks ih =>
    cases hf : f k with
    | some a =>
      obtain ⟨b, hg, hab⟩ := h k a hf
      rw [List.filterMap_cons_some hf, List.filterMap_cons_some hg]
      exact .cons hab ih
    | none =>
      rw [List.filterMap_cons_none hf]
      cases hg : g k with
      | some b =>
        rw [List.filterMap_cons_some hg]
        exact .cons_right ih
      | none =>
        rw [List.filterMap_cons_none hg]
        exact ih

theorem sublistForall₂_append {xs xs' : List α} {ys ys' : List β}
    (h : List.SublistForall₂ R xs ys) (h' : List.SublistForall₂ R xs' ys') :
    List.SublistForall₂ R (xs ++ xs') (ys ++ ys') := by
  obtain ⟨zs, hr, hs⟩ := List.sublistForall₂_iff.mp h
  obtain ⟨zs', hr', hs'⟩ := List.sublistForall₂_iff.mp h'
  exact List.sublistForall₂_iff.mpr ⟨zs ++ zs', List.rel_append hr hr', hs.append hs'⟩

theorem exists_strictMono_of_sublistForall₂ {xs : List α} {ys : List β}
    (h : List.SublistForall₂ R xs ys) :
    ∃ f : Fin xs.length → Fin ys.length, StrictMono f ∧ ∀ i, R (xs.get i) (ys.get (f i)) := by
  obtain ⟨zs, hr, hs⟩ := List.sublistForall₂_iff.mp h
  obtain ⟨f, hf⟩ := List.sublist_iff_exists_fin_orderEmbedding_get_eq.mp hs
  refine ⟨fun i => f (i.cast hr.length_eq), fun i j hij => f.strictMono hij, ?_⟩
  intro i
  rw [← hf]
  exact hr.get i.2 _

end

namespace Scan

section

variable {s : Bytes}

theorem StartsAt.ungated {gate : Bool} {k : Nat} (h : StartsAt gate s k) : StartsAt false s k :=
  ⟨h.1, h.2.1, by simp⟩

theorem StartsAt.not_ends {gate : Bool} {k : Nat} (h : StartsAt gate s k) : ¬ EndsAt s k := by
  intro he
  exact absurd (h.1.symm.trans he.1) (by decide)

/-- Where the gated course has a directive open, the ungated one has, begun no later. -/
theorem openAt_ungated {i k : Nat} (h : openAt true s k = some i) :
    ∃ j, openAt false s k = some j ∧ j ≤ i := by
  induction k generalizing i with
  | zero => simp [openAt] at h
  | succ k ih =>
    cases hg : openAt true s k with
    | some i' =>
      rw [openAt_succ_of_some hg] at h
      split at h
      · cases h
      · next he =>
        cases h
        obtain ⟨j, hj, hji⟩ := ih hg
        exact ⟨j, by rw [openAt_succ_of_some hj, if_neg he], hji⟩
    | none =>
      rw [openAt_succ_of_none hg] at h
      split at h
      · next hs =>
        cases h
        cases hu : openAt false s k with
        | none => exact ⟨k, by rw [openAt_succ_of_none hu, if_pos hs.ungated], Nat.le_refl _⟩
        | some j =>
          -- This `#` stands in a directive that only the ungated course has open, and ends nothing.
          exact ⟨j, by rw [openAt_succ_of_some hu, if_neg hs.not_ends], (openAt_lt hu).le⟩
      · cases h

theorem trimmedFrom_directiveOf {i j : Nat} (hji : j ≤ i) (stop : Nat) (terminated : Bool) :
    (directiveOf s i stop terminated).TrimmedFrom (directiveOf s j stop terminated) where
  sameEnd := ⟨rfl, rfl, rfl⟩
  start := hji
  text := by
    have hdrop : (s.take stop).drop (i + 1) = ((s.take stop).drop (j + 1)).drop (i - j) := by
      rw [List.drop_drop]
      congr 1
      omega
    simp only [directiveOf]
    rw [hdrop]
    exact List.drop_suffix _ _

theorem endedAt_ungated {k : Nat} {d : Directive} (h : endedAt true s k = some d) :
    ∃ e, endedAt false s k = some e ∧ d.TrimmedFrom e := by
  obtain ⟨i, ho, hd⟩ := Option.bind_eq_some_iff.mp h
  split at hd
  · next he =>
    obtain ⟨j, hj, hji⟩ := openAt_ungated ho
    rw [← Option.some.inj hd]
    exact ⟨_, endedAt_of_ends hj he, trimmedFrom_directiveOf hji _ _⟩
  · cases hd

end

section

variable (policy : ContinuationPolicy) (onEnd : EndPolicy) (s : Bytes)

theorem closing_ungated :
    List.SublistForall₂ Directive.TrimmedFrom
      ((closing ⟨policy, onEnd, true⟩ s).filterMap Delivery.directive?)
      ((closing ⟨policy, onEnd, false⟩ s).filterMap Delivery.directive?) := by
  cases ho : openAt true s s.length with
  | none =>
    simp only [closing, ho]
    exact .nil
  | some i =>
    obtain ⟨j, hj, hji⟩ := openAt_ungated ho
    simp only [closing, ho, hj]
    cases onEnd with
    | flush => exact .cons (trimmedFrom_directiveOf hji _ _) .nil
    | discard => exact .nil

theorem directives_ungated (hc : policy ≠ .strict) :
    List.SublistForall₂ Directive.TrimmedFrom
      (scan ⟨policy, onEnd, true⟩ (.ofBytes s)).directives
      (scan ⟨policy, onEnd, false⟩ (.ofBytes s)).directives := by
  rw [directives_scan_eq_ended hc, directives_scan_eq_ended hc]
  exact sublistForall₂_append (sublistForall₂_filterMap (fun _ _ => endedAt_ungated) _)
    (closing_ungated policy onEnd s)

end

theorem length_directives_closing_le (options : Options) (s : Bytes) :
    ((closing options s).filterMap Delivery.directive?).length ≤ 1 := by
  simp only [closing]
  split
  · simp
  · rw [directives_cutOff]
    cases Region.found? options.onEnd s _ <;> simp

/-- No two directives of a scan end alike. -/
theorem pairwise_not_sameEnd {options : Options} (hc : options.continuations ≠ .strict)
    (s : Bytes) :
    (scan options (.ofBytes s)).directives.Pairwise fun d e => ¬ d.SameEnd e := by
  rw [directives_scan_eq_ended hc, List.pairwise_append]
  refine ⟨?_, ?_, ?_⟩
  · rw [List.pairwise_filterMap]
    refine List.pairwise_lt_range.imp ?_
    intro k l hkl d hd e he hsame
    obtain ⟨i, rfl⟩ := eq_directiveOf_of_endedAt hd
    obtain ⟨j, rfl⟩ := eq_directiveOf_of_endedAt he
    have hstop : k + 1 = l + 1 := hsame.1
    omega
  · exact pairwise_of_length_le_one (length_directives_closing_le options s)
  · intro d hd e he hsame
    obtain ⟨k, -, hd⟩ := List.mem_filterMap.mp hd
    obtain ⟨i, rfl⟩ := eq_directiveOf_of_endedAt hd
    obtain ⟨x, hx, he⟩ := List.mem_filterMap.mp he
    rcases mem_closing hx with ⟨line, span, rfl⟩ | ⟨j, rfl⟩
    · cases he
    · cases he
      exact absurd hsame.2.2 (by simp [directiveOf])

theorem eq_of_sameEnd {options : Options} (hc : options.continuations ≠ .strict) {s : Bytes}
    {d : Directive} {i j : Fin (scan options (.ofBytes s)).directives.length}
    (hi : d.SameEnd ((scan options (.ofBytes s)).directives.get i))
    (hj : d.SameEnd ((scan options (.ofBytes s)).directives.get j)) : i = j := by
  have hpair := List.pairwise_iff_get.mp (pairwise_not_sameEnd hc s)
  have hsame {a b : Directive} (ha : d.SameEnd a) (hb : d.SameEnd b) : a.SameEnd b :=
    ⟨ha.1.symm.trans hb.1, ha.2.1.symm.trans hb.2.1, ha.2.2.symm.trans hb.2.2⟩
  rcases lt_trichotomy i j with hij | hij | hij
  · exact absurd (hsame hi hj) (hpair i j hij)
  · exact hij
  · exact absurd (hsame hj hi) (hpair j i hij)

theorem StrayInside.ungated {s : Bytes} {k : Nat} (h : StrayInside true s k) :
    StrayInside false s k := by
  obtain ⟨i, hi⟩ := Option.isSome_iff_exists.mp h.1
  obtain ⟨j, hj, -⟩ := openAt_ungated hi
  exact ⟨Option.isSome_iff_exists.mpr ⟨j, hj⟩, h.2⟩

theorem strays_lenient (onEnd : EndPolicy) (gate : Bool) (s : Bytes) :
    (scan ⟨.lenient, onEnd, gate⟩ (.ofBytes s)).deliveries.filterMap Delivery.stray? = [] := by
  rw [deliveries_lenient, List.filterMap_eq_nil_iff]
  intro d hd
  exact Option.isNone_iff_eq_none.mp (List.mem_filter.mp hd).2

theorem strays_ungated {policy : ContinuationPolicy} (hc : policy = .lenient ∨ policy = .warn)
    (onEnd : EndPolicy) (s : Bytes) :
    ((scan ⟨policy, onEnd, true⟩ (.ofBytes s)).deliveries.filterMap Delivery.stray?).Sublist
      ((scan ⟨policy, onEnd, false⟩ (.ofBytes s)).deliveries.filterMap Delivery.stray?) := by
  rcases hc with rfl | rfl
  · rw [strays_lenient]
    exact List.nil_sublist _
  · rw [strays_scan_ofBytes rfl, strays_scan_ofBytes rfl]
    refine (List.monotone_filter_right _ ?_).map _
    intro k hk
    exact decide_eq_true (of_decide_eq_true hk).ungated

/-- A gated scan finds the directives of the ungated one, each in its place among them, less some of
them and less some of their beginnings. -/
theorem gated_scan_trims {policy : ContinuationPolicy} (hc : policy = .lenient ∨ policy = .warn)
    (onEnd : EndPolicy) (s : Bytes) :
    let gated := scan ⟨policy, onEnd, true⟩ (.ofBytes s)
    let ungated := scan ⟨policy, onEnd, false⟩ (.ofBytes s)
    (∃ f : Fin gated.directives.length → Fin ungated.directives.length, StrictMono f ∧
      ∀ i, (gated.directives.get i).TrimmedFrom (ungated.directives.get (f i)) ∧
        ∀ j, (gated.directives.get i).SameEnd (ungated.directives.get j) → j = f i) ∧
      (gated.deliveries.filterMap Delivery.stray?).Sublist
        (ungated.deliveries.filterMap Delivery.stray?) ∧
      ∃ g u, gated.outcome = .ok g ∧ ungated.outcome = .ok u ∧
        (g.unterminated = true → u.unterminated = true) ∧ g.lines = u.lines ∧
        g.quotes = u.quotes := by
  intro gated ungated
  have hns : policy ≠ .strict := by
    rcases hc with rfl | rfl <;> simp
  refine ⟨?_, strays_ungated hc onEnd s, ?_⟩
  · obtain ⟨f, hmono, hf⟩ :=
      exists_strictMono_of_sublistForall₂ (directives_ungated policy onEnd s hns)
    refine ⟨f, hmono, fun i => ⟨hf i, ?_⟩⟩
    intro j hj
    exact eq_of_sameEnd hns hj (hf i).sameEnd
  · refine ⟨_, _, outcome_scan_ofBytes hns s, outcome_scan_ofBytes hns s, ?_, rfl, rfl⟩
    intro hopen
    obtain ⟨i, hi⟩ := Option.isSome_iff_exists.mp hopen
    obtain ⟨j, hj, -⟩ := openAt_ungated hi
    exact Option.isSome_iff_exists.mpr ⟨j, hj⟩

/-- The second `#` starts a directive of its own only because the first one stands in quotes. -/
theorem gated_scan_trims_spliced_line :
    let s := utf8 "'\n#a'\\\n#b\n#c"
    let gated := (scan ⟨.warn, .flush, true⟩ (.ofBytes s)).directives
    let ungated := (scan ⟨.warn, .flush, false⟩ (.ofBytes s)).directives
    let d : Directive := ⟨3, 3, ⟨7, 10⟩, utf8 "b\n", true⟩
    d ∈ gated ∧ d ∉ ungated ∧ ∃ e ∈ ungated, d.TrimmedFrom e := by
  intro s gated ungated d
  have hd : d ∈ gated := by decide +kernel
  obtain ⟨i, hi⟩ := List.mem_iff_get.mp hd
  obtain ⟨⟨f, -, hf⟩, -⟩ := gated_scan_trims (.inr rfl) .flush s
  have htrim := (hf i).1
  refine ⟨hd, by decide +kernel, ungated.get (f i), List.get_mem _ _, ?_⟩
  rw [← hi]
  exact htrim

end Scan

end HashLine
