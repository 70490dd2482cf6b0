import Mathlib.Data.List.Basic
import HashLine.Report

/-! A filter at work while a scan goes on. Each delivery is handed over as it comes, and a directive is
kept or dropped at once; the report is the one that filtering the collected directives gives. -/

namespace HashLine

namespace Scan

/-- Scan on from a state, handing each delivery to a receiver as it comes. -/
def handOver {σ : Type} (options : Options) (receive : σ → Delivery → σ) (st : State) (held : σ) :
    σ × Except Failure Summary :=
  match _h : st.round options with
  | .failed failure => (held, .error failure)
  | .finished events summary => ((events.filterMap Event.delivery?).foldl receive held, .ok summary)
  | .moved st' events =>
    handOver options receive st' ((events.filterMap Event.delivery?).foldl receive held)
termination_by st.cursor.unread
decreasing_by exact State.unread_of_round _h

theorem handOver_eq {σ : Type} (options : Options) (receive : σ → Delivery → σ) (st : State)
    (held : σ) :
    handOver options receive st held =
      ((resume options st []).deliveries.foldl receive held, (resume options st []).outcome) := by
  fun_induction handOver options receive st held with
  | case1 st held failure h => simp [resume_of_failed h, Run.deliveries]
  | case2 st held events summary h => simp [resume_of_finished h, Run.deliveries]
  | case3 st held st' events h ih =>
    have hrest := resume_append options st' [] events.reverse
    rw [List.nil_append] at hrest
    rw [ih, resume_of_moved h, List.append_nil, hrest]
    simp [Run.deliveries]

end Scan

structure Sieve where
  findings : List Finding := []
  warnings : List Warning := []

def Sieve.receive (filter : Filter) (held : Sieve) : Delivery → Sieve
  | .directive d =>
    match filter.matches? d with
    | some matched => { held with findings := held.findings ++ [⟨d, matched⟩] }
    | none => held
  | .warning w => { held with warnings := held.warnings ++ [w] }

def Collected.receive (held : Collected) : Delivery → Collected
  | .directive d => { held with directives := held.directives ++ [d] }
  | .warning w => { held with warnings := held.warnings ++ [w] }

theorem Sieve.foldl_receive (filter : Filter) (deliveries : List Delivery) (held : Sieve) :
    deliveries.foldl (receive filter) held =
      ⟨held.findings ++ (deliveries.filterMap Delivery.directive?).filterMap filter.finding?,
        held.warnings ++ deliveries.filterMap Delivery.warning?⟩ := by
  induction deliveries generalizing held with
  | nil => simp
  | cons delivery rest ih =>
    rw [List.foldl_cons, ih]
    cases delivery with
    | directive d =>
      cases hm : filter.matches? d with
      | none =>
        simp [receive, Filter.finding?, Delivery.directive?, Delivery.warning?, List.filterMap_cons, hm]
      | some matched =>
        simp [receive, Filter.finding?, Delivery.directive?, Delivery.warning?, List.filterMap_cons, hm]
    | warning w => simp [receive, Delivery.directive?, Delivery.warning?, List.filterMap_cons]

theorem Collected.foldl_receive (deliveries : List Delivery) (held : Collected) :
    deliveries.foldl receive held =
      ⟨held.directives ++ deliveries.filterMap Delivery.directive?,
        held.warnings ++ deliveries.filterMap Delivery.warning?⟩ := by
  induction deliveries generalizing held with
  | nil => simp
  | cons delivery rest ih =>
    rw [List.foldl_cons, ih]
    cases delivery with
    | directive d => simp [receive, Delivery.directive?, Delivery.warning?, List.filterMap_cons]
    | warning w => simp [receive, Delivery.directive?, Delivery.warning?, List.filterMap_cons]

def Report.streamed (options : Options) (filter : Filter) (source : Source) :
    Except Failure Report :=
  let (held, outcome) := Scan.handOver options (Sieve.receive filter) (.start source) {}
  outcome.map fun summary => ⟨held.findings, held.warnings, summary⟩

def Collected.streamed (options : Options) (source : Source) : Except Failure Collected :=
  let (held, outcome) := Scan.handOver options Collected.receive (.start source) ⟨[], []⟩
  outcome.map fun _ => held

theorem Report.streamed_eq_ofSource (options : Options) (filter : Filter) (source : Source) :
    streamed options filter source = ofSource options filter source := by
  simp only [streamed, Scan.handOver_eq]
  rw [Sieve.foldl_receive]
  rfl

theorem Collected.streamed_eq_collected (options : Options) (source : Source) :
    streamed options source = (scan options source).collected := by
  simp only [streamed, Scan.handOver_eq]
  rw [Collected.foldl_receive]
  rfl

namespace Filter

/-- Is this one of the directives asked for, with one of the identifiers asked for in it? A list that is
empty asks for nothing in particular. -/
def Keeps (f : Filter) (d : Directive) : Prop :=
  (f.directives = [] ∨ ∃ name ∈ f.directives, d.name? = some name) ∧
    (f.obsolete = [] ∨ ∃ word ∈ f.obsolete, d.mentions word = true)

instance (f : Filter) (d : Directive) : Decidable (f.Keeps d) :=
  inferInstanceAs (Decidable (_ ∧ _))

/-- Names are added to lists that are not empty. -/
structure Widens (f g : Filter) : Prop where
  directives : f.directives ⊆ g.directives
  obsolete : f.obsolete ⊆ g.obsolete
  unnamed : f.directives = [] → g.directives = []
  unlisted : f.obsolete = [] → g.obsolete = []

theorem wants_iff (f : Filter) (d : Directive) :
    f.wants d = true ↔ f.directives = [] ∨ ∃ name ∈ f.directives, d.name? = some name := by
  cases hn : d.name? with
  | none => simp [wants, hn]
  | some name => simp [wants, hn]

theorem mentioned_ne_nil_iff (f : Filter) (d : Directive) :
    f.mentioned d ≠ [] ↔ ∃ word ∈ f.obsolete, d.mentions word = true := by
  simp [mentioned]

theorem finding?_eq (f : Filter) (d : Directive) :
    f.finding? d = if f.Keeps d then some ⟨d, f.mentioned d⟩ else none := by
  have hkeeps : (f.wants d = true ∧ (f.obsolete.isEmpty = true ∨ ¬ (f.mentioned d).isEmpty = true)) ↔
      f.Keeps d := by
    rw [wants_iff, List.isEmpty_iff, List.isEmpty_iff, ← ne_eq, mentioned_ne_nil_iff]
    exact Iff.rfl
  simp only [finding?, matches?, hkeeps]
  split <;> rfl

theorem filterMap_finding? (f : Filter) (ds : List Directive) :
    ds.filterMap f.finding? = (ds.filter (f.Keeps ·)).map fun d => ⟨d, f.mentioned d⟩ := by
  induction ds with
  | nil => rfl
  | cons d rest ih =>
    rw [List.filterMap_cons, finding?_eq, ih]
    by_cases hd : f.Keeps d
    · simp [hd]
    · simp [hd]

theorem Widens.keeps {f g : Filter} (h : f.Widens g) {d : Directive} (hd : f.Keeps d) :
    g.Keeps d := by
  obtain ⟨hname, hword⟩ := hd
  constructor
  · rcases hname with hnone | ⟨name, hmem, hname⟩
    · exact .inl (h.unnamed hnone)
    · exact .inr ⟨name, h.directives hmem, hname⟩
  · rcases hword with hnone | ⟨word, hmem, hword⟩
    · exact .inl (h.unlisted hnone)
    · exact .inr ⟨word, h.obsolete hmem, hword⟩

theorem Widens.filter_sublist {f g : Filter} (h : f.Widens g) (ds : List Directive) :
    (ds.filter (f.Keeps ·)).Sublist (ds.filter (g.Keeps ·)) := by
  apply List.monotone_filter_right
  intro d hd
  exact decide_eq_true (h.keeps (of_decide_eq_true hd))

end Filter

structure Report.SiftedFrom (filter : Filter) (all : Collected) (r : Report) : Prop where
  findings : r.findings = (all.directives.filter (filter.Keeps ·)).map fun d =>
    ⟨d, filter.obsolete.filter d.mentions⟩
  warnings : r.warnings = all.warnings
  hasObsolete : r.hasObsolete = true ↔ filter.obsolete ≠ [] ∧ r.findings ≠ []

theorem Report.hasObsolete_iff {filter : Filter} {ds : List Directive} {r : Report}
    (h : r.findings = (ds.filter (filter.Keeps ·)).map fun d => ⟨d, filter.mentioned d⟩) :
    r.hasObsolete = true ↔ filter.obsolete ≠ [] ∧ r.findings ≠ [] := by
  simp only [hasObsolete, List.any_eq_true, Bool.not_eq_true', List.isEmpty_eq_false_iff]
  rw [h]
  constructor
  · rintro ⟨finding, hfinding, hmatched⟩
    obtain ⟨d, -, rfl⟩ := List.mem_map.mp hfinding
    obtain ⟨word, hword, -⟩ := (filter.mentioned_ne_nil_iff d).mp hmatched
    exact ⟨List.ne_nil_of_mem hword, List.ne_nil_of_mem hfinding⟩
  · rintro ⟨hlisted, hfound⟩
    obtain ⟨finding, hfinding⟩ := List.exists_mem_of_ne_nil _ hfound
    obtain ⟨d, hd, rfl⟩ := List.mem_map.mp hfinding
    have hkept : filter.Keeps d := of_decide_eq_true (List.mem_filter.mp hd).2
    -- What is listed cannot be passed over, so a directive is kept for a word in it.
    exact ⟨_, hfinding, (filter.mentioned_ne_nil_iff d).mpr (hkept.2.resolve_left hlisted)⟩

theorem Report.siftedFrom {filter : Filter} {run : Run} {r : Report} (h : ofRun filter run = .ok r) :
    r.SiftedFrom filter ⟨run.directives, run.warnings⟩ ∧ run.outcome = .ok r.summary := by
  cases ho : run.outcome with
  | error failure =>
    rw [ofRun, ho] at h
    cases h
  | ok summary =>
    rw [ofRun, ho] at h
    obtain rfl := Except.ok.inj h
    have hfindings := filter.filterMap_finding? run.directives
    exact ⟨⟨hfindings, rfl, hasObsolete_iff hfindings⟩, rfl⟩

theorem Report.SiftedFrom.map_directive {filter : Filter} {all : Collected} {r : Report}
    (h : r.SiftedFrom filter all) :
    r.findings.map Finding.directive = all.directives.filter (filter.Keeps ·) := by
  rw [h.findings, List.map_map]
  exact List.map_id' _

/-- Filtering while the scan runs is filtering afterwards. A report fails as the scan does; else its
findings are the collected directives that the filter keeps, its warnings and summary do not depend on
the filter, and a name more in a list of some names loses no directive. -/
theorem streamed_report_eq_filtered (options : Options) (source : Source) :
    Collected.streamed options source = (scan options source).collected ∧
      (∀ filter, Report.streamed options filter source = Report.ofSource options filter source) ∧
      (∀ filter failure, Report.ofSource options filter source = .error failure ↔
        (scan options source).collected = .error failure) ∧
      ∀ all, (scan options source).collected = .ok all →
        ∃ summary, ∀ filter, ∃ r, Report.ofSource options filter source = .ok r ∧
          r.SiftedFrom filter all ∧ r.summary = summary ∧
          ∀ wider r', filter.Widens wider → Report.ofSource options wider source = .ok r' →
            (r.findings.map Finding.directive).Sublist (r'.findings.map Finding.directive) := by
  refine ⟨Collected.streamed_eq_collected options source,
    fun filter => Report.streamed_eq_ofSource options filter source, ?_, ?_⟩
  · intro filter failure
    simp only [Report.ofSource, Report.ofRun, Run.collected]
    cases (scan options source).outcome with
    | error failure' => simp [Except.map]
    | ok summary => simp [Except.map]
  · intro all hall
    cases ho : (scan options source).outcome with
    | error failure =>
      rw [Run.collected, ho] at hall
      cases hall
    | ok summary =>
      rw [Run.collected, ho] at hall
      obtain rfl := Except.ok.inj hall
      refine ⟨summary, fun filter => ?_⟩
      obtain ⟨r, hr⟩ : ∃ r, Report.ofSource options filter source = .ok r := by
        rw [Report.ofSource, Report.ofRun, ho]
        exact ⟨_, rfl⟩
      obtain ⟨hsifted, hsummary⟩ := Report.siftedFrom hr
      rw [ho] at hsummary
      refine ⟨r, hr, hsifted, (Except.ok.inj hsummary).symm, ?_⟩
      intro wider r' hwider hr'
      obtain ⟨hsifted', -⟩ := Report.siftedFrom hr'
      rw [hsifted.map_directive, hsifted'.map_directive]
      exact hwider.filter_sublist _

/-- Both lists get a name more, and two directives more are found, one on either side of the first
filter's lists. -/
theorem streamed_report_of_wider_filter :
    let options : Options := { continuations := .warn }
    let source : Source := .ofBytes (utf8 "#undef OLD\n#define OLD \\ \n#if OLD\n#define NEW")
    let narrow : Filter := ⟨["define"], ["OLD"]⟩
    let wide : Filter := ⟨["undef", "define"], ["OLD", "NEW"]⟩
    ∃ r r', Report.ofSource options narrow source = .ok r ∧
      Report.ofSource options wide source = .ok r' ∧
      r.findings.map (fun f => (f.directive.line, f.matched)) = [(2, ["OLD"])] ∧
      r'.findings.map (fun f => (f.directive.line, f.matched)) =
        [(1, ["OLD"]), (2, ["OLD"]), (4, ["NEW"])] ∧
      (r.findings.map Finding.directive).Sublist (r'.findings.map Finding.directive) ∧
      r.hasObsolete = true ∧ r'.warnings = r.warnings ∧ r.warnings.length = 2 := by
  intro options source narrow wide
  let all : Collected :=
    { directives :=
        [⟨1, 1, ⟨0, 11⟩, utf8 "undef OLD\n", true⟩, ⟨2, 2, ⟨11, 26⟩, utf8 "define OLD \\ \n", true⟩,
          ⟨3, 3, ⟨26, 34⟩, utf8 "if OLD\n", true⟩, ⟨4, 4, ⟨34, 45⟩, utf8 "define NEW", false⟩]
      warnings := [.stray ⟨2, ⟨23, 24⟩, some Byte.space⟩, .unterminated 4 ⟨34, 45⟩] }
  have hall : (scan options source).collected = .ok all := by decide +kernel
  have hwiden : narrow.Widens wide := ⟨by decide, by decide, by decide, by decide⟩
  obtain ⟨-, -, -, hsift⟩ := streamed_report_eq_filtered options source
  obtain ⟨summary, hreport⟩ := hsift all hall
  obtain ⟨r, hr, hsifted, -, hwider⟩ := hreport narrow
  obtain ⟨r', hr', hsifted', -, -⟩ := hreport wide
  have hfound := hsifted.findings
  have hfound' := hsifted'.findings
  refine ⟨r, r', hr, hr', ?_, ?_, hwider wide r' hwiden hr', ?_, ?_, ?_⟩
  · rw [hfound]
    decide +kernel
  · rw [hfound']
    decide +kernel
  · apply hsifted.hasObsolete.mpr
    rw [hfound]
    decide +kernel
  · rw [hsifted.warnings, hsifted'.warnings]
  · rw [hsifted.warnings]
    rfl

end HashLine
