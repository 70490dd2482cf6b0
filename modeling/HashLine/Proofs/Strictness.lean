import HashLine.Proofs.Following

/-! A strict scan is a warning one that stops at its first stray backslash. The two stay in the same
state until then, whatever the source. -/

namespace HashLine

def Delivery.stray? : Delivery → Option StrayBackslash
  | warning (.stray b) => some b
  | _ => none

def Delivery.Complete (d : Delivery) : Prop :=
  ∃ directive : Directive, d = .directive directive ∧ directive.terminated = true

theorem Delivery.Complete.stray?_eq_none {d : Delivery} (h : d.Complete) : d.stray? = none := by
  obtain ⟨directive, rfl, -⟩ := h
  rfl

namespace Scan

abbrev strictly (options : Options) : Options :=
  { options with continuations := .strict }

abbrev warning (options : Options) : Options :=
  { options with continuations := .warn }

theorem strictly_eq_self {options : Options} (hc : options.continuations = .strict) :
    strictly options = options := by
  rw [strictly, ← hc]

theorem warning_not_strict (options : Options) : (warning options).continuations ≠ .strict := by
  simp

def DeliversComplete (events : List Event) : Prop :=
  ∀ d ∈ events.filterMap Event.delivery?, d.Complete

/-- What a byte comes to in a strict scan and in a warning one: the same, or the failure of the one
is the warning of the other. -/
inductive Agree : (strict warn : Except Failure (State × List Event)) → Prop where
  | unreadable (e : SystemError) : Agree (.error (.unreadable e)) (.error (.unreadable e))
  | same {st : State} {events : List Event} (h : DeliversComplete events) :
    Agree (.ok (st, events)) (.ok (st, events))
  | stray (b : StrayBackslash) (st : State) :
    Agree (.error (.stray b)) (.ok (st, [.delivered (.warning (.stray b))]))

theorem detect_agree (options : Options) (st : State) (b : UInt8) :
    Agree (.ok (st.detect (strictly options) b)) (.ok (st.detect (warning options) b)) := by
  simp only [State.detect]
  split
  · split
    · exact .same (by simp [DeliversComplete, Event.delivery?])
    · exact .same (by simp [DeliversComplete, Event.delivery?])
  · exact .same (by simp [DeliversComplete])

theorem collect_agree (options : Options) (st : State) (p : Pending) (b : UInt8) :
    Agree (st.collect (strictly options) p b) (st.collect (warning options) p b) := by
  simp only [State.collect]
  split
  · split
    · exact .unreadable _
    · exact .same (by simp [DeliversComplete, Event.delivery?])
  · split
    · exact .stray _ _
    · split
      · refine .same ?_
        intro d hd
        exact ⟨_, List.mem_singleton.mp hd, rfl⟩
      · exact .same (by simp [DeliversComplete])

theorem feed_agree (options : Options) (st : State) (b : UInt8) :
    Agree (st.feed (strictly options) b) (st.feed (warning options) b) := by
  simp only [State.feed]
  split
  · exact detect_agree options st b
  · exact collect_agree options st _ b

theorem stray?_finish (options : Options) (st : State) :
    ∀ d ∈ (st.finish options).1.filterMap Event.delivery?, d.stray? = none := by
  simp only [State.finish]
  split
  · simp
  · cases options.onEnd <;> simp [Event.delivery?, State.emit, Delivery.stray?]

inductive Round.Agree : (strict warn : Round) → Prop where
  | unreadable (e : SystemError) : Agree (.failed (.unreadable e)) (.failed (.unreadable e))
  | finished {events : List Event} {summary : Summary}
    (h : ∀ d ∈ events.filterMap Event.delivery?, d.stray? = none) :
    Agree (.finished events summary) (.finished events summary)
  | moved {st : State} {events : List Event} (h : DeliversComplete events) :
    Agree (.moved st events) (.moved st events)
  | stray (b : StrayBackslash) (st : State) :
    Agree (.failed (.stray b)) (.moved st [.delivered (.warning (.stray b))])

theorem round_agree (options : Options) (st : State) :
    Round.Agree (st.round (strictly options)) (st.round (warning options)) := by
  simp only [State.round]
  split
  · exact .unreadable _
  · exact .finished (stray?_finish (warning options) _)
  · next b st' _ =>
    have h := feed_agree options st' b
    generalize st'.feed (strictly options) b = t at h
    generalize st'.feed (warning options) b = w at h
    cases h with
    | unreadable e => exact .unreadable e
    | same hd => exact .moved hd
    | stray stray st'' => exact .stray stray st''

theorem DeliversComplete.append {xs ys : List Event} (hx : DeliversComplete xs)
    (hy : DeliversComplete ys) : DeliversComplete (xs ++ ys) := by
  intro d hd
  rw [List.filterMap_append, List.mem_append] at hd
  exact hd.elim (hx d) (hy d)

theorem DeliversComplete.reverse {xs : List Event} (hx : DeliversComplete xs) :
    DeliversComplete xs.reverse := by
  intro d hd
  rw [List.filterMap_reverse, List.mem_reverse] at hd
  exact hx d hd

theorem DeliversComplete.stray?_eq_none {xs : List Event} (hx : DeliversComplete xs) :
    ∀ d ∈ xs.filterMap Event.delivery?, d.stray? = none :=
  fun d hd => (hx d hd).stray?_eq_none

/-- A strict run beside the warning run that has come to the same state, and has not met a stray
backslash so far. -/
theorem resume_strictly (options : Options) (st : State) (seen : List Event)
    (hseen : DeliversComplete seen) :
    ((resume (strictly options) st seen).deliveries = (resume (warning options) st seen).deliveries ∧
      (resume (strictly options) st seen).outcome = (resume (warning options) st seen).outcome ∧
      ∀ d ∈ (resume (warning options) st seen).deliveries, d.stray? = none) ∨
    ∃ b post, (resume (warning options) st seen).deliveries =
        (resume (strictly options) st seen).deliveries ++ .warning (.stray b) :: post ∧
      (resume (strictly options) st seen).outcome = .error (.stray b) ∧
      ∀ d ∈ (resume (strictly options) st seen).deliveries, d.Complete := by
  induction hn : st.cursor.unread using Nat.strong_induction_on generalizing st seen with
  | _ n ih =>
    have hagree := round_agree options st
    generalize ht : st.round (strictly options) = t at hagree
    generalize hw : st.round (warning options) = w at hagree
    cases hagree with
    | unreadable e =>
      left
      rw [resume_of_failed ht, resume_of_failed hw]
      exact ⟨rfl, rfl, hseen.reverse.stray?_eq_none⟩
    | @finished events summary hd =>
      left
      rw [resume_of_finished ht, resume_of_finished hw]
      refine ⟨rfl, rfl, ?_⟩
      intro d hmem
      rw [Run.deliveries, List.filterMap_append, List.mem_append] at hmem
      exact hmem.elim (hseen.reverse.stray?_eq_none d) (hd d)
    | @moved st' events hd =>
      have hlt := State.unread_of_round ht
      rw [resume_of_moved ht, resume_of_moved hw]
      exact ih _ (hn ▸ hlt) st' (events.reverse ++ seen) (hd.reverse.append hseen) rfl
    | stray b st' =>
      right
      -- The strict run ends here; the warning one goes on, behind what it has delivered so far.
      have happ := resume_append (warning options) st' [] (.delivered (.warning (.stray b)) :: seen)
      rw [List.nil_append] at happ
      refine ⟨b, (resume (warning options) st' []).deliveries, ?_, ?_, ?_⟩
      · rw [resume_of_failed ht, resume_of_moved hw]
        simp [happ, Run.deliveries, Event.delivery?]
      · rw [resume_of_failed ht]
      · rw [resume_of_failed ht]
        exact hseen.reverse

theorem takeWhile_before_stray {xs post : List Delivery} {b : StrayBackslash}
    (h : ∀ d ∈ xs, d.stray? = none) :
    (xs ++ .warning (.stray b) :: post).takeWhile (·.stray?.isNone) = xs := by
  rw [List.takeWhile_append_of_pos (by simpa using h),
    List.takeWhile_cons_of_neg (by simp [Delivery.stray?]), List.append_nil]

theorem findSome?_stray {xs post : List Delivery} {b : StrayBackslash}
    (h : ∀ d ∈ xs, d.stray? = none) :
    (xs ++ .warning (.stray b) :: post).findSome? Delivery.stray? = some b := by
  rw [List.findSome?_append, List.findSome?_eq_none_iff.mpr h]
  rfl

section

variable (options : Options) (source : Source)

/-- A strict scan delivers what the warning one does before its first stray backslash. -/
theorem deliveries_strictly :
    (scan (strictly options) source).deliveries =
      (scan (warning options) source).deliveries.takeWhile (·.stray?.isNone) := by
  rcases resume_strictly options (.start source) [] (by simp [DeliversComplete]) with
    ⟨hd, -, hn⟩ | ⟨b, post, hd, -, hn⟩
  · refine hd.trans (List.takeWhile_eq_self_iff.mpr ?_).symm
    simpa using hn
  · unfold scan
    rw [hd, takeWhile_before_stray fun d h => (hn d h).stray?_eq_none]

theorem outcome_strictly :
    (scan (strictly options) source).outcome =
      match (scan (warning options) source).deliveries.findSome? Delivery.stray? with
      | none => (scan (warning options) source).outcome
      | some b => .error (.stray b) := by
  rcases resume_strictly options (.start source) [] (by simp [DeliversComplete]) with
    ⟨-, ho, hn⟩ | ⟨b, post, hd, ho, hn⟩
  · unfold scan
    rw [List.findSome?_eq_none_iff.mpr hn, ho]
  · unfold scan
    rw [hd, findSome?_stray fun d h => (hn d h).stray?_eq_none, ho]

theorem quiet_of_strictly_ok {summary : Summary}
    (h : (scan (strictly options) source).outcome = .ok summary) :
    (∀ d ∈ (scan (warning options) source).deliveries, d.stray? = none) ∧
      (scan (warning options) source).outcome = .ok summary := by
  rw [outcome_strictly] at h
  split at h
  · next hn => exact ⟨List.findSome?_eq_none_iff.mp hn, h⟩
  · cases h

theorem complete_before_stray {xs post : List Delivery} {b : StrayBackslash}
    (h : (scan (warning options) source).deliveries = xs ++ .warning (.stray b) :: post)
    (hxs : ∀ d ∈ xs, d.stray? = none) : ∀ d ∈ xs, d.Complete := by
  rcases resume_strictly options (.start source) [] (by simp [DeliversComplete]) with
    ⟨-, -, hn⟩ | ⟨b', post', hd, -, hn⟩
  · have hb := hn (.warning (.stray b)) (by
      change _ ∈ (scan (warning options) source).deliveries
      simp [h])
    simp [Delivery.stray?] at hb
  · have ht := deliveries_strictly options source
    rw [h, takeWhile_before_stray hxs] at ht
    rw [← ht]
    exact hn

end

/-- A strict scan is the warning scan cut off before its first stray backslash. -/
theorem strict_scan_truncates (options : Options) (s : Bytes) :
    let w := scan { options with continuations := .warn } (.ofBytes s)
    let t := scan { options with continuations := .strict } (.ofBytes s)
    (w.deliveries.filterMap Delivery.stray? = [] →
      t.deliveries = w.deliveries ∧
        ∃ summary, w.outcome = .ok summary ∧ t.outcome = .ok summary) ∧
    ∀ before b after, w.deliveries = before ++ .warning (.stray b) :: after →
      before.filterMap Delivery.stray? = [] →
        t.outcome = .error (.stray b) ∧ t.deliveries = before ∧ ∀ d ∈ before, d.Complete := by
  intro w t
  have hd : t.deliveries = w.deliveries.takeWhile (·.stray?.isNone) :=
    deliveries_strictly options (.ofBytes s)
  have ho := outcome_strictly options (.ofBytes s)
  constructor
  · intro hn
    have hn := List.filterMap_eq_nil_iff.mp hn
    have hw : w.outcome = .ok (summaryOf (warning options) s) :=
      outcome_scan_ofBytes (by simp) s
    refine ⟨?_, summaryOf (warning options) s, hw, ?_⟩
    · rw [hd, List.takeWhile_eq_self_iff]
      simpa using hn
    · have hfirst : w.deliveries.findSome? Delivery.stray? = none :=
        List.findSome?_eq_none_iff.mpr hn
      exact ho.trans (by rw [hfirst, hw])
  · intro before b after hsplit hn
    have hn := List.filterMap_eq_nil_iff.mp hn
    refine ⟨?_, ?_, complete_before_stray options (.ofBytes s) hsplit hn⟩
    · have hfirst : w.deliveries.findSome? Delivery.stray? = some b := by
        rw [hsplit, findSome?_stray hn]
      exact ho.trans (by rw [hfirst])
    · rw [hd, hsplit, takeWhile_before_stray hn]

/-- A backslash in quotes lets a strict scan pass; the one that ends the input stops it. -/
theorem strict_scan_stops_at_last_byte :
    (scan ⟨.strict, .discard, false⟩ (.ofBytes (utf8 "#a '\\ '\n"))).deliveries =
        (scan ⟨.warn, .discard, false⟩ (.ofBytes (utf8 "#a '\\ '\n"))).deliveries ∧
      (scan ⟨.strict, .flush, true⟩ (.ofBytes (utf8 "#a\n#\\\n'\\ '\\"))).outcome =
        .error (.stray ⟨3, ⟨10, 11⟩, none⟩) ∧
      (scan ⟨.strict, .flush, true⟩ (.ofBytes (utf8 "#a\n#\\\n'\\ '\\"))).deliveries =
        [.directive ⟨1, 1, ⟨0, 3⟩, utf8 "a\n", true⟩] := by
  have hw : (scan ⟨.warn, .flush, true⟩ (.ofBytes (utf8 "#a\n#\\\n'\\ '\\"))).deliveries =
      [.directive ⟨1, 1, ⟨0, 3⟩, utf8 "a\n", true⟩] ++ .warning (.stray ⟨3, ⟨10, 11⟩, none⟩) ::
        [.warning (.unterminated 2 ⟨3, 11⟩),
          .directive ⟨2, 3, ⟨3, 11⟩, utf8 "\\\n'\\ '\\", false⟩] := by
    decide +kernel
  have hquoted := (strict_scan_truncates ⟨.strict, .discard, false⟩ (utf8 "#a '\\ '\n")).1
    (by decide +kernel)
  have hlast := (strict_scan_truncates ⟨.strict, .flush, true⟩ (utf8 "#a\n#\\\n'\\ '\\")).2
    _ _ _ hw rfl
  exact ⟨hquoted.1, hlast.1, hlast.2.1⟩

end Scan

end HashLine
