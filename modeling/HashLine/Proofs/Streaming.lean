import HashLine.Program
import HashLine.Proofs.Breakage

/-! An input that is scanned as it is read, and one that is read as a whole and then scanned. A report is
made of both or of neither, and it is the same one. -/

namespace HashLine

namespace Scan

theorem outcome_of_failing_source (options : Options) {source : Source} {b : Bytes}
    {e : SystemError} (hs : source.supply = (b, some e)) :
    ∃ failure, (scan options source).outcome = .error failure := by
  by_cases hc : options.continuations = .strict
  · -- It fails at a stray backslash if there is one, and else with its source.
    have ho := outcome_strictly options source
    rw [strictly_eq_self hc, (deliveries_broken hs (warning_not_strict options) []).2] at ho
    split at ho
    · exact ⟨_, ho⟩
    · exact ⟨_, ho⟩
  · exact ⟨_, (deliveries_broken hs hc []).2⟩

end Scan

theorem Source.contents_eq (source : Source) :
    source.contents = match source.supply.2 with
      | none => .ok source.supply.1
      | some e => .error e := by
  fun_induction contents source with
  | case1 => rfl
  | case2 b tail rest ih =>
    rw [ih, supply]
    cases (supply rest).2 <;> rfl
  | case3 => rfl
  | case4 rest ih => rw [ih, supply]
  | case5 => rfl

/-- It makes no difference to the report whether a source is scanned as it is read or afterwards. -/
theorem Report.toOption_ofSource (options : Options) (filter : Filter) (source : Source) :
    (ofSource options filter source).toOption =
      source.contents.toOption.bind fun content =>
        (ofSource options filter (.ofBytes content)).toOption := by
  rw [Source.contents_eq]
  rcases hs : source.supply with ⟨b, _ | e⟩
  · rw [ofSource, Scan.scan_of_supply options hs]
    rfl
  · obtain ⟨failure, ho⟩ := Scan.outcome_of_failing_source options hs
    rw [ofSource, ofRun, ho]
    rfl

theorem Report.render_of_ne_pretty {format : Format} (h : format ≠ .pretty) (file : String)
    (source source' : Option Bytes) (r : Report) :
    r.render format file source = r.render format file source' := by
  cases format with
  | plain => rfl
  | source => rfl
  | pretty => exact absurd rfl h

theorem Processed.report_ofScan (format : Format) (name : String) (content : Option Bytes)
    (scanned : Except Failure Report) :
    (ofScan format name content scanned).report =
      scanned.toOption.map fun r => (r, r.render format name content) := by
  cases scanned with
  | ok r => rfl
  | error failure =>
    simp only [ofScan, ofFailure]
    split <;> rfl

theorem Settings.report_process (s : Settings) (filter : Filter) (path : String)
    (opened : Except SystemError Source) :
    (s.process filter path opened).report =
      opened.toOption.bind fun source => source.contents.toOption.bind fun content =>
        (Report.ofSource s.options filter (.ofBytes content)).toOption.map fun r =>
          (r, r.render s.format (inputName path) (some content)) := by
  cases opened with
  | error e => rfl
  | ok source =>
    simp only [process]
    split
    · change _ = source.contents.toOption.bind _
      cases source.contents with
      | error e => rfl
      | ok content => exact Processed.report_ofScan _ _ _ _
    · rename_i hformat
      rw [Processed.report_ofScan, Report.toOption_ofSource, Option.map_bind]
      refine congrArg (Option.bind _) (funext fun content => ?_)
      simp only [Function.comp_apply, Report.render_of_ne_pretty hformat _ none (some content)]

end HashLine
