import HashLine.Proofs.Inputs

/-! The format of a report and the verdict. The pretty format reads an input as a whole and scans it then,
the others scan as they read; what they write and complain of differs. What is obtained of each input does
not, nor does what follows from that: the count of the findings and the exit code. -/

namespace HashLine

namespace Settings

def inFormat (s : Settings) (format : Format) : Settings :=
  { s with format := format }

/-- The report on an input as it was opened. The format has no part in it. -/
def reportOf? (s : Settings) (filter : Filter) (opened : Except SystemError Source) : Option Report :=
  opened.toOption.bind fun source => source.contents.toOption.bind fun content =>
    (Report.ofSource s.options filter (.ofBytes content)).toOption

theorem obtained_process (s : Settings) (filter : Filter) (path : String)
    (opened : Except SystemError Source) :
    (s.process filter path opened).report.map Prod.fst = s.reportOf? filter opened := by
  rw [report_process, reportOf?, Option.map_bind]
  refine congrArg (Option.bind _) (funext fun source => ?_)
  rw [Function.comp_apply, Option.map_bind]
  refine congrArg (Option.bind _) (funext fun content => ?_)
  rw [Function.comp_apply, Option.map_map]
  exact Option.map_id'

end Settings

def Processed.obtained (p : Processed) : Option Report :=
  p.report.map Prod.fst

/-- A tally takes nothing from an input but the report on it. -/
theorem Tally.add_congr (t : Tally) {p p' : Processed} (h : p.obtained = p'.obtained) :
    t.add p = t.add p' := by
  simp only [Processed.obtained] at h
  simp only [add]
  cases hp : p.report with
  | none =>
    cases hp' : p'.report with
    | none => rfl
    | some r' => simp [hp, hp'] at h
  | some r =>
    cases hp' : p'.report with
    | none => simp [hp, hp'] at h
    | some r' =>
      have hr : r.1 = r'.1 := by simpa [hp, hp'] using h
      simp only [hr]

theorem Tally.foldl_add_congr (t : Tally) {ps ps' : List Processed}
    (h : ps.map Processed.obtained = ps'.map Processed.obtained) :
    ps.foldl add t = ps'.foldl add t := by
  induction ps generalizing t ps' with
  | nil =>
    rw [List.map_nil, eq_comm, List.map_eq_nil_iff] at h
    rw [h]
  | cons p ps ih =>
    cases ps' with
    | nil => simp at h
    | cons p' ps' =>
      obtain ⟨hp, hps⟩ := List.cons.inj h
      rw [List.foldl_cons, List.foldl_cons, t.add_congr hp]
      exact ih _ hps

namespace Surroundings

theorem obtained_reportOn (here : Surroundings) (s : Settings) (filter : Filter) (path : String) :
    (here.reportOn s filter path).map Prod.fst = s.reportOf? filter (here.openInput path).1 := by
  rw [← report_process_openInput, Settings.obtained_process]

/-- In a run an input is obtained as it would be alone. -/
theorem Opens.obtained_processed {out : String} {here opened : Surroundings} (h : Opens out here opened)
    {paths : List String}
    (hapart : ∀ path ∈ paths, out ≠ standardStream → path ≠ standardStream →
      here.folder.sameFile out path = false) (hstdin : paths.count standardStream ≤ 1)
    (s : Settings) (filter : Filter) :
    (opened.processed s filter paths).map Processed.obtained =
      paths.map fun path => s.reportOf? filter (here.openInput path).1 := by
  have hreports := congrArg (List.map (Option.map Prod.fst)) (h.report_processed hapart hstdin s filter)
  rw [List.map_map, List.map_map] at hreports
  rw [← List.map_congr_left fun path _ => obtained_reportOn here s filter path]
  exact hreports

theorem code_of_version {here : Surroundings} {s : Settings} (hversion : s.version = true)
    (environment : Option Bytes) : (here.run s environment).1 = 0 := by
  simp only [run, Program.run, hversion, if_true]
  rfl

/-- Whatever the format, a run obtains the same report of each input or fails at it, counts the same
findings and ends with the same exit code, as it has to after what it made of its inputs; and of an input it
makes the same, wherever its reads fail. -/
theorem format_keeps_verdict {here : Surroundings} {s : Settings} {environment : Option Bytes}
    {filter : Filter} (hfilter : Filter.ofNames s.directives s.obsolete environment = .ok filter)
    (hopen : (here.openOutput s.outFile).1 = .ok ())
    (hapart : ∀ path ∈ s.inputs, s.outFile ≠ standardStream → path ≠ standardStream →
      here.folder.sameFile s.outFile path = false)
    (hstdin : s.inputs.count standardStream ≤ 1) :
    (∃ (code reported : Nat) (obtained : List (Option Report)), ∀ format,
      let made := (here.openOutput s.outFile).2.processed (s.inFormat format) filter s.inputs
      let tally := made.foldl Tally.add {}
      let (exit, after) := here.run (s.inFormat format) environment
      exit = code ∧
        (s.version = false → tally.exitCode = code ∧ tally.reported = reported ∧
          Leaves s.outFile made reported here after) ∧
        made.map Processed.obtained = obtained) ∧
      ∀ path opened, ∃ obtained, ∀ format,
        ((s.inFormat format).process filter path opened).obtained = obtained := by
  let obtained := s.inputs.map fun path => s.reportOf? filter (here.openInput path).1
  have hobtained (format : Format) :
      ((here.openOutput s.outFile).2.processed (s.inFormat format) filter s.inputs).map
        Processed.obtained = obtained :=
    (opens_openOutput hopen).obtained_processed hapart hstdin (s.inFormat format) filter
  refine ⟨?_, fun path opened => ⟨s.reportOf? filter opened, fun format =>
    Settings.obtained_process (s.inFormat format) filter path opened⟩⟩
  by_cases hversion : s.version = true
  · refine ⟨0, 0, obtained, fun format => ⟨?_, ?_, hobtained format⟩⟩
    · exact @code_of_version here (s.inFormat format) hversion environment
    · intro hscans
      exact absurd (hversion.symm.trans hscans) (by decide)
  · have hversion : s.version = false := by simpa using hversion
    -- All three tallies are the one of the plain format.
    let tally := ((here.openOutput s.outFile).2.processed (s.inFormat .plain) filter s.inputs).foldl
      Tally.add {}
    refine ⟨tally.exitCode, tally.reported, obtained, fun format => ?_⟩
    have htally : ((here.openOutput s.outFile).2.processed (s.inFormat format) filter s.inputs).foldl
        Tally.add {} = tally :=
      Tally.foldl_add_congr {} ((hobtained format).trans (hobtained .plain).symm)
    have hcode := congrArg Tally.exitCode htally
    have hreported := congrArg Tally.reported htally
    obtain ⟨hexit, hleaves⟩ := @run_leaves (s.inFormat format) environment filter here hversion hfilter hopen
    refine ⟨hexit.trans hcode, fun _ => ⟨hcode, hreported, ?_⟩, hobtained format⟩
    rw [← hreported]
    exact hleaves

/-- Of six inputs one fails in the scan and one at a read, both behind a directive that would have been
reported, one may not be opened, one can be opened but not read, one is not UTF-8, and standard input
mentions nothing obsolete. -/
theorem format_keeps_verdict_past_failures :
    let torn : Source := Source.ofBytes (utf8 "#if A\n#els") ++ [.failed ⟨"Input/output error (os error 5)"⟩]
    let here : Surroundings :=
      { folder :=
          { files := [(["bad.h"], .readable (utf8 "#if A\n#x \\ \n")), (["torn.h"], .readable torn),
              (["locked.h"], .locked ⟨"Permission denied (os error 13)"⟩),
              (["b.h"], .readable (.ofBytes (0xff :: utf8 "\n #ifdef A\n")))]
            folders := [["d"]] }
        stdin := utf8 "#pragma B" }
    let s : Settings :=
      { version := false, paths := ["bad.h", "torn.h", "locked.h", "d", "b.h", "-"], outFile := "out",
        format := .source, directives := [], obsolete := ["A"], continuations := .strict,
        onEnd := .flush, gateQuotes := false }
    ∀ format, (here.run (s.inFormat format) none).1 = 1 ∧
      (∃ complaints, (here.run (s.inFormat format) none).2.stderr =
        complaints ++ utf8 "Scan complete: 1 directive(s) reported.\n") ∧
      ((here.openOutput "out").2.processed (s.inFormat format) ⟨[], ["A"]⟩ s.paths).map
        (fun p => p.obtained.map fun r => r.findings.length) =
          [none, none, none, none, some 1, some 0] := by
  intro torn here s format
  have hfilter : Filter.ofNames s.directives s.obsolete none = .ok ⟨[], ["A"]⟩ := by decide +kernel
  obtain ⟨⟨code, reported, obtained, hall⟩, -⟩ := @format_keeps_verdict here s none ⟨[], ["A"]⟩
    hfilter (by decide +kernel) (by decide +kernel) (by decide +kernel)
  obtain ⟨hexit, hends, hobtained⟩ := hall format
  obtain ⟨-, -, hleaves⟩ := hends rfl
  obtain ⟨-, hplain, hobtained'⟩ := hall .plain
  obtain ⟨hcode, hreported, -⟩ := hplain rfl
  have hcode : code = 1 := hcode.symm.trans (by decide +kernel)
  have hreported : reported = 1 := hreported.symm.trans (by decide +kernel)
  have hcounts := congrArg (List.map (Option.map fun r => r.findings.length))
    (hobtained.trans hobtained'.symm)
  rw [List.map_map, List.map_map] at hcounts
  rw [hreported] at hleaves
  exact ⟨hexit.trans hcode, ⟨_, hleaves.told⟩, hcounts.trans (by decide +kernel)⟩

end Surroundings

end HashLine
