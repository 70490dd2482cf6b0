import HashLine.Program.Surroundings
import HashLine.Proofs.Elsewhere
import HashLine.Proofs.Streaming

/-! The program over several inputs, any of which may be missing, refuse to be opened, or fail at any read.
Each report is written before the next input is opened, but only the out-file changes by it, so an input that
is not the out-file is reported on as it would be alone, and a failure before it makes no difference. -/

namespace HashLine

/-- What a tally becomes when the inputs that some paths name are reported on. -/
def Tally.including (t : Tally) (report : String → Option (Report × Bytes)) (paths : List String) :
    Tally where
  reported := t.reported + ((paths.filterMap report).map fun r => r.1.findings.length).sum
  failed := t.failed || paths.any fun path => (report path).isNone
  obsolete := t.obsolete || (paths.filterMap report).any fun r => r.1.hasObsolete

section

variable {report : String → Option (Report × Bytes)}

theorem Tally.including_cons {t : Tally} {p : Processed} {path : String} (h : p.report = report path)
    (rest : List String) : (t.add p).including report rest = t.including report (path :: rest) := by
  simp only [including, add, h]
  cases hr : report path with
  | none => simp [hr]
  | some r => simp [hr, Nat.add_assoc, Bool.or_assoc]

theorem Tally.foldl_add (t : Tally) {made : List Processed} {paths : List String}
    (h : made.map Processed.report = paths.map report) : made.foldl add t = t.including report paths := by
  induction paths generalizing t made with
  | nil =>
    obtain rfl := List.map_eq_nil_iff.mp h
    simp [including]
  | cons path rest ih =>
    obtain ⟨p, more, rfl, hp, hmore⟩ := List.map_eq_cons_iff.mp h
    rw [List.foldl_cons, ih _ hmore, including_cons hp]

theorem Tally.exitCode_including (paths : List String) :
    (Tally.including {} report paths).exitCode =
      if (∃ path ∈ paths, report path = none) ∨
        ∃ r ∈ paths.filterMap report, ∃ finding ∈ r.1.findings, finding.matched ≠ [] then 1 else 0 := by
  have hobsolete : ((paths.filterMap report).any fun r => r.1.hasObsolete) = true ↔
      ∃ r ∈ paths.filterMap report, ∃ finding ∈ r.1.findings, finding.matched ≠ [] := by
    simp only [List.any_eq_true, Report.hasObsolete, Bool.not_eq_true', List.isEmpty_eq_false_iff]
  simp only [exitCode, including, Bool.false_or, List.any_eq_true, Option.isNone_iff_eq_none, hobsolete]

end

namespace Processed

def written (p : Processed) : Bytes :=
  (p.report.map Prod.snd).getD []

theorem flatMap_written {report : String → Option (Report × Bytes)} {made : List Processed}
    {paths : List String} (h : made.map Processed.report = paths.map report) :
    made.flatMap written = (paths.filterMap report).flatMap Prod.snd := by
  induction paths generalizing made with
  | nil =>
    obtain rfl := List.map_eq_nil_iff.mp h
    rfl
  | cons path rest ih =>
    obtain ⟨p, more, rfl, hp, hmore⟩ := List.map_eq_cons_iff.mp h
    rw [List.flatMap_cons, ih hmore, written, hp]
    cases hr : report path with
    | none => rw [List.filterMap_cons_none hr]; rfl
    | some r => rw [List.filterMap_cons_some hr, List.flatMap_cons]; rfl

end Processed

def Settings.inputs (s : Settings) : List String :=
  if s.paths.isEmpty then [standardStream] else s.paths

namespace Surroundings

/-- The report on one input, read and scanned on its own, and the report as it is written. There is none
if the input cannot be read or the scan fails. -/
def reportOn (here : Surroundings) (s : Settings) (filter : Filter) (path : String) :
    Option (Report × Bytes) :=
  (here.readInput path).1.toOption.bind fun (name, content) =>
    (Report.ofSource s.options filter (.ofBytes content)).toOption.map fun r =>
      (r, r.render s.format name (some content))

theorem toOption_readInput (here : Surroundings) (path : String) :
    (here.readInput path).1.toOption =
      (here.openInput path).1.toOption.bind fun source =>
        source.contents.toOption.map fun content => (inputName path, content) := by
  rw [readInput]
  rcases here.openInput path with ⟨e | source, after⟩
  · rfl
  · change Except.toOption (source.contents >>= fun content => pure (inputName path, content)) =
      source.contents.toOption.map _
    cases source.contents <;> rfl

theorem report_process_openInput (here : Surroundings) (s : Settings) (filter : Filter)
    (path : String) :
    (s.process filter path (here.openInput path).1).report = here.reportOn s filter path := by
  rw [Settings.report_process, reportOn, toOption_readInput, Option.bind_assoc]
  simp only [Option.bind_map]
  rfl

theorem reportOn_congr {here there : Surroundings} {path : String}
    (hstdin : path = standardStream → there.stdin = here.stdin)
    (hfolder : path ≠ standardStream →
      (there.folder.openSource path).toOption = (here.folder.openSource path).toOption)
    (s : Settings) (filter : Filter) : there.reportOn s filter path = here.reportOn s filter path := by
  have hopened : (there.openInput path).1.toOption = (here.openInput path).1.toOption := by
    simp only [openInput]
    by_cases hpath : path = standardStream
    · rw [if_pos hpath, if_pos hpath, hstdin hpath]
    · rw [if_neg hpath, if_neg hpath]
      exact hfolder hpath
  rw [← report_process_openInput, ← report_process_openInput, Settings.report_process,
    Settings.report_process, hopened]

def told (text : String) (here : Surroundings) : Surroundings :=
  { here with stderr := here.stderr ++ utf8 text }

def receive (p : Processed) (here : Surroundings) : Surroundings :=
  match p.report with
  | none => here.told p.complaint
  | some (_, written) => (here.told p.complaint).writeOutput written

theorem run_bind {α β : Type} (x : StateM Surroundings α) (f : α → StateM Surroundings β)
    (here : Surroundings) : (x >>= f).run here = (f (x.run here).1).run (x.run here).2 := rfl

theorem run_openInput (path : String) (here : Surroundings) :
    (host.openInput path).run here = here.openInput path := rfl

theorem run_openOutput (path : String) (here : Surroundings) :
    (host.openOutput path).run here = here.openOutput path := rfl

theorem run_writeOutput (bytes : Bytes) (here : Surroundings) :
    (host.writeOutput bytes).run here = ((), here.writeOutput bytes) := rfl

theorem run_complain (text : String) (here : Surroundings) :
    (host.complain text).run here = ((), here.told text) := rfl

def next (s : Settings) (filter : Filter) (path : String) (here : Surroundings) : Surroundings :=
  (here.openInput path).2.receive (s.process filter path (here.openInput path).1)

theorem scanInputs_cons (s : Settings) (filter : Filter) (tally : Tally) (path : String)
    (rest : List String) (here : Surroundings) :
    (Program.scanInputs host s filter tally (path :: rest)).run here =
      (Program.scanInputs host s filter
        (tally.add (s.process filter path (here.openInput path).1)) rest).run
        (here.next s filter path) := by
  rw [next, receive]
  cases hr : (s.process filter path (here.openInput path).1).report with
  | none => simp only [Program.scanInputs, run_bind, run_openInput, run_complain, hr]
  | some r => simp only [Program.scanInputs, run_bind, run_openInput, run_complain, run_writeOutput, hr]

/-- What a run makes of its inputs, one after the other. -/
def processed (s : Settings) (filter : Filter) : List String → Surroundings → List Processed
  | [], _ => []
  | path :: rest, here =>
    s.process filter path (here.openInput path).1 :: processed s filter rest (here.next s filter path)

/-- The out-file is there, if reports go to a file at all. -/
def Writable (here : Surroundings) : Prop :=
  ∀ place, here.output = some place → ∃ content, here.folder.Holds place content

/-- The path does not name the out-file. -/
def Clear (here : Surroundings) (path : String) : Prop :=
  ∀ place, here.output = some place → path ≠ standardStream →
    here.folder.locate path (pathNames path) ≠ .ok place

/-- From here to there some text is added to the report and some to what the user is told. -/
structure Adds (text complaints : Bytes) (here there : Surroundings) : Prop where
  output : there.output = here.output
  toStream : here.output = none → there.stdout = here.stdout ++ text ∧ there.folder = here.folder
  toFile : ∀ place content, here.output = some place → here.folder.Holds place content →
    there.stdout = here.stdout ∧ here.folder.SameElsewhere place there.folder ∧
      there.folder.Holds place (content ++ text)
  toUser : there.stderr = here.stderr ++ complaints

section

variable {here there : Surroundings} {text complaints : Bytes}

theorem Adds.writable (h : Adds text complaints here there) (hw : here.Writable) : there.Writable := by
  intro place hplace
  rw [h.output] at hplace
  obtain ⟨content, hcontent⟩ := hw place hplace
  exact ⟨_, (h.toFile place content hplace hcontent).2.2⟩

theorem Adds.clear (h : Adds text complaints here there) (hw : here.Writable) {path : String}
    (hc : here.Clear path) : there.Clear path := by
  intro place hplace hpath
  rw [h.output] at hplace
  obtain ⟨content, hcontent⟩ := hw place hplace
  have hsame := (h.toFile place content hplace hcontent).2.1
  rw [ne_eq, ← hsame.locate]
  exact hc place hplace hpath

/-- What is added to the report cannot be seen in an input that is not the out-file. -/
theorem Adds.reportOn (h : Adds text complaints here there) (hw : here.Writable) {path : String}
    (hc : here.Clear path) (hstdin : path = standardStream → there.stdin = here.stdin)
    (s : Settings) (filter : Filter) : there.reportOn s filter path = here.reportOn s filter path := by
  refine reportOn_congr hstdin (fun hpath => ?_) s filter
  cases hplace : here.output with
  | none => rw [(h.toStream hplace).2]
  | some place =>
    obtain ⟨content, hcontent⟩ := hw place hplace
    have hsame := (h.toFile place content hplace hcontent).2.1
    exact hsame.toOption_openSource (hc place hplace hpath)

theorem Adds.trans {after : Surroundings} {text' complaints' : Bytes} (h : Adds text complaints here there)
    (h' : Adds text' complaints' there after) :
    Adds (text ++ text') (complaints ++ complaints') here after where
  output := h'.output.trans h.output
  toStream hplace := by
    obtain ⟨hout, hfolder⟩ := h.toStream hplace
    obtain ⟨hout', hfolder'⟩ := h'.toStream (h.output.trans hplace)
    exact ⟨by rw [hout', hout, List.append_assoc], hfolder'.trans hfolder⟩
  toFile place content hplace hcontent := by
    obtain ⟨hout, hsame, hfile⟩ := h.toFile place content hplace hcontent
    obtain ⟨hout', hsame', hfile'⟩ := h'.toFile place _ (h.output.trans hplace) hfile
    exact ⟨hout'.trans hout, hsame.trans hsame', by rwa [List.append_assoc] at hfile'⟩
  toUser := by rw [h'.toUser, h.toUser, List.append_assoc]

end

theorem adds_nothing {here there : Surroundings} {complaints : Bytes} (houtput : there.output = here.output)
    (hstdout : there.stdout = here.stdout) (hfolder : there.folder = here.folder)
    (hstderr : there.stderr = here.stderr ++ complaints) : Adds [] complaints here there where
  output := houtput
  toStream _ := ⟨by rw [hstdout, List.append_nil], hfolder⟩
  toFile place content _ hcontent := by
    rw [hfolder, List.append_nil]
    exact ⟨hstdout, .refl hcontent.noFolder, hcontent⟩
  toUser := hstderr

theorem adds_openInput (path : String) (here : Surroundings) :
    Adds [] [] here (here.openInput path).2 := by
  rw [openInput]
  split
  · exact adds_nothing rfl rfl rfl (List.append_nil _).symm
  · exact adds_nothing rfl rfl rfl (List.append_nil _).symm

theorem adds_writeOutput (text : Bytes) (here : Surroundings) :
    Adds text [] here (here.writeOutput text) := by
  cases hplace : here.output with
  | none =>
    simp only [writeOutput, hplace]
    refine ⟨hplace.symm, fun _ => ⟨rfl, rfl⟩, ?_, (List.append_nil _).symm⟩
    intro place content h
    rw [hplace] at h
    cases h
  | some place =>
    simp only [writeOutput, hplace]
    refine ⟨hplace.symm, ?_, ?_, (List.append_nil _).symm⟩
    · intro h
      rw [hplace] at h
      cases h
    · intro place' content h hcontent
      obtain rfl := Option.some.inj (hplace.symm.trans h)
      obtain ⟨hsame, hfile⟩ := Folder.sameElsewhere_append hcontent text
      exact ⟨rfl, hsame, hfile⟩

theorem adds_receive (p : Processed) (here : Surroundings) :
    Adds p.written (utf8 p.complaint) here (here.receive p) := by
  have htold : Adds [] (utf8 p.complaint) here (here.told p.complaint) := adds_nothing rfl rfl rfl rfl
  rw [receive, Processed.written]
  cases p.report with
  | none => exact htold
  | some r =>
    have hboth := htold.trans (adds_writeOutput r.2 _)
    rwa [List.append_nil] at hboth

section

variable (s : Settings) (filter : Filter)

theorem adds_next (path : String) (here : Surroundings) :
    let p := s.process filter path (here.openInput path).1
    Adds p.written (utf8 p.complaint) here (here.next s filter path) :=
  (adds_openInput path here).trans (adds_receive _ _)

/-- A run adds what it makes of its inputs, and its tally is of that too. -/
theorem run_scanInputs (paths : List String) (tally : Tally) (here : Surroundings) :
    let ran := (Program.scanInputs host s filter tally paths).run here
    let made := here.processed s filter paths
    ran.1 = made.foldl Tally.add tally ∧
      Adds (made.flatMap Processed.written) (made.flatMap fun p => utf8 p.complaint) here ran.2 := by
  induction paths generalizing tally here with
  | nil => exact ⟨rfl, adds_nothing rfl rfl rfl (List.append_nil _).symm⟩
  | cons path rest ih =>
    obtain ⟨htally, hrest⟩ := ih (tally.add (s.process filter path (here.openInput path).1))
      (here.next s filter path)
    rw [scanInputs_cons, processed]
    dsimp only
    rw [List.foldl_cons, List.flatMap_cons, List.flatMap_cons]
    exact ⟨htally, (adds_next s filter path here).trans hrest⟩

theorem stdin_receive (p : Processed) (here : Surroundings) :
    (here.receive p).stdin = here.stdin := by
  rw [receive]
  cases p.report with
  | none => rfl
  | some r =>
    simp only [writeOutput, told]
    cases here.output <;> rfl

theorem stdin_next {path : String} (hpath : path ≠ standardStream) (here : Surroundings) :
    (here.next s filter path).stdin = here.stdin := by
  rw [next, stdin_receive, openInput, if_neg hpath]

/-- Whatever becomes of an input, those behind it are still reported on as before. -/
theorem reportOn_next {here : Surroundings} (hw : here.Writable) {path path' : String}
    (hclear : here.Clear path') (hstdin : path' = standardStream → path ≠ standardStream) :
    (here.next s filter path).reportOn s filter path' = here.reportOn s filter path' :=
  (adds_next s filter path here).reportOn hw hclear
    (fun hpath' => stdin_next s filter (hstdin hpath') here) s filter

theorem ne_standardStream_of_count {path path' : String} {rest : List String}
    (hcount : (path :: rest).count standardStream ≤ 1) (hmem : path' ∈ rest)
    (hpath' : path' = standardStream) : path ≠ standardStream := by
  rintro rfl
  have hpos := List.count_pos_iff.mpr (hpath' ▸ hmem)
  rw [List.count_cons_self] at hcount
  omega

/-- In a run each input is reported on as it would be alone. -/
theorem report_processed (paths : List String) (here : Surroundings) (hw : here.Writable)
    (hclear : ∀ path ∈ paths, here.Clear path) (hstdin : paths.count standardStream ≤ 1) :
    (here.processed s filter paths).map Processed.report = paths.map (here.reportOn s filter) := by
  induction paths generalizing here with
  | nil => rfl
  | cons path rest ih =>
    have hadds := adds_next s filter path here
    have hlater : ∀ path' ∈ rest,
        (here.next s filter path).reportOn s filter path' = here.reportOn s filter path' := by
      intro path' hpath'
      exact reportOn_next s filter hw (hclear path' (List.mem_cons_of_mem path hpath'))
        (ne_standardStream_of_count hstdin hpath')
    rw [processed, List.map_cons, List.map_cons, report_process_openInput,
      ih (here.next s filter path) (hadds.writable hw)
        (fun path' hpath' => hadds.clear hw (hclear path' (List.mem_cons_of_mem path hpath')))
        (List.count_le_count_cons.trans hstdin),
      List.map_congr_left hlater]

end

/-- Standard output, or an empty file that is made without changing anything else. -/
structure Opens (path : String) (here opened : Surroundings) : Prop where
  stdin : opened.stdin = here.stdin
  stdout : opened.stdout = here.stdout
  stderr : opened.stderr = here.stderr
  stream : path = standardStream → opened.output = none ∧ opened.folder = here.folder
  file : path ≠ standardStream → ∃ place, opened.output = some place ∧
    here.folder.locate path (pathNames path) = .ok place ∧
      here.folder.SameElsewhere place opened.folder ∧ opened.folder.Holds place []

theorem opens_openOutput {path : String} {here : Surroundings}
    (h : (here.openOutput path).1 = .ok ()) : Opens path here (here.openOutput path).2 := by
  unfold openOutput at h ⊢
  by_cases hpath : path = standardStream
  · rw [if_pos hpath]
    exact ⟨rfl, rfl, rfl, fun _ => ⟨rfl, rfl⟩, fun hne => absurd hpath hne⟩
  · rw [if_neg hpath] at h ⊢
    cases hc : here.folder.create path with
    | error e =>
      rw [hc] at h
      cases h
    | ok made =>
      obtain ⟨place, folder⟩ := made
      exact ⟨rfl, rfl, rfl, fun he => absurd he hpath,
        fun _ => ⟨place, rfl, Folder.sameElsewhere_create hc⟩⟩

section

variable {out : String} {here opened : Surroundings}

theorem Opens.writable (h : Opens out here opened) : opened.Writable := by
  intro place hplace
  by_cases hout : out = standardStream
  · rw [(h.stream hout).1] at hplace
    cases hplace
  · obtain ⟨place', hplace', -, -, hfile⟩ := h.file hout
    obtain rfl := Option.some.inj (hplace'.symm.trans hplace)
    exact ⟨[], hfile⟩

theorem Opens.clear (h : Opens out here opened) {path : String}
    (hapart : out ≠ standardStream → path ≠ standardStream →
      here.folder.sameFile out path = false) : opened.Clear path := by
  intro place hplace hpath
  by_cases hout : out = standardStream
  · rw [(h.stream hout).1] at hplace
    cases hplace
  · obtain ⟨place', hplace', hlocated, hsame, -⟩ := h.file hout
    obtain rfl := Option.some.inj (hplace'.symm.trans hplace)
    rw [ne_eq, ← hsame.locate]
    exact Folder.ne_of_sameFile (hapart hout hpath) hlocated

theorem Opens.reportOn (h : Opens out here opened) {path : String}
    (hapart : out ≠ standardStream → path ≠ standardStream →
      here.folder.sameFile out path = false) (s : Settings) (filter : Filter) :
    opened.reportOn s filter path = here.reportOn s filter path := by
  refine reportOn_congr (fun _ => h.stdin) (fun hpath => ?_) s filter
  by_cases hout : out = standardStream
  · rw [(h.stream hout).2]
  · obtain ⟨place, -, hlocated, hsame, -⟩ := h.file hout
    exact hsame.toOption_openSource (Folder.ne_of_sameFile (hapart hout hpath) hlocated)

theorem Opens.report_processed (h : Opens out here opened) {paths : List String}
    (hapart : ∀ path ∈ paths, out ≠ standardStream → path ≠ standardStream →
      here.folder.sameFile out path = false) (hstdin : paths.count standardStream ≤ 1)
    (s : Settings) (filter : Filter) :
    (opened.processed s filter paths).map Processed.report = paths.map (here.reportOn s filter) := by
  rw [Surroundings.report_processed s filter paths opened h.writable
    (fun path hpath => h.clear (hapart path hpath)) hstdin]
  exact List.map_congr_left fun path hpath => h.reportOn (hapart path hpath) s filter

end

/-- What a run leaves behind that made this of its inputs: the reports where they are to go, and the
complaints and then the count with the user. -/
structure Leaves (out : String) (made : List Processed) (reported : Nat) (here after : Surroundings) :
    Prop where
  written : if out = standardStream then
      after.stdout = here.stdout ++ made.flatMap Processed.written ∧ after.folder = here.folder
    else after.folder.contents out = .ok (made.flatMap Processed.written) ∧ after.stdout = here.stdout
  told : after.stderr = here.stderr ++ made.flatMap (fun p => utf8 p.complaint) ++
    utf8 ("Scan complete: " ++ toString reported ++ " directive(s) reported.\n")

theorem Opens.leaves {out : String} {here opened after : Surroundings} {made : List Processed}
    (h : Opens out here opened)
    (hadds : Adds (made.flatMap Processed.written) (made.flatMap fun p => utf8 p.complaint) opened after)
    (reported : Nat) :
    Leaves out made reported here
      (after.told ("Scan complete: " ++ toString reported ++ " directive(s) reported.\n")) where
  written := by
    by_cases hout : out = standardStream
    · obtain ⟨houtput, hfolder⟩ := h.stream hout
      obtain ⟨hstdout, hfolder'⟩ := hadds.toStream houtput
      rw [if_pos hout]
      exact ⟨hstdout.trans (by rw [h.stdout]), hfolder'.trans hfolder⟩
    · obtain ⟨place, hplace, hlocated, hsame, hfile⟩ := h.file hout
      obtain ⟨hstdout, hsame', hfile'⟩ := hadds.toFile place [] hplace hfile
      rw [if_neg hout]
      exact ⟨Folder.contents_of_holds ((hsame.trans hsame').locate.mp hlocated) hfile',
        hstdout.trans h.stdout⟩
  told := by rw [told, hadds.toUser, h.stderr]

/-- A run ends as it has to after what it made of its inputs. -/
theorem run_leaves {s : Settings} {environment : Option Bytes} {filter : Filter} {here : Surroundings}
    (hversion : s.version = false)
    (hfilter : Filter.ofNames s.directives s.obsolete environment = .ok filter)
    (hopen : (here.openOutput s.outFile).1 = .ok ()) :
    let made := (here.openOutput s.outFile).2.processed s filter s.inputs
    let tally := made.foldl Tally.add {}
    (here.run s environment).1 = tally.exitCode ∧
      Leaves s.outFile made tally.reported here (here.run s environment).2 := by
  intro made tally
  have hrun : here.run s environment =
      let ran := (Program.scanInputs host s filter {} s.inputs).run (here.openOutput s.outFile).2
      (ran.1.exitCode,
        ran.2.told ("Scan complete: " ++ toString ran.1.reported ++ " directive(s) reported.\n")) := by
    simp only [run, Program.run, hversion, hfilter, Bool.false_eq_true, if_false, run_bind,
      run_openOutput, hopen, run_complain]
    rfl
  obtain ⟨htally, hadds⟩ := run_scanInputs s filter s.inputs {} (here.openOutput s.outFile).2
  rw [hrun]
  dsimp only
  rw [htally]
  exact ⟨rfl, (opens_openOutput hopen).leaves hadds _⟩

/-- Over several inputs the program writes the reports on those that can be read and scanned, one after
the other, and nothing on the others. It counts what it has written and tells by its exit code whether
an input failed or an obsolete identifier was met. -/
theorem run_joins_reports {here : Surroundings} {s : Settings} {environment : Option Bytes}
    {filter : Filter} (hversion : s.version = false)
    (hfilter : Filter.ofNames s.directives s.obsolete environment = .ok filter)
    (hopen : (here.openOutput s.outFile).1 = .ok ())
    (hapart : ∀ path ∈ s.inputs, s.outFile ≠ standardStream → path ≠ standardStream →
      here.folder.sameFile s.outFile path = false)
    (hstdin : s.inputs.count standardStream ≤ 1) :
    let reports := s.inputs.filterMap (here.reportOn s filter)
    let text := reports.flatMap fun r => r.2
    let reported := (reports.map fun r => r.1.findings.length).sum
    let (code, after) := here.run s environment
    (if s.outFile = standardStream then
        after.stdout = here.stdout ++ text ∧ after.folder = here.folder
      else after.folder.contents s.outFile = .ok text ∧ after.stdout = here.stdout) ∧
      (∃ complaints, after.stderr = here.stderr ++ complaints ++
        utf8 ("Scan complete: " ++ toString reported ++ " directive(s) reported.\n")) ∧
      code = if (∃ path ∈ s.inputs, here.reportOn s filter path = none) ∨
        ∃ r ∈ reports, ∃ finding ∈ r.1.findings, finding.matched ≠ [] then 1 else 0 := by
  intro reports text reported
  have hreports := (opens_openOutput hopen).report_processed hapart hstdin s filter
  have htally := Tally.foldl_add {} hreports
  have htext : _ = text := Processed.flatMap_written hreports
  have hreported : (Tally.including {} (here.reportOn s filter) s.inputs).reported = reported :=
    Nat.zero_add _
  obtain ⟨hcode, hwritten, htold⟩ := run_leaves hversion hfilter hopen
  rw [htext] at hwritten
  rw [htally, hreported] at htold
  rw [htally, Tally.exitCode_including] at hcode
  exact ⟨hwritten, ⟨_, htold⟩, hcode⟩

/-- Of eight inputs one fails in the scan and one at a read, both behind a directive that would have been
reported, one is missing, one may not be opened and one is a folder. Standard input comes in pieces. -/
theorem run_joins_reports_past_failures :
    let torn : Source := Source.ofBytes (utf8 "#if A\n#els") ++ [.failed ⟨"Input/output error (os error 5)"⟩]
    let here : Surroundings :=
      { folder :=
          { files := [(["a.h"], .readable (utf8 "#define A\n")), (["torn.h"], .readable torn),
              (["bad.h"], .readable (utf8 "#if A\n#x \\ \n")),
              (["locked.h"], .locked ⟨"Permission denied (os error 13)"⟩),
              (["b.h"], .readable (utf8 "#undef B\n#ifdef A\n"))]
            folders := [["d"]] }
        stdin := Source.ofBytes (utf8 "#prag") ++ Read.interrupted :: Source.ofBytes (utf8 "ma A") }
    let s : Settings :=
      { version := false, paths := ["a.h", "bad.h", "torn.h", "gone.h", "-", "locked.h", "d", "b.h"],
        outFile := "out", format := .source, directives := [], obsolete := ["A"],
        continuations := .strict, onEnd := .flush, gateQuotes := false }
    let (code, after) := here.run s none
    after.folder.contents "out" = .ok (utf8 "#define A\n#pragma A\n#ifdef A\n") ∧
      (∃ complaints, after.stderr =
        complaints ++ utf8 "Scan complete: 3 directive(s) reported.\n") ∧ code = 1 := by
  intro torn here s
  have hfilter : Filter.ofNames s.directives s.obsolete none = .ok ⟨[], ["A"]⟩ := by decide +kernel
  obtain ⟨hwritten, ⟨complaints, hstderr⟩, hcode⟩ := @run_joins_reports here s none ⟨[], ["A"]⟩ rfl
    hfilter (by decide +kernel) (by decide +kernel) (by decide +kernel)
  have htext : ((s.inputs.filterMap (here.reportOn s ⟨[], ["A"]⟩)).flatMap fun r => r.2) =
      utf8 "#define A\n#pragma A\n#ifdef A\n" := by
    decide +kernel
  have hreported : ((s.inputs.filterMap (here.reportOn s ⟨[], ["A"]⟩)).map fun r =>
      r.1.findings.length).sum = 3 := by
    decide +kernel
  rw [if_neg (by decide), htext] at hwritten
  rw [hreported] at hstderr
  exact ⟨hwritten.1, ⟨complaints, hstderr⟩, hcode.trans (by decide +kernel)⟩

end Surroundings

end HashLine
