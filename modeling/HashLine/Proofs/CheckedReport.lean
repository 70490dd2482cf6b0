import HashLine.Proofs.CheckedScan
import HashLine.Proofs.Lines
import HashLine.Proofs.Location

/-! Reports and diagnostics made with the same checks, and more of them: a byte is asked for, or bytes or
characters are cut off, only where there are such. Reports are what they are without the checks; so is
a diagnostic, in whatever text and however far outside it its span lies, if the span is in order. -/

namespace HashLine

section

variable {haystack word : Bytes}

theorem standsAlone_of_length_lt {bytes : Bytes} (h : bytes.length < word.length)
    (before : Option UInt8) : standsAlone word before bytes = false := by
  have hprefix : word.isPrefixOf bytes = false := by
    rw [Bool.eq_false_iff, Ne, List.isPrefixOf_iff_prefix]
    exact fun hp => absurd hp.length_le (Nat.not_le.mpr h)
  rw [standsAlone, hprefix, Bool.false_and, Bool.false_and]

/-- The search for a word tries the offsets one after the other, as far as the word fits in. -/
theorem findWordFrom_eq_find? (hword : word ≠ []) {n offset : Nat} (h : offset + n = haystack.length) :
    findWordFrom word offset (byteBefore haystack offset) (haystack.drop offset) =
      (List.range' offset (n + 1 - word.length)).find? fun k =>
        standsAlone word (byteBefore haystack k) (haystack.drop k) := by
  have hpos := List.length_pos_iff.mpr hword
  induction n generalizing offset with
  | zero =>
    rw [List.drop_eq_nil_of_le (by omega), Nat.sub_eq_zero_of_le (by omega)]
    rfl
  | succ n ih =>
    have hlt : offset < haystack.length := by omega
    have hlength : (haystack.drop offset).length = n + 1 := by
      rw [List.length_drop]
      omega
    have hbefore : some haystack[offset] = byteBefore haystack (offset + 1) :=
      (List.getElem?_eq_getElem hlt).symm
    have hnext := @ih (offset + 1) (by omega)
    rw [List.drop_eq_getElem_cons hlt, findWordFrom, ← List.drop_eq_getElem_cons hlt, hbefore, hnext]
    by_cases hfits : word.length ≤ n + 1
    · rw [show n + 1 + 1 - word.length = n + 1 - word.length + 1 by omega, List.range'_succ,
        List.find?_cons]
      cases standsAlone word (byteBefore haystack offset) (haystack.drop offset) <;> rfl
    · rw [standsAlone_of_length_lt (by omega), Nat.sub_eq_zero_of_le (by omega),
        Nat.sub_eq_zero_of_le (by omega)]
      rfl

end

theorem Span.le_of_intersect? {s t u : Span} (h : s.intersect? t = some u) :
    s.start ≤ u.start ∧ u.start ≤ u.stop := by
  simp only [intersect?] at h
  split at h
  · next hle =>
    obtain rfl := Option.some.inj h
    exact ⟨Nat.le_max_left _ _, hle⟩
  · cases h

theorem Report.outcome_of_ofSource {options : Options} {filter : Filter} {source : Source}
    {failure : Failure} (h : ofSource options filter source = .error failure) :
    (scan options source).outcome = .error failure := by
  simp only [ofSource, ofRun] at h
  cases ho : (scan options source).outcome with
  | error failure' =>
    rw [ho] at h
    exact congrArg Except.error (Except.error.inj h)
  | ok summary =>
    rw [ho] at h
    cases h

theorem Scan.Delivers.bounds {gate : Bool} {s : Bytes} {d : Delivery} (h : Delivers gate s d) :
    d.span.Ordered ∧ d.span.stop ≤ s.length := by
  have hlt {k : Nat} {b : UInt8} (hb : s[k]? = some b) : k + 1 ≤ s.length :=
    (List.getElem?_eq_some_iff.mp hb).1
  cases h with
  | stray h => exact ⟨Nat.le_succ _, hlt h.2.1⟩
  | ended ho he => exact ⟨(openAt_lt ho).le.trans (Nat.le_succ _), hlt he.1⟩
  | unterminated ho => exact ⟨(openAt_lt ho).le, le_rfl⟩
  | cutOff ho => exact ⟨(openAt_lt ho).le, le_rfl⟩

namespace Checked

theorem mapM_eq {α β : Type} {f : α → Checked β} {g : α → β} {xs : List α}
    (h : ∀ x ∈ xs, f x = .ok (g x)) : xs.mapM f = .ok (xs.map g) := by
  induction xs with
  | nil => rfl
  | cons x xs ih =>
    rw [List.mapM_cons, h x List.mem_cons_self, ok_bind,
      ih fun y hy => h y (List.mem_cons_of_mem x hy), ok_bind]
    rfl

def byteAt (bytes : Bytes) (i : Nat) : Checked UInt8 :=
  match bytes[i]? with
  | some b => .ok b
  | none => .error (.outside i bytes.length)

theorem byteAt_eq {bytes : Bytes} {i : Nat} {b : UInt8} (h : bytes[i]? = some b) :
    byteAt bytes i = .ok b := by
  rw [byteAt, h]

def upTo (bytes : Bytes) (n : Nat) : Checked Bytes :=
  if n ≤ bytes.length then .ok (bytes.take n) else .error (.outside n bytes.length)

theorem upTo_eq {bytes : Bytes} {n : Nat} (h : n ≤ bytes.length) :
    upTo bytes n = .ok (bytes.take n) :=
  if_pos h

/-- The offsets at which windows of the given width begin. -/
def windows (width : Nat) (bytes : Bytes) : Checked (List Nat) :=
  if width = 0 then .error .widthless else .ok (List.range (bytes.length + 1 - width))

section

variable {haystack word : Bytes}

/-- Is the byte before this offset one of an identifier? -/
def glued (haystack : Bytes) (start : Nat) : Checked Bool :=
  if start = 0 then .ok false
  else do
    let before ← sub start 1
    return Byte.inIdentifier (← byteAt haystack before)

theorem glued_eq {start : Nat} (h : start ≤ haystack.length) :
    glued haystack start = .ok ((byteBefore haystack start).any Byte.inIdentifier) := by
  cases start with
  | zero => rfl
  | succ k =>
    have hk : haystack[k]? = some haystack[k] := List.getElem?_eq_getElem h
    rw [glued, if_neg k.succ_ne_zero, sub_eq (Nat.le_add_left 1 k), ok_bind, Nat.add_sub_cancel,
      byteAt_eq hk, ok_bind, byteBefore, hk]
    rfl

def standsAt (haystack word : Bytes) (start : Nat) : Checked Bool :=
  if (haystack.drop start).take word.length = word then do
    let glued ← glued haystack start
    return !glued && !haystack[start + word.length]?.any Byte.inIdentifier
  else .ok false

theorem standsAt_eq (hword : word ≠ []) (start : Nat) :
    standsAt haystack word start =
      .ok (standsAlone word (byteBefore haystack start) (haystack.drop start)) := by
  rw [standsAt, standsAlone]
  by_cases hw : (haystack.drop start).take word.length = word
  · -- A word with a byte in it does not stand past the end, so there is a byte before `start`.
    have hstart : start ≤ haystack.length := by
      by_contra hlt
      rw [List.drop_eq_nil_of_le (by omega), List.take_nil] at hw
      exact hword hw.symm
    have hprefix : word.isPrefixOf (haystack.drop start) = true := by
      rw [List.isPrefixOf_iff_prefix, List.prefix_iff_eq_take]
      exact hw.symm
    rw [if_pos hw, glued_eq hstart, ok_bind, hprefix, List.drop_drop, List.head?_drop, Bool.true_and]
    rfl
  · have hprefix : word.isPrefixOf (haystack.drop start) = false := by
      rw [Bool.eq_false_iff, Ne, List.isPrefixOf_iff_prefix, List.prefix_iff_eq_take]
      exact fun h => hw h.symm
    rw [if_neg hw, hprefix, Bool.false_and, Bool.false_and]

def findWord (haystack word : Bytes) : Checked (Option Nat) :=
  if word.isEmpty || haystack.length < word.length then .ok none
  else do
    let starts ← windows word.length haystack
    starts.findM? (standsAt haystack word)

theorem findWord_eq (haystack word : Bytes) :
    findWord haystack word = .ok (HashLine.findWord haystack word) := by
  rw [findWord, HashLine.findWord]
  by_cases hword : word = []
  · rw [hword]
    rfl
  · have hempty : word.isEmpty = false := List.isEmpty_eq_false_iff.mpr hword
    have hwidth : word.length ≠ 0 := mt List.length_eq_zero_iff.mp hword
    have hfind := findWordFrom_eq_find? hword (Nat.zero_add haystack.length)
    rw [List.drop_zero] at hfind
    rw [hempty, Bool.false_or, if_neg Bool.false_ne_true, show none = byteBefore haystack 0 from rfl,
      hfind]
    by_cases hlong : haystack.length < word.length
    · rw [if_pos (decide_eq_true hlong), Nat.sub_eq_zero_of_le hlong]
      rfl
    · rw [if_neg (by simpa using hlong), windows, if_neg hwidth, ok_bind, List.range_eq_range',
        funext (standsAt_eq hword)]
      exact List.findM?_pure _ _

end

section

variable (f : Filter) (d : Directive)

def name? : Checked (Option String) := do
  let rest := dropIndent d.text
  match ← upTo rest (rest.findIdx fun b => !Byte.inIdentifier b) with
  | [] => return none
  | run => return some (String.ofList (run.map fun b => Char.ofNat b.toNat))

theorem name?_eq : name? d = .ok d.name? := by
  rw [name?, Directive.name?, List.takeWhile_eq_take_findIdx_not, upTo_eq List.findIdx_le_length,
    ok_bind]
  cases List.take _ (dropIndent d.text) <;> rfl

def wants : Checked Bool :=
  if f.directives.isEmpty then .ok true
  else return (← name? d).any fun name => f.directives.contains name

theorem wants_eq : wants f d = .ok (f.wants d) := by
  rw [wants, Filter.wants, name?_eq]
  cases f.directives.isEmpty <;> rfl

def mentioned : Checked (List String) := do
  let found ← f.obsolete.mapM fun word => do
    let place ← findWord d.logicalText (utf8 word)
    return if place.isSome then some word else none
  return found.filterMap id

theorem mentioned_eq : mentioned f d = .ok (f.mentioned d) := by
  simp only [mentioned, findWord_eq, ok_bind, List.mapM_pure, pure_bind, List.filterMap_map]
  rw [Filter.mentioned, ← List.filterMap_eq_filter]
  rfl

def finding? : Checked (Option Finding) := do
  if ← wants f d then
    let mentioned ← mentioned f d
    return if f.obsolete.isEmpty ∨ ¬ mentioned.isEmpty then some ⟨d, mentioned⟩ else none
  else return none

theorem finding?_eq : finding? f d = .ok (f.finding? d) := by
  rw [finding?, wants_eq, ok_bind, Filter.finding?, Filter.matches?]
  cases f.wants d with
  | false => rfl
  | true =>
    rw [if_pos rfl, mentioned_eq, ok_bind]
    by_cases hkept : f.obsolete.isEmpty ∨ ¬ (f.mentioned d).isEmpty
    · rw [if_pos hkept, if_pos ⟨rfl, hkept⟩]
      rfl
    · rw [if_neg hkept, if_neg (fun h => hkept h.2)]
      rfl

end

/-- The directives go through the filter as they come, also those before a failure. -/
def report (options : Options) (filter : Filter) (source : Source) :
    Checked (Except Failure Report) := do
  let run ← scan options source
  let findings ← run.directives.mapM (finding? filter)
  return run.outcome.map fun summary => ⟨findings.filterMap id, run.warnings, summary⟩

theorem report_eq (options : Options) (filter : Filter) (source : Source) :
    report options filter source = .ok (Report.ofSource options filter source) := by
  rw [report, scan_eq, ok_bind, mapM_eq (fun d _ => finding?_eq filter d), ok_bind, List.filterMap_map]
  rfl

def lineNumber (source : String) (offset : Nat) : Checked Nat := do
  let above ← upTo (utf8 source) (min offset (utf8 source).length)
  return above.count Byte.linefeed + 1

theorem lineNumber_eq (source : String) (offset : Nat) :
    lineNumber source offset = .ok (HashLine.lineNumber source.toList offset) := by
  rw [lineNumber, upTo_eq (Nat.min_le_right _ _), ok_bind, HashLine.lineNumber_eq, linefeedsBefore,
    Nat.add_comm, ← List.take_eq_take_min]
  rfl

def intersect? (s t : Span) : Checked (Option Span) :=
  let start := max s.start t.start
  let stop := min s.stop t.stop
  if start ≤ stop then some <$> span start stop else .ok none

theorem intersect?_eq (s t : Span) : intersect? s t = .ok (s.intersect? t) := by
  simp only [intersect?, Span.intersect?]
  split
  · next h =>
    rw [span_eq h]
    rfl
  · rfl

def covered (s : Span) : Checked Span := do
  let last ← if s.isEmpty then .ok s.start else sub s.stop 1
  span s.start (max last s.start)

theorem covered_eq {s : Span} (h : s.Ordered) : covered s = .ok (Window.covered s) := by
  rw [covered, Window.covered]
  cases hempty : s.isEmpty with
  | true => exact span_eq (Nat.le_max_right _ _)
  | false =>
    have hne : s.start ≠ s.stop := by simpa [Span.isEmpty] using hempty
    have hle : s.start ≤ s.stop := h
    rw [if_neg Bool.false_ne_true, sub_eq (by omega), ok_bind]
    exact span_eq (Nat.le_max_right _ _)

/-- A text in two, the first part being `n` bytes long. -/
def cut? : Nat → List Char → Option (List Char × List Char)
  | 0, text => some ([], text)
  | _ + 1, [] => none
  | n + 1, c :: rest =>
    if c.utf8Size ≤ n + 1 then
      (cut? (n + 1 - c.utf8Size) rest).map fun (before, after) => (c :: before, after)
    else none

theorem cut?_byteSize (xs ys : List Char) : cut? (byteSize xs) (xs ++ ys) = some (xs, ys) := by
  induction xs with
  | nil => rw [byteSize_nil, List.nil_append, cut?]
  | cons c xs ih =>
    have hpos := c.utf8Size_pos
    obtain ⟨n, hn⟩ : ∃ n, c.utf8Size + byteSize xs = n + 1 := ⟨c.utf8Size + byteSize xs - 1, by omega⟩
    rw [byteSize_cons, hn, List.cons_append, cut?, if_pos (by omega), ← hn, Nat.add_sub_cancel_left, ih]
    rfl

theorem of_cut?_eq_some {n : Nat} {text xs ys : List Char} (h : cut? n text = some (xs, ys)) :
    text = xs ++ ys ∧ n = byteSize xs := by
  fun_induction cut? n text generalizing xs ys with
  | case1 text =>
    cases h
    exact ⟨rfl, rfl⟩
  | case2 => cases h
  | case3 n c rest hc ih =>
    obtain ⟨⟨before, after⟩, hcut, heq⟩ := Option.map_eq_some_iff.mp h
    obtain ⟨rfl, rfl⟩ := Prod.mk.inj heq
    obtain ⟨rfl, hn⟩ := ih hcut
    exact ⟨rfl, by rw [byteSize_cons]; omega⟩
  | case4 => cases h

def cut (text : List Char) (n : Nat) : Checked (List Char × List Char) :=
  match cut? n text with
  | some parts => .ok parts
  | none => .error (.misplaced n)

/-- A text can be cut between two characters and at its ends, and nowhere else. -/
theorem cut_eq_ok {n : Nat} {text xs ys : List Char} :
    cut text n = .ok (xs, ys) ↔ text = xs ++ ys ∧ n = byteSize xs := by
  constructor
  · intro h
    unfold cut at h
    split at h
    · next hcut =>
      obtain rfl := Except.ok.inj h
      exact of_cut?_eq_some hcut
    · cases h
  · rintro ⟨rfl, rfl⟩
    rw [cut, cut?_byteSize]

def slice (text : List Char) (start stop : Nat) : Checked (List Char) := do
  let (_, behind) ← cut text start
  let length ← sub stop start
  let (inside, _) ← cut behind length
  return inside

theorem slice_line {text : List Char} {line : SourceLine} (h : line ∈ sourceLines 0 text) :
    slice text line.start line.stop = .ok line.text := by
  obtain ⟨before, after, rfl, hstart, -, -⟩ := exists_of_mem_sourceLines 0 h
  rw [Nat.zero_add] at hstart
  have hle : line.start ≤ line.stop := Nat.le_add_right _ _
  have hlength : line.stop - line.start = byteSize line.text := Nat.add_sub_cancel_left _ _
  rw [slice, cut_eq_ok.mpr ⟨rfl, hstart⟩, ok_bind]
  dsimp only
  rw [sub_eq hle, ok_bind, hlength, cut_eq_ok.mpr ⟨rfl, rfl⟩, ok_bind]
  rfl

section

variable {source : String} {s : Span}

def row? (source : String) (s covered : Span) (number : Nat) (line : SourceLine) :
    Checked (Option WindowRow) := do
  let extent ← span line.start line.stop
  let some _ ← intersect? extent covered | return none
  let some underline ← intersect? extent s | return none
  let text ← slice source.toList line.start line.stop
  let start ← sub underline.start line.start
  let stop ← sub underline.stop line.start
  let chars := withOffsets 0 text
  let padding := (chars.takeWhile fun (i, _) => i < start).map fun (_, c) =>
    if c = '\t' then '\t' else ' '
  let marked := chars.countP fun (i, _) => start ≤ i && i < stop
  return some ⟨number, text, padding, max marked 1⟩

theorem row?_eq {line : SourceLine} (h : line ∈ sourceLines 0 source.toList) (number : Nat) :
    row? source s (Window.covered s) number line = .ok (Window.row? s number line) := by
  have hline : line.start ≤ line.stop := Nat.le_add_right _ _
  rw [row?, span_eq hline, ok_bind, intersect?_eq, ok_bind, Window.row?]
  cases Span.intersect? ⟨line.start, line.stop⟩ (Window.covered s) with
  | none => rfl
  | some touched =>
    dsimp only
    rw [intersect?_eq, ok_bind]
    cases hunder : Span.intersect? ⟨line.start, line.stop⟩ s with
    | none => rfl
    | some underline =>
      -- What is underlined begins on the line, since it is a common part with the line.
      obtain ⟨hstart, hstop⟩ := Span.le_of_intersect? hunder
      dsimp only
      rw [slice_line h, ok_bind, sub_eq hstart, ok_bind, sub_eq (hstart.trans hstop), ok_bind]
      rfl

def rowsFrom (source : String) (s covered : Span) (number : Nat) :
    List SourceLine → Checked (List WindowRow)
  | [] => .ok []
  | line :: lines => do
    let row ← row? source s covered number line
    return row.toList ++ (← rowsFrom source s covered (number + 1) lines)

theorem rowsFrom_eq {lines : List SourceLine} (h : ∀ line ∈ lines, line ∈ sourceLines 0 source.toList)
    (number : Nat) :
    rowsFrom source s (Window.covered s) number lines = .ok (Window.rowsFrom s number lines) := by
  induction lines generalizing number with
  | nil => rfl
  | cons line lines ih =>
    rw [rowsFrom, row?_eq (h line List.mem_cons_self), ok_bind,
      ih fun line' hline' => h line' (List.mem_cons_of_mem line hline')]
    rfl

def window (style : Style) (s : Span) (source : String) : Checked String := do
  let covered ← covered s
  let rows ← rowsFrom source s covered 1 (sourceLines 0 source.toList)
  return "\n".intercalate (rows.map (WindowRow.render style (Window.width rows)))

theorem window_eq (hs : s.Ordered) (style : Style) :
    window style s source = .ok (Window.render style s source) := by
  rw [window, covered_eq hs, ok_bind, rowsFrom_eq fun _ h => h, ok_bind]
  rfl

end

section

variable {d : Diagnostic}

def printIn (d : Diagnostic) (file source : String) : Checked String := do
  let window ← window d.severity.style d.span source
  let place := Diagnostic.location file ++ ":" ++ toString (← lineNumber source d.span.start)
  return if window.isEmpty then d.header ++ "\n" ++ place else d.header ++ "\n" ++ place ++ "\n" ++ window

theorem printIn_eq (hd : d.span.Ordered) (file source : String) :
    printIn d file source = .ok (d.printIn file source) := by
  rw [printIn, window_eq hd, ok_bind, lineNumber_eq, ok_bind]
  rfl

def print (d : Diagnostic) (file : String) (source : Option String) : Checked String :=
  match source with
  | none => .ok (d.printBare file)
  | some source => printIn d file source

theorem print_eq (hd : d.span.Ordered) (file : String) (source : Option String) :
    print d file source = .ok (d.print file source) := by
  cases source with
  | none => rfl
  | some source => exact printIn_eq hd file source

example : print ⟨.note, .unterminatedDirective, ⟨1, 0⟩⟩ "a.h" (some "x") = .error (.negative 0 1) := by
  decide +kernel

end

def diagnostics (f : Finding) : Checked (List Diagnostic) :=
  if f.matched.isEmpty then
    return [⟨.note, .directive ((← name? f.directive).getD ""), f.directive.span⟩]
  else
    .ok (f.matched.map fun name => ⟨.warning, .obsoleteIdentifier name, f.directive.span⟩)

theorem diagnostics_eq (f : Finding) : diagnostics f = .ok f.diagnostics := by
  rw [diagnostics, Finding.diagnostics, name?_eq]
  cases f.matched.isEmpty <;> rfl

def pretty (file source : String) (f : Finding) : Checked String := do
  let printed ← (← diagnostics f).mapM fun d => printIn d file source
  return "\n".intercalate printed

theorem pretty_eq {f : Finding} (hf : f.directive.span.Ordered) (file source : String) :
    pretty file source f = .ok (f.pretty file source) := by
  have hprint : ∀ d ∈ f.diagnostics, printIn d file source = .ok (d.printIn file source) := by
    intro d hd
    exact printIn_eq (by rwa [Finding.span_of_mem_diagnostics hd]) file source
  rw [pretty, diagnostics_eq, ok_bind, mapM_eq hprint, ok_bind]
  rfl

def render (format : Format) (file : String) (source : Option Bytes) (r : Report) : Checked Bytes :=
  match format with
  | .plain => .ok (utf8 (r.plain file))
  | .source => .ok r.source
  | .pretty =>
    match source.bind decode? with
    | some text => do
      let printed ← r.findings.mapM (pretty file text)
      return utf8 (String.join (printed.map fun shown => shown ++ "\n"))
    | none => .ok (utf8 (r.plain file))

theorem render_eq {r : Report} (hr : ∀ f ∈ r.findings, f.directive.span.Ordered) (format : Format)
    (file : String) (source : Option Bytes) :
    render format file source r = .ok (r.render format file source) := by
  cases format with
  | plain => rfl
  | source => rfl
  | pretty =>
    rw [render, Report.render]
    cases source.bind decode? with
    | none => rfl
    | some text =>
      dsimp only
      rw [mapM_eq fun f hf => pretty_eq (hr f hf) file text, ok_bind, List.map_map]
      rfl

def renderWarnings (file : String) (source : Option Bytes) (warnings : List Warning) :
    Checked String := do
  let printed ← match source.bind decode? with
    | some text => warnings.mapM fun w => printIn w.diagnostic file text
    | none => .ok (warnings.map fun w => w.diagnostic.printAt file w.line)
  return "\n".intercalate printed

theorem renderWarnings_eq {warnings : List Warning} (hw : ∀ w ∈ warnings, w.span.Ordered)
    (file : String) (source : Option Bytes) :
    renderWarnings file source warnings = .ok (HashLine.renderWarnings file source warnings) := by
  have hspan (w : Warning) : w.diagnostic.span = w.span := by cases w <;> rfl
  rw [renderWarnings, HashLine.renderWarnings]
  cases source.bind decode? with
  | none => rfl
  | some text =>
    have hprint : ∀ w ∈ warnings, printIn w.diagnostic file text =
        .ok (w.diagnostic.printIn file text) := by
      intro w hmem
      exact printIn_eq (by rw [hspan]; exact hw w hmem) file text
    dsimp only
    rw [mapM_eq hprint]
    rfl

end Checked

/-- Nothing faults. The report on a source is the same with and without checks, whatever the source
brings and however it ends; so is what is written of the report, or of the failure in its place, and every
diagnostic whose span is in order. The spans of a scan are, and end with what the source has brought. -/
theorem nothing_faults (options : Options) (filter : Filter) (source : Source) :
    Checked.report options filter source = .ok (Report.ofSource options filter source) ∧
      (∀ report, Report.ofSource options filter source = .ok report → ∀ file content,
        (∀ format, Checked.render format file content report =
          .ok (report.render format file content)) ∧
        Checked.renderWarnings file content report.warnings =
          .ok (renderWarnings file content report.warnings)) ∧
      (∀ failure d, Report.ofSource options filter source = .error failure →
        failure.diagnostic? = some d → ∀ file text,
          Checked.print d file text = .ok (d.print file text)) ∧
      (∀ d : Diagnostic, d.span.Ordered → ∀ file text,
        Checked.print d file text = .ok (d.print file text)) ∧
      ∀ d ∈ (scan options source).deliveries,
        d.span.Ordered ∧ d.span.stop ≤ source.supply.1.length := by
  have hbounds : ∀ d ∈ (scan options source).deliveries,
      d.span.Ordered ∧ d.span.stop ≤ source.supply.1.length := fun d hd =>
    (Scan.delivers_of_mem_scan options source hd).bounds
  refine ⟨Checked.report_eq options filter source, ?_, ?_, fun d hd file text =>
    Checked.print_eq hd file text, hbounds⟩
  · intro report hreport file content
    obtain ⟨summary, -, rfl⟩ := Report.ofSource_eq_ok.mp hreport
    refine ⟨fun format => Checked.render_eq ?_ format file content,
      Checked.renderWarnings_eq ?_ file content⟩
    · intro f hf
      obtain ⟨d, hd, hfinding⟩ := List.mem_filterMap.mp hf
      rw [Filter.directive_of_finding? hfinding]
      exact (hbounds _ (Run.mem_directives.mp hd)).1
    · intro w hw
      exact (hbounds _ (Run.mem_warnings.mp hw)).1
  · intro failure d hfailure hd file text
    cases failure with
    | unreadable e => cases hd
    | stray b =>
      have hstray := Scan.delivers_of_stray_outcome (Report.outcome_of_ofSource hfailure)
      obtain rfl := Option.some.inj hd
      exact Checked.print_eq hstray.bounds.1 file text

/-- A source with an interruption and a read that fails behind its end, scanned with warnings and strictly;
printed in other texts than its own, and last with a span from inside a character to far outside. -/
theorem nothing_faults_off_the_text :
    let source : Source := [.data Byte.hash (utf8 "é A"), .interrupted,
      .data Byte.backslash (utf8 " \n#"), .ended, .failed ⟨"lost"⟩]
    let filter : Filter := ⟨[], ["A"]⟩
    let stray : StrayBackslash := ⟨1, ⟨5, 6⟩, some Byte.space⟩
    let report : Report := ⟨[⟨⟨1, 1, ⟨0, 8⟩, utf8 "é A\\ \n", true⟩, ["A"]⟩],
      [.stray stray, .unterminated 2 ⟨8, 9⟩], ⟨2, 2, 1, true, .unquoted⟩⟩
    let far : Diagnostic := ⟨.note, .unterminatedDirective, ⟨1, 2 ^ 64⟩⟩
    Report.ofSource ⟨.warn, .flush, false⟩ filter source = .ok report ∧
      Checked.render .pretty "a.h" (some (utf8 "é\r\né")) report =
        .ok (report.render .pretty "a.h" (some (utf8 "é\r\né"))) ∧
      Report.ofSource ⟨.strict, .flush, false⟩ filter source = .error (.stray stray) ∧
      Checked.print ⟨.error, stray.remark, stray.span⟩ "a.h" (some "é") =
        .ok (Diagnostic.print ⟨.error, stray.remark, stray.span⟩ "a.h" (some "é")) ∧
      Checked.print far "a.h" (some "é\r\né") = .ok (far.print "a.h" (some "é\r\né")) := by
  intro source filter stray report far
  have hwarn : Report.ofSource ⟨.warn, .flush, false⟩ filter source = .ok report := by decide +kernel
  have hstrict : Report.ofSource ⟨.strict, .flush, false⟩ filter source = .error (.stray stray) := by
    decide +kernel
  obtain ⟨-, hreport, -, hfar, -⟩ := nothing_faults ⟨.warn, .flush, false⟩ filter source
  obtain ⟨-, -, hfailure, -⟩ := nothing_faults ⟨.strict, .flush, false⟩ filter source
  exact ⟨hwarn, (hreport report hwarn "a.h" _).1 .pretty, hstrict,
    hfailure _ _ hstrict rfl "a.h" _, hfar far (by decide +kernel) "a.h" _⟩

end HashLine
