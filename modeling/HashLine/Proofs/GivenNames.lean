import Mathlib.Data.List.Nodup
import HashLine.Proofs.Inputs

/-! The names a user gives, on the command line and in the environment. A filter is made of them if they are
all identifiers, and has each of them once. Else the first that is none is named, and the program ends
before it has opened anything. -/

namespace HashLine

/-- The names in the environment. There are none if it is not set or not text. -/
def environmentNames (environment : Option Bytes) : List String :=
  match environment.bind decode? with
  | none => []
  | some text =>
    ((text.toList.splitOnP fun c => c == ',' || isWhiteSpace c).filter (· ≠ [])).map String.ofList

def givenNames (directives obsolete : List String) (environment : Option Bytes) :
    List (NameRole × String) :=
  directives.map (.directive, ·) ++ (obsolete ++ environmentNames environment).map (.obsolete, ·)

theorem pieces_eq_splitOnP (separates : Char → Bool) (text : List Char) :
    pieces separates text = text.splitOnP separates := by
  induction text with
  | nil => rfl
  | cons c rest ih =>
    rw [List.splitOnP_cons_eq_if_modifyHead, pieces, ih]
    by_cases hc : separates c = true
    · rw [if_pos hc, if_pos hc]
    · rw [if_neg hc, if_neg hc]
      cases hrest : rest.splitOnP separates with
      | nil => exact absurd hrest (List.splitOnP_ne_nil _ _)
      | cons piece more => rfl

theorem listedNames_environment (environment : Option Bytes) :
    ((environment.bind decode?).map listedNames).getD [] = environmentNames environment := by
  simp only [environmentNames]
  cases environment.bind decode? with
  | none => rfl
  | some text =>
    simp only [Option.map_some, Option.getD_some, listedNames, pieces_eq_splitOnP]
    congr 2
    funext piece
    cases piece <;> rfl

theorem takeNames_of_invalid {names : List String} {name : String}
    (h : names.find? (fun name => !isIdentifier (utf8 name)) = some name) (role : NameRole)
    (taken : List String) : takeNames role taken names = .error ⟨role, name⟩ := by
  induction names generalizing taken with
  | nil => simp at h
  | cons first rest ih =>
    by_cases hfirst : isIdentifier (utf8 first) = true
    · rw [List.find?_cons_of_neg (by simp [hfirst])] at h
      rw [takeNames, if_pos hfirst]
      exact ih h _
    · rw [List.find?_cons_of_pos (by simp [hfirst])] at h
      rw [takeNames, if_neg hfirst, Option.some.inj h]

theorem takeNames_of_valid {names : List String}
    (h : ∀ name ∈ names, isIdentifier (utf8 name) = true) (role : NameRole) (taken : List String) :
    takeNames role taken names =
      .ok (taken ++ (names.filter fun name => !taken.contains name).eraseDups) := by
  induction names generalizing taken with
  | nil => simp [takeNames]
  | cons first rest ih =>
    obtain ⟨hfirst, hrest⟩ := List.forall_mem_cons.mp h
    rw [takeNames, if_pos hfirst, ih hrest]
    by_cases hknown : taken.contains first = true
    · rw [if_pos hknown, List.filter_cons_of_neg (by simpa using hknown)]
    · have hrest' : (rest.filter fun name => !(taken ++ [first]).contains name) =
          (rest.filter fun name => !taken.contains name).filter fun name => !name == first := by
        rw [List.filter_filter]
        congr 1
        funext name
        simp [Bool.and_comm, beq_eq_decide]
      rw [if_neg hknown, hrest', List.filter_cons_of_pos (by simpa using hknown), List.eraseDups_cons,
        List.append_assoc, List.singleton_append]

theorem nodup_takeNames {role : NameRole} {taken names out : List String} (ht : taken.Nodup)
    (h : takeNames role taken names = .ok out) : out.Nodup := by
  induction names generalizing taken with
  | nil =>
    obtain rfl := Except.ok.inj h
    exact ht
  | cons first rest ih =>
    rw [takeNames] at h
    split at h
    · apply ih ?_ h
      split
      · exact ht
      · next hknown =>
        rw [List.contains_iff_mem] at hknown
        have hlast := List.Nodup.concat hknown ht
        rwa [List.concat_eq_append] at hlast
    · cases h

/-- Each name once, where it comes first. -/
structure Distinct (names out : List String) : Prop where
  firsts : out = names.eraseDups
  nodup : out.Nodup
  same : ∀ name, name ∈ out ↔ name ∈ names

theorem exists_distinct {names : List String}
    (h : ∀ name ∈ names, isIdentifier (utf8 name) = true) (role : NameRole) :
    ∃ out, takeNames role [] names = .ok out ∧ Distinct names out := by
  have htaken := takeNames_of_valid h role []
  rw [List.nil_append, List.filter_eq_self.mpr (by simp)] at htaken
  exact ⟨_, htaken, rfl, nodup_takeNames List.nodup_nil htaken, fun name => List.mem_eraseDups⟩

theorem takeNames_cases (role : NameRole) (names : List String) :
    (∃ name, names.find? (fun name => !isIdentifier (utf8 name)) = some name ∧
        takeNames role [] names = .error ⟨role, name⟩) ∨
      (∀ name ∈ names, isIdentifier (utf8 name) = true) ∧
        ∃ out, takeNames role [] names = .ok out ∧ Distinct names out := by
  cases hfind : names.find? fun name => !isIdentifier (utf8 name) with
  | some name => exact .inl ⟨name, rfl, takeNames_of_invalid hfind role []⟩
  | none =>
    have hvalid : ∀ name ∈ names, isIdentifier (utf8 name) = true := by
      simpa using List.find?_eq_none.mp hfind
    exact .inr ⟨hvalid, exists_distinct hvalid role⟩

theorem Filter.ofNames_eq (directives obsolete : List String) (environment : Option Bytes) :
    ofNames directives obsolete environment =
      (takeNames .directive [] directives).bind fun names =>
        (takeNames .obsolete [] (obsolete ++ environmentNames environment)).map fun words =>
          ⟨names, words⟩ := by
  rw [ofNames, listedNames_environment]
  dsimp only [bind, Except.bind]
  cases takeNames .directive [] directives with
  | error e => rfl
  | ok names => cases takeNames .obsolete [] (obsolete ++ environmentNames environment) <;> rfl

theorem find?_givenNames (directives obsolete : List String) (environment : Option Bytes) :
    (givenNames directives obsolete environment).find? (fun given => !isIdentifier (utf8 given.2)) =
      ((directives.find? fun name => !isIdentifier (utf8 name)).map (NameRole.directive, ·)).or
        (((obsolete ++ environmentNames environment).find? fun name => !isIdentifier (utf8 name)).map
          (NameRole.obsolete, ·)) := by
  rw [givenNames, List.find?_append, List.find?_map, List.find?_map]
  rfl

theorem forall_mem_givenNames {directives obsolete : List String} {environment : Option Bytes} :
    (∀ given ∈ givenNames directives obsolete environment, isIdentifier (utf8 given.2) = true) ↔
      (∀ name ∈ directives, isIdentifier (utf8 name) = true) ∧
        ∀ name ∈ obsolete ++ environmentNames environment, isIdentifier (utf8 name) = true := by
  rw [givenNames, List.forall_mem_append, List.forall_mem_map, List.forall_mem_map]

theorem Program.run_of_invalid_name {m : Type → Type} [Monad m] (host : Host m) {s : Settings}
    {environment : Option Bytes} {e : InvalidName}
    (h : Filter.ofNames s.directives s.obsolete environment = .error e) :
    Program.run host s environment =
      if s.version then (do host.print (versionLine ++ "\n"); return 0)
      else (do host.complain ("Error: " ++ e.message ++ "\n"); return 1) := by
  simp only [Program.run, h]
  rfl

theorem Surroundings.run_of_invalid_name (here : Surroundings) {s : Settings}
    {environment : Option Bytes} {e : InvalidName}
    (h : Filter.ofNames s.directives s.obsolete environment = .error e) :
    here.run s environment =
      if s.version then (0, { here with stdout := here.stdout ++ utf8 (Program.versionLine ++ "\n") })
      else (1, { here with stderr := here.stderr ++ utf8 ("Error: " ++ e.message ++ "\n") }) := by
  rw [run, Program.run_of_invalid_name host h]
  split <;> rfl

theorem Filter.ofNames_cases (directives obsolete : List String) (environment : Option Bytes) :
    (∃ e, ofNames directives obsolete environment = .error e ∧
        (givenNames directives obsolete environment).find?
          (fun given => !isIdentifier (utf8 given.2)) = some (e.role, e.name)) ∨
      (∀ given ∈ givenNames directives obsolete environment, isIdentifier (utf8 given.2) = true) ∧
        ∃ filter, ofNames directives obsolete environment = .ok filter ∧
          Distinct directives filter.directives ∧
          Distinct (obsolete ++ environmentNames environment) filter.obsolete := by
  rw [ofNames_eq, find?_givenNames, forall_mem_givenNames]
  rcases takeNames_cases .directive directives with ⟨name, hfind, htake⟩ | ⟨hnames, names, htake, hd⟩
  · rw [hfind, htake]
    exact .inl ⟨_, rfl, rfl⟩
  · have hnone : directives.find? (fun name => !isIdentifier (utf8 name)) = none := by
      simpa using hnames
    rw [hnone, htake]
    rcases takeNames_cases .obsolete (obsolete ++ environmentNames environment) with
      ⟨word, hfind, htake'⟩ | ⟨hwords, words, htake', ho⟩
    · rw [hfind, htake']
      exact .inl ⟨_, rfl, rfl⟩
    · rw [htake']
      exact .inr ⟨⟨hnames, hwords⟩, _, rfl, hd, ho⟩

/-- A filter is made exactly if all names given are identifiers. It has those for directives, and those
for obsolete identifiers with the environment's behind them, each once. Else the first that is no
identifier is the error, and the program says so and ends with exit code 1, having asked nothing else of
its host; it does not come so far if the version is to be shown. -/
theorem filter_of_given_names (s : Settings) (environment : Option Bytes) :
    let given := givenNames s.directives s.obsolete environment
    let made := Filter.ofNames s.directives s.obsolete environment
    ((∃ filter, made = .ok filter) ↔ ∀ name ∈ given, isIdentifier (utf8 name.2) = true) ∧
      (∀ filter, made = .ok filter → Distinct s.directives filter.directives ∧
        Distinct (s.obsolete ++ environmentNames environment) filter.obsolete) ∧
      (∀ e, made = .error e ↔
        given.find? (fun name => !isIdentifier (utf8 name.2)) = some (e.role, e.name)) ∧
      ∀ e, made = .error e →
        (∀ (m : Type → Type) [Monad m] (host : Host m), Program.run host s environment =
          if s.version then (do host.print (Program.versionLine ++ "\n"); return 0)
          else (do host.complain ("Error: " ++ e.message ++ "\n"); return 1)) ∧
        ∀ here : Surroundings, here.run s environment =
          if s.version then (0, { here with stdout := here.stdout ++ utf8 (Program.versionLine ++ "\n") })
          else (1, { here with stderr := here.stderr ++ utf8 ("Error: " ++ e.message ++ "\n") }) := by
  intro given made
  have hcases := Filter.ofNames_cases s.directives s.obsolete environment
  refine ⟨⟨?_, ?_⟩, ?_, ?_, fun e he =>
    ⟨fun m _ host => Program.run_of_invalid_name host he, fun here => here.run_of_invalid_name he⟩⟩
  · rintro ⟨filter, hok⟩
    rcases hcases with ⟨e, he, -⟩ | ⟨hvalid, -⟩
    · cases he.symm.trans hok
    · exact hvalid
  · intro hvalid
    rcases hcases with ⟨e, -, hfind⟩ | ⟨-, filter, hok, -⟩
    · have hbad := List.find?_some hfind
      rw [hvalid _ (List.mem_of_find?_eq_some hfind)] at hbad
      cases hbad
    · exact ⟨filter, hok⟩
  · intro filter hok
    rcases hcases with ⟨e, he, -⟩ | ⟨-, filter', hok', hnames, hwords⟩
    · cases he.symm.trans hok
    · obtain rfl := Except.ok.inj (hok'.symm.trans hok)
      exact ⟨hnames, hwords⟩
  · intro e
    rcases hcases with ⟨⟨role, name⟩, he, hfind⟩ | ⟨hvalid, filter, hok, -⟩
    · rw [hfind, show made = _ from he]
      cases e
      simp
    · have hnone : given.find? (fun name => !isIdentifier (utf8 name.2)) = none := by
        rw [List.find?_eq_none]
        intro name hname
        simp [hvalid name hname]
      rw [hnone, show made = _ from hok]
      simp

/-- A name in the environment is wrong too, but the one on the command line comes first. Without the
two, and set apart by commas, an em space and nothing at all, the names make a filter. -/
theorem filter_of_given_names_behind_duplicates :
    let s : Settings :=
      { version := false, paths := ["a.h"], outFile := "out", format := .plain,
        directives := ["if", "if"], obsolete := ["OLD", "9lives"], continuations := .warn,
        onEnd := .flush, gateQuotes := false }
    let right : Settings := { s with obsolete := ["OLD"] }
    let complaint := "Error: invalid obsolete identifier `9lives`: expected a C identifier\n"
    (∀ here : Surroundings, here.run s (some (utf8 "not-fine")) =
        (1, { here with stderr := here.stderr ++ utf8 complaint })) ∧
      ∃ filter, Filter.ofNames right.directives right.obsolete (some (utf8 ",NEW,,X\u2003OLD")) =
          .ok filter ∧
        filter.directives = ["if"] ∧ filter.obsolete = ["OLD", "NEW", "X"] := by
  intro s right complaint
  obtain ⟨-, -, herror, hstops⟩ := filter_of_given_names s (some (utf8 "not-fine"))
  obtain ⟨hmade, hdistinct, -, -⟩ := filter_of_given_names right (some (utf8 ",NEW,,X\u2003OLD"))
  have hfirst := (herror ⟨.obsolete, "9lives"⟩).mpr (by decide +kernel)
  obtain ⟨filter, hfilter⟩ := hmade.mpr (by decide +kernel)
  obtain ⟨hnames, hwords⟩ := hdistinct filter hfilter
  refine ⟨(hstops _ hfirst).2, filter, hfilter, ?_, ?_⟩
  · rw [hnames.firsts]
    rfl
  · rw [hwords.firsts]
    decide +kernel

end HashLine
