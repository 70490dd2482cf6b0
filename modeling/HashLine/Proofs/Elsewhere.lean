import HashLine.Folder
import Mathlib.Data.List.Infix

/-! Making a file, or writing to it, leaves a folder as it is everywhere else. A path that does not name
the file leads where it led before, and one that led nowhere still leads nowhere, if perhaps for another
reason: what was missing may now be a file where a folder is wanted. -/

namespace HashLine

theorem Source.contents_flatMap_ofBytes (pieces : List Bytes) :
    contents (pieces.flatMap ofBytes) = .ok pieces.flatten := by
  induction pieces with
  | nil => rfl
  | cons piece pieces ih =>
    rw [List.flatMap_cons, List.flatten_cons]
    cases piece with
    | nil => exact ih
    | cons b rest =>
      rw [ofBytes, List.singleton_append, contents, ih]
      rfl

namespace Folder

section

variable {f : Folder} {place : Place}

theorem isFolder_of_prefix {above : Place} (h : above <+: place) (hp : f.isFolder place = true) :
    f.isFolder above = true := by
  simp only [isFolder, Bool.or_eq_true, beq_iff_eq, List.any_eq_true,
    List.isPrefixOf_iff_prefix] at hp ⊢
  rcases hp with ((hup | rfl) | ⟨listed, hmem, hlisted⟩) | ⟨file, hmem, hfile⟩
  · left; left; left
    rw [Place.isAbove, List.all_eq_true] at hup ⊢
    exact fun name hname => hup name (h.subset hname)
  · left; left
    rcases List.prefix_cons_iff.mp h with rfl | ⟨rest, rfl, hrest⟩
    · exact .inl rfl
    · rw [List.prefix_nil.mp hrest]
      exact .inr rfl
  · exact .inl (.inr ⟨listed, hmem, h.trans hlisted⟩)
  · exact .inr ⟨file, hmem, h.trans hfile⟩

theorem isFolder_of_found (h : f.entry? place = some .folder) : f.isFolder place = true := by
  unfold entry? at h
  split at h
  · cases h
  · split at h
    · assumption
    · cases h

/-- Everything above the place is a folder, so that a file can be there. -/
def Hosts (f : Folder) (place : Place) : Prop :=
  ∀ above, above <+: place → above ≠ place → f.isFolder above = true

theorem hosts_of_isFolder (h : f.isFolder place = true) : f.Hosts place :=
  fun _ ha _ => isFolder_of_prefix ha h

theorem hosts_enter (h : f.isFolder place = true) (name : String) : f.Hosts (place.enter name) := by
  have hconcat (last : String) : f.Hosts (place ++ [last]) := by
    intro above ha hne
    have ha := (List.prefix_concat_iff.mp ha).resolve_left hne
    exact isFolder_of_prefix ha h
  rw [Place.enter]
  split
  · exact hosts_of_isFolder h
  · split
    · split
      · exact hosts_of_isFolder h
      · split
        · exact hconcat ".."
        · exact fun above ha _ => isFolder_of_prefix (ha.trans (List.dropLast_prefix place)) h
    · exact hconcat name

theorem hosts_walk {names : List String} {target : Place} (hp : f.Hosts place)
    (h : f.walk place names = .ok target) : f.Hosts target := by
  fun_induction walk f place names with
  | case1 place =>
    obtain rfl := Except.ok.inj h
    exact hp
  | case2 => cases h
  | case3 => cases h
  | case4 => cases h
  | case5 place name rest hentry hlong ih => exact ih (hosts_enter (isFolder_of_found hentry) name) h

theorem hosts_locate {path : String} {names : List String} (h : f.locate path names = .ok place) :
    f.Hosts place := by
  have hroot (start : Place) (hs : f.isFolder start = true) (h : f.walk start names = .ok place) :
      f.Hosts place := hosts_walk (hosts_of_isFolder hs) h
  rw [locate] at h
  split_ifs at h
  · exact hroot ["/"] (by simp [isFolder]) h
  · exact hroot [] (by simp [isFolder, Place.isAbove]) h

theorem hosts_of_file {file : File} (h : f.files.lookup place = some file) : f.Hosts place := by
  obtain ⟨before, after, hfiles, -⟩ := List.lookup_eq_some_iff.mp h
  refine hosts_of_isFolder ?_
  simp [isFolder, hfiles]

end

section

variable {f : Folder} {place : Place} (source : Source)

theorem lookup_filter_ne {files : List (Place × File)} {q : Place} (hq : q ≠ place) :
    (files.filter fun (name, _) => name != place).lookup q = files.lookup q := by
  induction files with
  | nil => rfl
  | cons file rest ih =>
    by_cases hname : file.1 = place
    · have hskip : (q == file.1) = false := by simp [hname, hq]
      rw [List.filter_cons_of_neg (by simp [hname]), ih, List.lookup_cons, hskip]
    · rw [List.filter_cons_of_pos (by simp [hname]), List.lookup_cons, List.lookup_cons, ih]

theorem lookup_setFile (q : Place) :
    (f.setFile place source).files.lookup q =
      if q = place then some (.readable source) else f.files.lookup q := by
  rw [setFile, List.lookup_cons]
  by_cases hq : q = place
  · simp [hq]
  · have hskip : (q == place) = false := by simp [hq]
    rw [hskip, if_neg hq, lookup_filter_ne hq]

theorem isFolder_setFile (h : f.Hosts place) {q : Place} (hq : q ≠ place) :
    (f.setFile place source).isFolder q = f.isFolder q := by
  by_cases hup : q <+: place
  · have hafter : (f.setFile place source).isFolder q = true := by
      simp [isFolder, setFile, hup]
    rw [hafter, h q hup hq]
  · have hfiles : (f.setFile place source).files.any (fun (name, _) => q.isPrefixOf name) =
        f.files.any fun (name, _) => q.isPrefixOf name := by
      rw [Bool.eq_iff_iff, List.any_eq_true, List.any_eq_true]
      constructor
      · rintro ⟨file, hmem, hpre⟩
        rcases List.mem_cons.mp hmem with rfl | hmem
        · exact absurd (List.isPrefixOf_iff_prefix.mp hpre) hup
        · exact ⟨file, (List.mem_filter.mp hmem).1, hpre⟩
      · rintro ⟨file, hmem, hpre⟩
        have hkeep : (file.1 != place) = true := by
          rw [bne_iff_ne]
          rintro rfl
          exact hup (List.isPrefixOf_iff_prefix.mp hpre)
        exact ⟨file, List.mem_cons_of_mem _ (List.mem_filter.mpr ⟨hmem, hkeep⟩), hpre⟩
    rw [isFolder, isFolder, hfiles]
    rfl

/-- A file that is put where it can be stands there, and nothing else changes. -/
theorem entry?_setFile (h : f.Hosts place) (q : Place) :
    entry? (f.setFile place source) q =
      if q = place then some (.file (.readable source)) else f.entry? q := by
  unfold entry?
  rw [lookup_setFile]
  by_cases hq : q = place
  · rw [if_pos hq, if_pos hq]
  · rw [if_neg hq, if_neg hq, isFolder_setFile source h hq]

end

/-- Do the two paths name the same place? -/
def sameFile (f : Folder) (path path' : String) : Bool :=
  match f.locate path (pathNames path), f.locate path' (pathNames path') with
  | .ok place, .ok place' => place == place'
  | _, _ => false

theorem ne_of_sameFile {f : Folder} {path path' : String} {place : Place}
    (h : f.sameFile path path' = false) (hp : f.locate path (pathNames path) = .ok place) :
    f.locate path' (pathNames path') ≠ .ok place := by
  intro hp'
  simp [sameFile, hp, hp'] at h

/-- The same everywhere but at one place, where there is a folder in neither. -/
structure SameElsewhere (place : Place) (f g : Folder) : Prop where
  elsewhere : ∀ q, q ≠ place → f.entry? q = g.entry? q
  noFolder : f.entry? place ≠ some .folder
  noFolder' : g.entry? place ≠ some .folder

section

variable {f g h : Folder} {place : Place}

theorem SameElsewhere.refl (hf : f.entry? place ≠ some .folder) : SameElsewhere place f f :=
  ⟨fun _ _ => rfl, hf, hf⟩

theorem SameElsewhere.symm (hs : SameElsewhere place f g) : SameElsewhere place g f :=
  ⟨fun q hq => (hs.elsewhere q hq).symm, hs.noFolder', hs.noFolder⟩

theorem SameElsewhere.trans (hs : SameElsewhere place f g) (hs' : SameElsewhere place g h) :
    SameElsewhere place f h :=
  ⟨fun q hq => (hs.elsewhere q hq).trans (hs'.elsewhere q hq), hs.noFolder, hs'.noFolder'⟩

theorem sameElsewhere_setFile (hh : f.Hosts place) (hf : f.entry? place ≠ some .folder)
    (source : Source) : SameElsewhere place f (f.setFile place source) where
  elsewhere q hq := by rw [entry?_setFile source hh, if_neg hq]
  noFolder := hf
  noFolder' := by rw [entry?_setFile source hh, if_pos rfl]; simp

/-- A path goes through folders only, so it goes through neither the file nor the gap at the place. -/
theorem SameElsewhere.walk (hs : SameElsewhere place f g) {start target : Place}
    {names : List String} (hw : f.walk start names = .ok target) :
    g.walk start names = .ok target := by
  fun_induction Folder.walk f start names with
  | case1 start => exact hw
  | case2 => cases hw
  | case3 => cases hw
  | case4 => cases hw
  | case5 start name rest hentry hlong ih =>
    have hne : start ≠ place := by
      rintro rfl
      exact hs.noFolder hentry
    rw [hs.elsewhere start hne] at hentry
    simp only [Folder.walk, hentry, if_neg hlong]
    exact ih hw

theorem SameElsewhere.locate (hs : SameElsewhere place f g) {path : String} {names : List String}
    {target : Place} : f.locate path names = .ok target ↔ g.locate path names = .ok target := by
  have hgo {f g : Folder} (hs : SameElsewhere place f g) (hl : f.locate path names = .ok target) :
      g.locate path names = .ok target := by
    rw [Folder.locate] at hl ⊢
    split_ifs at hl ⊢
    · exact hs.walk hl
    · exact hs.walk hl
  exact ⟨hgo hs, hgo hs.symm⟩

theorem toOption_find (path : String) : (f.find path).toOption =
    (f.locate path (pathNames path)).toOption.bind f.entry? := by
  simp only [find, bind, Except.bind]
  cases f.locate path (pathNames path) with
  | error e => rfl
  | ok target =>
    dsimp only [Except.toOption, Option.bind_some]
    cases f.entry? target <;> rfl

theorem toOption_openSource (path : String) : (f.openSource path).toOption =
    (f.find path).toOption.bind fun
      | .file file => file.openSource.toOption
      | .folder => some [.failed PathError.isDirectory.system] := by
  rw [openSource]
  rcases f.find path with e | file | _ <;> rfl

/-- A path that does not name the place opens what it opened before, or fails if it failed before. -/
theorem SameElsewhere.toOption_openSource (hs : SameElsewhere place f g) {path : String}
    (hp : f.locate path (pathNames path) ≠ .ok place) :
    (g.openSource path).toOption = (f.openSource path).toOption := by
  have hfind : (g.find path).toOption = (f.find path).toOption := by
    rw [toOption_find, toOption_find]
    cases hf : f.locate path (pathNames path) with
    | error e =>
      cases hg : g.locate path (pathNames path) with
      | error e' => rfl
      | ok target =>
        rw [hs.locate.mpr hg] at hf
        cases hf
    | ok target =>
      have hne : target ≠ place := fun he => hp (he ▸ hf)
      rw [hs.locate.mp hf]
      exact (hs.elsewhere target hne).symm
  rw [Folder.toOption_openSource, Folder.toOption_openSource, hfind]

theorem create_eq_ok {path : String} (hc : f.create path = .ok (place, g)) :
    f.locate path (pathNames path) = .ok place ∧ f.entry? place ≠ some .folder ∧
      g = f.setFile place [] := by
  simp only [create, bind, Except.bind] at hc
  split at hc
  · cases hl : f.locate path (parentNames (pathNames path)) <;> rw [hl] at hc <;> cases hc
  · cases hl : f.locate path (pathNames path) with
    | error e =>
      rw [hl] at hc
      cases hc
    | ok target =>
      rw [hl] at hc
      dsimp only at hc
      split at hc
      · cases hc
      · rename_i hentry
        obtain ⟨rfl, rfl⟩ := Prod.mk.inj (Except.ok.inj hc)
        exact ⟨rfl, hentry, rfl⟩

/-- The file at the place was written in pieces that make up this content. -/
def Holds (f : Folder) (place : Place) (content : Bytes) : Prop :=
  ∃ pieces : List Bytes, f.entry? place = some (.file (.readable (pieces.flatMap Source.ofBytes))) ∧
    pieces.flatten = content

theorem Holds.noFolder {content : Bytes} (h : f.Holds place content) : f.entry? place ≠ some .folder := by
  obtain ⟨pieces, he, -⟩ := h
  simp [he]

/-- A file can be made without changing anything else, and it is empty. -/
theorem sameElsewhere_create {path : String} (hc : f.create path = .ok (place, g)) :
    f.locate path (pathNames path) = .ok place ∧ SameElsewhere place f g ∧ g.Holds place [] := by
  obtain ⟨hl, hf, rfl⟩ := create_eq_ok hc
  have hh := hosts_locate hl
  refine ⟨hl, sameElsewhere_setFile hh hf [], [], ?_, rfl⟩
  rw [entry?_setFile [] hh, if_pos rfl]
  rfl

theorem lookup_of_entry? {file : File} (he : f.entry? place = some (.file file)) :
    f.files.lookup place = some file := by
  unfold entry? at he
  split at he
  · next file' hfile =>
    obtain rfl := Entry.file.inj (Option.some.inj he)
    exact hfile
  · split at he <;> cases he

theorem sameElsewhere_append {content : Bytes} (h : f.Holds place content) (bytes : Bytes) :
    SameElsewhere place f (f.append place bytes) ∧
      (f.append place bytes).Holds place (content ++ bytes) := by
  have hne := h.noFolder
  obtain ⟨pieces, he, rfl⟩ := h
  have hlookup := lookup_of_entry? he
  have hh := hosts_of_file hlookup
  simp only [append, hlookup]
  refine ⟨sameElsewhere_setFile hh hne _, pieces ++ [bytes], ?_, by simp⟩
  rw [entry?_setFile _ hh, if_pos rfl, List.flatMap_append, List.flatMap_singleton]

theorem contents_of_holds {path : String} {content : Bytes}
    (hl : f.locate path (pathNames path) = .ok place) (h : f.Holds place content) :
    f.contents path = .ok content := by
  obtain ⟨pieces, he, rfl⟩ := h
  have hfind : f.find path = .ok (.file (.readable (pieces.flatMap Source.ofBytes))) := by
    simp only [find, bind, Except.bind, hl, he]
  rw [contents, openSource, hfind]
  exact Source.contents_flatMap_ofBytes pieces

end

end Folder

end HashLine
