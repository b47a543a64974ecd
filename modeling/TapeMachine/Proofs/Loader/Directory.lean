import TapeMachine.Loader
import TapeMachine.Proofs.Folder
import Mathlib.Data.List.Sort

/-!
# Loader — Directories

To load a directory is to load its program files one by one.  Which files these are is told by their
names (`Folder.HasProgramFile`).  The names are put in order, which is also the order of the paths
(`pairwise_before_programNames`), so the order in which they are listed is forgotten; and each path
gives one result, which is what loading that path alone gives (`directory_eq_map`).  The main
theorem is `directory_file_by_file`.
-/

namespace TapeMachine

/-- A file with this name is in the folder, and the name ends in `.tur` or `.json`, with something
before the point. -/
def Folder.HasProgramFile (folder : Folder) (name : String) : Prop :=
  ∃ bytes stem, (name, Entry.file bytes) ∈ folder ∧ stem ≠ "" ∧
    (name = stem ++ ".tur" ∨ name = stem ++ ".json")

namespace Loader

open TapeMachine.Path

variable {read read' : String → Except ReadFault String} {directory name : String}
  {folder folder' : Folder} {bytes : ByteArray}

/-! ### The program files of a directory -/

theorem isProgramFile_iff (h : IsName name) : isProgramFile (name, .file bytes) = true ↔
    ∃ stem, stem ≠ "" ∧ (name = stem ++ ".tur" ∨ name = stem ++ ".json") := by
  have htur (stem : String) : stem ++ "." ++ "tur" = stem ++ ".tur" := String.append_assoc
  have hjson (stem : String) : stem ++ "." ++ "json" = stem ++ ".json" := String.append_assoc
  rw [isProgramFile, Bool.or_eq_true, hasExtension_iff h (by simp), hasExtension_iff h (by simp)]
  simp only [htur, hjson, and_or_left, exists_or]

/-- The names of the program files, in ascending order. -/
def programNames (folder : Folder) : List String :=
  ((folder.filter isProgramFile).map Prod.fst).mergeSort (· ≤ ·)

theorem mem_programNames (h : folder.FoundAt read directory) :
    name ∈ programNames folder ↔ folder.HasProgramFile name := by
  rw [programNames, List.mem_mergeSort, List.mem_map]
  constructor
  · rintro ⟨⟨name, entry⟩, he, rfl⟩
    obtain ⟨hmem, hprogram⟩ := List.mem_filter.1 he
    cases entry with
    | folder => cases hprogram
    | file bytes =>
        have hname : IsName name := h.isName name (List.mem_map_of_mem hmem)
        obtain ⟨stem, hstem, hends⟩ := (isProgramFile_iff hname).1 hprogram
        exact ⟨bytes, stem, hmem, hstem, hends⟩
  · rintro ⟨bytes, stem, hmem, hstem, hends⟩
    have hname : IsName name := h.isName name (List.mem_map_of_mem hmem)
    refine ⟨(name, .file bytes), List.mem_filter.2 ⟨hmem, ?_⟩, rfl⟩
    exact (isProgramFile_iff hname).2 ⟨stem, hstem, hends⟩

theorem listed_of_mem_programNames (h : name ∈ programNames folder) :
    name ∈ folder.map Prod.fst := by
  rw [programNames, List.mem_mergeSort] at h
  exact (List.filter_sublist.map Prod.fst).subset h

theorem nodup_programNames (h : folder.FoundAt read directory) : (programNames folder).Nodup := by
  refine (List.mergeSort_perm _ _).nodup_iff.2 ?_
  exact h.nodup.sublist (List.filter_sublist.map Prod.fst)

theorem pairwise_programNames (h : folder.FoundAt read directory) :
    (programNames folder).Pairwise (· < ·) := by
  have hle : (programNames folder).Pairwise (· ≤ ·) := List.pairwise_mergeSort' _ _
  exact hle.imp₂ (fun _ _ => Std.lt_of_le_of_ne) (nodup_programNames h)

/-- The paths come in ascending order. -/
theorem pairwise_before_programNames (h : folder.FoundAt read directory) :
    ((programNames folder).map (join directory)).Pairwise Before := by
  rw [List.pairwise_map]
  refine (pairwise_programNames h).imp_of_mem fun hs ht hlt => ?_
  exact before_join (h.isName _ (listed_of_mem_programNames hs))
    (h.isName _ (listed_of_mem_programNames ht)) hlt

/-- What counts of a directory for its names is which program files there are. -/
theorem programNames_eq_of_iff (h : folder.FoundAt read directory)
    (h' : folder'.FoundAt read' directory)
    (hiff : ∀ name, folder'.HasProgramFile name ↔ folder.HasProgramFile name) :
    programNames folder' = programNames folder := by
  have hperm : (programNames folder').Perm (programNames folder) := by
    refine (List.perm_ext_iff_of_nodup (nodup_programNames h') (nodup_programNames h)).2 ?_
    intro name
    rw [mem_programNames h', mem_programNames h, hiff]
  exact hperm.eq_of_pairwise (fun s t _ _ hst hts => absurd hts (String.lt_asymm hst))
    (pairwise_programNames h') (pairwise_programNames h)

theorem hasProgramFile_iff_of_perm (hperm : folder'.Perm folder) (name : String) :
    folder'.HasProgramFile name ↔ folder.HasProgramFile name := by
  simp only [Folder.HasProgramFile, hperm.mem_iff]

/-! ### The results of a directory -/

/-- The program at a path, where `read` tells what is read at a path. -/
def load (read : String → Except ReadFault String) (path : String) : Except Error Program :=
  file {} path (read path)

/-- The result of a directory for one of its paths, told by what loading that path alone gives. -/
def outcome (path : String) : Except Error Program → Except Error (String × Program)
  | .ok p => .ok (path, p)
  | .error e => .error (.program path e)

theorem member_eq (h : folder.FoundAt read directory) (hname : name ∈ folder.map Prod.fst) :
    member directory folder name =
      outcome (join directory name) (load read (join directory name)) := by
  rw [member, load, h.read_join name hname]
  rfl

/-- Each path gives one result. -/
theorem directory_eq_map (h : folder.FoundAt read directory) :
    Loader.directory directory (.entries folder) =
      ((programNames folder).map (join directory)).map fun path =>
        outcome path (load read path) := by
  rw [List.map_map]
  exact List.map_congr_left fun name hname => member_eq h (listed_of_mem_programNames hname)

/-- The results of a directory are those of the program files with these names, one result for each
of their paths, in ascending order. -/
structure FileByFile (read : String → Except ReadFault String) (directory : String)
    (folder : Folder) (names : List String) : Prop where
  mem_iff : ∀ name, name ∈ names ↔ folder.HasProgramFile name
  nodup : names.Nodup
  ascending : (names.map (join directory)).Pairwise Before
  results_eq : Loader.directory directory (.entries folder) =
    (names.map (join directory)).map fun path => outcome path (load read path)

/-- **A directory is loaded file by file.**  Of a folder that is found at a path, the program files
give one result each, in the order of their paths: the path and the program, if loading that path
gives a program, and else an error that carries the path and the text of the error met there,
whatever words that text is in.  The order in which the folder is listed makes no difference.  Nor
does what is in one file make a difference to the result of another: if there are the same program
files, then a path under which the same is read has the same result at the same place. -/
theorem directory_file_by_file (h : folder.FoundAt read directory) :
    ∃ names, FileByFile read directory folder names ∧
      (∀ w path e, (Error.program path e).messageIn w =
        "File error: Failed to load program from " ++ path ++ ": " ++ e.messageIn w) ∧
      (∀ folder', folder'.Perm folder → Loader.directory directory (.entries folder') =
        Loader.directory directory (.entries folder)) ∧
      ∀ read' folder', folder'.FoundAt read' directory →
        (∀ name, folder'.HasProgramFile name ↔ folder.HasProgramFile name) →
        ∀ (i : Nat) name, names[i]? = some name →
          read' (join directory name) = read (join directory name) →
          (Loader.directory directory (.entries folder'))[i]? =
            (Loader.directory directory (.entries folder))[i]? := by
  refine ⟨programNames folder, ⟨fun name => mem_programNames h, nodup_programNames h,
    pairwise_before_programNames h, directory_eq_map h⟩, fun w path e => ?_,
    fun folder' hperm => ?_, fun read' folder' h' hiff i name hname hread => ?_⟩
  · rfl
  · rw [directory_eq_map (h.perm hperm), directory_eq_map h,
      programNames_eq_of_iff h (h.perm hperm) (hasProgramFile_iff_of_perm hperm)]
  · rw [directory_eq_map h', directory_eq_map h, programNames_eq_of_iff h h' hiff]
    simp only [List.getElem?_map, hname, Option.map_some, load, hread]

/-- The bytes of the program file of a shelf. -/
def stillBytes : ByteArray := "name: n\ntape: a\nrules:\n  q:".toUTF8

/-- The program of that file. -/
def still : Program where
  name := "n"
  initial := "q"
  finals := .ofList ["q"]
  blank := '_'
  tapes := [['a']]
  heads := [0]
  tapeCount := 1
  rules := []
  maxSteps := 1000
  detectLoops := true

/-- A folder with a program file, a request that holds `bytes`, and what is no program file. -/
def shelf (bytes : ByteArray) : Folder :=
  [("still.tur", .file stillBytes), ("drafts.tur", .folder), (".tur", .file stillBytes),
    ("draft.json", .file bytes), ("notes.txt", .file stillBytes)]

theorem find_shelf (bytes : ByteArray) : (shelf bytes).find "drafts.tur/.." = .ok .top := by
  have hparts : parts [] "drafts.tur/..".toList = ["drafts.tur".toList, "..".toList] := by
    decide +kernel
  rw [Folder.find_eq, if_neg (by decide +kernel), if_neg (by decide +kernel), hparts,
    Folder.origin, if_neg (by simp)]
  simp only [Folder.walk, List.map_cons, List.map_nil, String.ofList_toList, List.foldlM_cons,
    List.foldlM_nil, Folder.enter, Folder.entry]
  rfl

theorem names_shelf (bytes : ByteArray) : (shelf bytes).map Prod.fst =
    ["still.tur", "drafts.tur", ".tur", "draft.json", "notes.txt"] := rfl

theorem foundAt_shelf (bytes : ByteArray) :
    (shelf bytes).FoundAt (shelf bytes).read "drafts.tur/.." := by
  have hlist : (shelf bytes).list "drafts.tur/.." = .entries (shelf bytes) := by
    rw [Folder.list, find_shelf]
  refine Folder.foundAt_of_list hlist ?_ ?_ ?_
  all_goals
    rw [names_shelf]
    decide +kernel

theorem hasProgramFile_shelf (bytes bytes' : ByteArray) (name : String) :
    (shelf bytes).HasProgramFile name ↔ (shelf bytes').HasProgramFile name := by
  simp [Folder.HasProgramFile, shelf, exists_or]

theorem read_shelf {bytes held : ByteArray} (h : (name, .file held) ∈ shelf bytes) :
    (shelf bytes).read (join "drafts.tur/.." name) = Folder.decoded held := by
  have hfits : ∀ name ∈ (shelf bytes).map Prod.fst,
      '\x00' ∉ name.toList ∧ name.utf8ByteSize ≤ Folder.maxNameLength := by
    rw [names_shelf]
    decide +kernel
  have hname : name ∈ (shelf bytes).map Prod.fst := List.mem_map_of_mem h
  have hfound := foundAt_shelf bytes
  rw [hfound.read_join name hname]
  exact Folder.read_of_mem hfound.nodup (hfound.isName name hname) h (hfits name hname).1
    (hfits name hname).2

/-- A request that is no text gives an error.  The program file beside it gives its program,
whatever the request holds; and the shelf may be listed in another order. -/
theorem directory_file_by_file_shelf :
    (shelf ⟨#[0xff]⟩).FoundAt (shelf ⟨#[0xff]⟩).read "drafts.tur/.." ∧
    ∃ names, FileByFile (shelf ⟨#[0xff]⟩).read "drafts.tur/.." (shelf ⟨#[0xff]⟩) names ∧
      .error (.program "drafts.tur/../draft.json" (.file "drafts.tur/../draft.json" .notUtf8)) ∈
        Loader.directory "drafts.tur/.." (.entries (shelf ⟨#[0xff]⟩)) ∧
      (∀ w, (Error.program "drafts.tur/../draft.json"
          (.file "drafts.tur/../draft.json" .notUtf8)).messageIn w =
        "File error: Failed to load program from drafts.tur/../draft.json: " ++
          "File error: Failed to read file drafts.tur/../draft.json: " ++
          "stream did not contain valid UTF-8") ∧
      Loader.directory "drafts.tur/.." (.entries (shelf ⟨#[0xff]⟩).reverse) =
        Loader.directory "drafts.tur/.." (.entries (shelf ⟨#[0xff]⟩)) ∧
      ∀ bytes (i : Nat), names[i]? = some "still.tur" →
        (Loader.directory "drafts.tur/.." (.entries (shelf bytes)))[i]? =
          some (.ok ("drafts.tur/../still.tur", still)) := by
  have hstill : join "drafts.tur/.." "still.tur" = "drafts.tur/../still.tur" := by decide +kernel
  have hdraft : join "drafts.tur/.." "draft.json" = "drafts.tur/../draft.json" := by
    decide +kernel
  have hprogram : file {} "drafts.tur/../still.tur" (Folder.decoded stillBytes) = .ok still := by
    decide +kernel
  have hfault : file {} "drafts.tur/../draft.json" (Folder.decoded ⟨#[0xff]⟩) =
      .error (.file "drafts.tur/../draft.json" .notUtf8) := by
    decide +kernel
  have hmessage :
      "File error: Failed to load program from " ++ "drafts.tur/../draft.json" ++ ": " ++
      ("File error: Failed to read file " ++ "drafts.tur/../draft.json" ++ ": " ++
        "stream did not contain valid UTF-8") =
      "File error: Failed to load program from drafts.tur/../draft.json: " ++
        "File error: Failed to read file drafts.tur/../draft.json: " ++
        "stream did not contain valid UTF-8" := by
    decide +kernel
  have hheld (bytes : ByteArray) : ("still.tur", .file stillBytes) ∈ shelf bytes := by simp [shelf]
  have hrequest : ("draft.json", .file ⟨#[0xff]⟩) ∈ shelf ⟨#[0xff]⟩ := by simp [shelf]
  obtain ⟨names, hnames, htext, hperm, hothers⟩ := directory_file_by_file (foundAt_shelf ⟨#[0xff]⟩)
  refine ⟨foundAt_shelf _, names, hnames, ?_, fun w => (htext w _ _).trans hmessage,
    hperm _ (List.reverse_perm _), fun bytes i hi => ?_⟩
  · have hmem : "draft.json" ∈ names :=
      (hnames.mem_iff _).2 ⟨⟨#[0xff]⟩, "draft", hrequest, by decide, .inr (by decide)⟩
    rw [hnames.results_eq, List.map_map]
    refine List.mem_map.2 ⟨"draft.json", hmem, ?_⟩
    rw [Function.comp_apply, load, read_shelf hrequest, hdraft, hfault]
    rfl
  · rw [hothers _ _ (foundAt_shelf bytes) (hasProgramFile_shelf bytes _) i _ hi
      ((read_shelf (hheld _)).trans (read_shelf (hheld _)).symm), hnames.results_eq,
      List.getElem?_map, List.getElem?_map, hi, Option.map_some, Option.map_some, load,
      read_shelf (hheld _), hstill, hprogram]
    rfl

end Loader

end TapeMachine
