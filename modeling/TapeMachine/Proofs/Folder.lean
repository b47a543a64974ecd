import TapeMachine.Folder
import TapeMachine.Proofs.Path
import TapeMachine.Proofs.Results
import Mathlib.Data.List.Nodup

/-!
# Folder — What is listed can be read

A name stands for one entry of a folder (`lookup_eq_some_iff`), so the order in which the names are
listed makes no difference to what is read (`read_eq_of_perm`).  If a path leads to a folder, then
the path of an entry leads where the name of the entry leads from there (`find_join`), and so what a
directory lists can be read under the path of the directory with the name behind it
(`foundAt_of_list`).
-/

namespace TapeMachine

open TapeMachine.Path

namespace Folder

variable {folder folder' content : Folder} {directory name : String} {entry : Entry} {place : Place}

/-! ### Entries -/

/-- Where each name is listed once, a name stands for what it is listed with. -/
theorem lookup_eq_some_iff (h : (folder.map Prod.fst).Nodup) :
    folder.lookup name = some entry ↔ (name, entry) ∈ folder := by
  rw [List.lookup_eq_some_iff]
  constructor
  · rintro ⟨before, after, rfl, -⟩
    simp
  · intro hmem
    obtain ⟨before, after, rfl⟩ := List.append_of_mem hmem
    refine ⟨before, after, rfl, fun e he => ?_⟩
    rw [List.map_append, List.map_cons, List.nodup_middle, List.nodup_cons] at h
    have hname : name ∉ before.map Prod.fst := fun hmem => h.1 (List.mem_append_left _ hmem)
    exact bne_iff_ne.2 fun hne => hname (hne ▸ List.mem_map_of_mem he)

theorem lookup_eq_of_perm (h : (folder.map Prod.fst).Nodup) (hperm : folder'.Perm folder)
    (name : String) : folder'.lookup name = folder.lookup name := by
  have h' : (folder'.map Prod.fst).Nodup := (hperm.map Prod.fst).nodup_iff.2 h
  ext e
  rw [lookup_eq_some_iff h, lookup_eq_some_iff h', hperm.mem_iff]

/-- What is read depends on what the names stand for, not on the order of the names. -/
theorem read_eq_of_perm (h : (folder.map Prod.fst).Nodup) (hperm : folder'.Perm folder)
    (path : String) : folder'.read path = folder.read path := by
  have hentry : folder'.entry = folder.entry := by
    funext name
    rw [Folder.entry, Folder.entry, lookup_eq_of_perm h hperm]
  have henter : folder'.enter = folder.enter := by
    funext name place
    rw [enter.eq_def, enter.eq_def, hentry]
  rw [read, read, find, find, henter]

/-! ### Paths -/

/-- Where parts lead, one after the other. -/
def walk (folder : Folder) (place : Place) (parts : List (List Char)) : Except ReadFault Place :=
  (parts.map String.ofList).foldlM (fun place part => folder.enter part place) place

/-- Where a path starts. -/
def origin (path : String) : Place := if path.startsWith "/" then .outer else .top

theorem find_eq (folder : Folder) (path : String) : folder.find path =
    if '\x00' ∈ path.toList then .error .nulInPath
    else if maxPathLength < path.utf8ByteSize then .error .nameTooLong
    else folder.walk (origin path) (parts [] path.toList) := rfl

theorem walk_concat (folder : Folder) (place : Place) (ps : List (List Char)) (part : List Char) :
    folder.walk place (ps ++ [part]) =
      folder.walk place ps >>= folder.enter (String.ofList part) := by
  rw [walk, List.map_append, List.foldlM_append]
  exact bind_congr fun place => by simp

/-- An empty part leads nowhere else. -/
theorem eq_of_enter_empty {place' : Place} (h : folder.enter "" place = .ok place') :
    place = place' := by
  cases place with
  | file bytes => cases h
  | outer | top | inner => exact Except.ok.inj h

/-- The path of an entry leads where its name leads from where the path of the directory has led. -/
theorem find_join (h : IsName name) (hdirectory : folder.find directory = .ok place)
    (hlength : (join directory name).utf8ByteSize ≤ maxPathLength) :
    folder.find (join directory name) =
      if '\x00' ∈ name.toList then .error .nulInPath else folder.enter name place := by
  obtain ⟨ps, hjoin, hparts⟩ := exists_parts_join h directory
  rw [find_eq] at hdirectory
  split at hdirectory
  · cases hdirectory
  next hnul =>
  split at hdirectory
  · cases hdirectory
  have hwalk : folder.walk (origin directory) ps = .ok place := by
    rcases hparts with hends | ⟨hends, -⟩
    · rw [hends, walk_concat] at hdirectory
      obtain ⟨last, hlast, hempty⟩ := bind_eq_ok_iff.1 hdirectory
      rw [hlast, eq_of_enter_empty hempty]
    · rwa [hends] at hdirectory
  have horigin : origin (join directory name) = origin directory := by
    rw [origin, startsWith_join h, origin]
  rw [find_eq, if_neg (Nat.not_lt.2 hlength), horigin, hjoin, walk_concat, hwalk,
    String.ofList_toList]
  simp only [mem_join h (c := '\x00') (by decide), hnul, false_or]
  rfl

theorem find_empty (folder : Folder) : folder.find "" = .ok .top := by
  have horigin : origin "" = .top := if_neg (by simp)
  rw [find_eq, horigin]
  simp [parts, walk, enter]

/-- In the folder itself, a name behind the path of the folder says no more than the name. -/
theorem read_join (h : IsName name) (hdirectory : folder.find directory = .ok .top)
    (hlength : (join directory name).utf8ByteSize ≤ maxPathLength) :
    folder.read (join directory name) = folder.read name := by
  have hname : join "" name = name := by simp [join]
  have hshort : (join "" name).utf8ByteSize ≤ maxPathLength := by
    rw [hname]
    exact (utf8ByteSize_le_join directory name).trans hlength
  have hfind : folder.find (join directory name) = folder.find name := by
    rw [find_join h hdirectory hlength, ← find_join h folder.find_empty hshort, hname]
  rw [read, hfind, read]

/-- The text that bytes stand for. -/
def decoded (bytes : ByteArray) : Except ReadFault String :=
  match String.fromUTF8? bytes with
  | some text => .ok text
  | none => .error .notUtf8

theorem enter_top (h : IsName name) (hlength : name.utf8ByteSize ≤ maxNameLength) :
    folder.enter name .top = folder.entry name := by
  rw [enter.eq_def]
  simp only [h.ne_empty, h.ne_point, or_self, if_false, if_neg (Nat.not_lt.2 hlength)]
  split
  case h_1 heq => cases heq
  case h_2 => exact absurd rfl h.ne_points
  case h_3 => rfl
  case h_4 htop _ => exact absurd rfl htop

/-- What a file of the folder holds is read under its name, unless the name is too long for a name
or holds what no path can hold. -/
theorem read_of_mem {bytes : ByteArray} (hnodup : (folder.map Prod.fst).Nodup) (h : IsName name)
    (hmem : (name, .file bytes) ∈ folder) (hnul : '\x00' ∉ name.toList)
    (hlength : name.utf8ByteSize ≤ maxNameLength) : folder.read name = decoded bytes := by
  have hname : join "" name = name := by simp [join]
  have hshort : (join "" name).utf8ByteSize ≤ maxPathLength := by
    rw [hname]
    exact hlength.trans (by decide)
  have hfind : folder.find name = .ok (.file bytes) := by
    rw [← hname, find_join h folder.find_empty hshort, if_neg hnul, enter_top h hlength, entry,
      (lookup_eq_some_iff hnodup).2 hmem]
  rw [read, hfind]
  rfl

/-! ### Directories -/

/-- The folder is found at the path of a directory, where `read` tells what is read at a path: each
name is listed once, and the path of an entry leads to what its name stands for. -/
structure FoundAt (read : String → Except ReadFault String) (directory : String)
    (folder : Folder) : Prop where
  nodup : (folder.map Prod.fst).Nodup
  isName : ∀ name ∈ folder.map Prod.fst, IsName name
  read_join : ∀ name ∈ folder.map Prod.fst, read (join directory name) = folder.read name

variable {read : String → Except ReadFault String}

/-- The names may be listed in any order. -/
theorem FoundAt.perm (h : folder.FoundAt read directory) (hperm : folder'.Perm folder) :
    folder'.FoundAt read directory := by
  have hmem (name : String) : name ∈ folder'.map Prod.fst ↔ name ∈ folder.map Prod.fst :=
    (hperm.map Prod.fst).mem_iff
  refine ⟨(hperm.map Prod.fst).nodup_iff.2 h.nodup, fun name hname => ?_, fun name hname => ?_⟩
  · exact h.isName name ((hmem name).1 hname)
  · rw [h.read_join name ((hmem name).1 hname), read_eq_of_perm h.nodup hperm]

/-- What is listed at a path in a folder is found there, unless a path gets too long. -/
theorem foundAt_of_list (hlist : folder.list directory = .entries content)
    (hnodup : (content.map Prod.fst).Nodup) (hnames : ∀ name ∈ content.map Prod.fst, IsName name)
    (hlength : ∀ name ∈ content.map Prod.fst,
      (join directory name).utf8ByteSize ≤ maxPathLength) :
    content.FoundAt folder.read directory := by
  refine ⟨hnodup, hnames, fun name hname => ?_⟩
  rw [list] at hlist
  split at hlist
  case h_2 hfind =>
    cases hlist
    exact Folder.read_join (hnames name hname) hfind (hlength name hname)
  case h_1 | h_5 => cases hlist
  case h_3 | h_4 =>
    cases hlist
    cases hname

end Folder

end TapeMachine
