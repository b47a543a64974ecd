import TapeMachine.Path
import Mathlib.Data.List.Lex
import Mathlib.Data.List.TakeWhile

/-!
# Path — Names in directories

What becomes of the name of an entry when it is put behind the path of its directory (`Path.join`):
it is the last part of the new path, and the parts before it are those of the path of the directory
(`exists_parts_join`).  So the paths of two entries differ in their last component only
(`components_join`), and come in the order of the names (`before_join`).

A name has an extension if a point stands in it behind something, and the extension is what follows
the last such point (`hasExtension_iff`).
-/

namespace TapeMachine.Path

variable {directory name name' : String} {cs stem after : List Char} {ps : List (List Char)}

/-! ### Parts -/

theorem parts_append_stroke (done cs rest : List Char) :
    parts done (cs ++ '/' :: rest) = parts done cs ++ parts [] rest := by
  induction cs generalizing done with
  | nil => simp [parts]
  | cons c cs ih =>
      rw [List.cons_append, parts, parts]
      split
      · rw [ih, List.cons_append]
      · exact ih _

theorem parts_of_not_mem (h : '/' ∉ cs) (done : List Char) :
    parts done cs = [done.reverse ++ cs] := by
  induction cs generalizing done with
  | nil => simp [parts]
  | cons c cs ih =>
      rw [List.mem_cons, not_or] at h
      rw [parts, if_neg (Ne.symm h.1), ih h.2]
      simp

/-- There is a first part, and it starts with what has been read of it. -/
theorem exists_parts (done cs : List Char) : ∃ w ps, parts done cs = (done.reverse ++ w) :: ps := by
  induction cs generalizing done with
  | nil => exact ⟨[], [], by simp [parts]⟩
  | cons c cs ih =>
      rw [parts]
      split
      · exact ⟨[], parts [] cs, by simp⟩
      · obtain ⟨w, ps, h⟩ := ih (c :: done)
        exact ⟨c :: w, ps, by simp [h]⟩

/-- Only the empty path has one part and nothing in it. -/
theorem parts_ne_of_ne_nil (h : cs ≠ []) : parts [] cs ≠ [[]] := by
  obtain ⟨c, cs, rfl⟩ := List.exists_cons_of_ne_nil h
  rw [parts]
  split
  · obtain ⟨w, ps, hps⟩ := exists_parts [] cs
    simp [hps]
  · obtain ⟨w, ps, hps⟩ := exists_parts [c] cs
    simp [hps]

/-! ### Names -/

/-- A text that can stand for an entry of a directory. -/
structure IsName (name : String) : Prop where
  ne_empty : name ≠ ""
  ne_point : name ≠ "."
  ne_points : name ≠ ".."
  stroke_not_mem : '/' ∉ name.toList

instance (name : String) : Decidable (IsName name) :=
  decidable_of_iff (name ≠ "" ∧ name ≠ "." ∧ name ≠ ".." ∧ '/' ∉ name.toList)
    ⟨fun h => ⟨h.1, h.2.1, h.2.2.1, h.2.2.2⟩,
      fun h => ⟨h.ne_empty, h.ne_point, h.ne_points, h.stroke_not_mem⟩⟩

namespace IsName

theorem toList_ne_nil (h : IsName name) : name.toList ≠ [] :=
  fun e => h.ne_empty (String.toList_eq_nil_iff.1 e)

theorem toList_ne_point (h : IsName name) : name.toList ≠ ['.'] :=
  fun e => h.ne_point (String.toList_inj.1 (by simp [e]))

theorem toList_ne_points (h : IsName name) : name.toList ≠ ['.', '.'] :=
  fun e => h.ne_points (String.toList_inj.1 (by simp [e]))

theorem parts_eq (h : IsName name) : parts [] name.toList = [name.toList] :=
  parts_of_not_mem h.stroke_not_mem []

theorem not_startsWith_stroke (h : IsName name) : ¬ name.startsWith "/" = true := by
  rw [String.startsWith_string_iff]
  rintro ⟨cs, hcs⟩
  exact h.stroke_not_mem (hcs ▸ List.mem_append_left cs (by simp))

end IsName

theorem startsWith_stroke_iff {path : String} :
    path.startsWith "/" = true ↔ path.toList.head? = some '/' := by
  rw [String.startsWith_string_iff]
  cases path.toList with
  | nil => simp
  | cons c cs => simp [eq_comm]

theorem endsWith_stroke_iff {path : String} :
    path.endsWith "/" = true ↔ ∃ cs, cs ++ ['/'] = path.toList := by
  rw [String.endsWith_eq_endsWith_toSlice, String.Slice.endsWith_string_iff, String.copy_toSlice]
  rfl

/-- The path of an entry is its name, put behind the path of the directory with one stroke between
them, unless that path is empty. -/
theorem toList_join (h : IsName name) (directory : String) :
    (directory = "" ∧ join directory name = name) ∨
      (∃ cs, directory.toList = cs ++ ['/'] ∧
        (join directory name).toList = cs ++ '/' :: name.toList) ∨
      directory.toList ≠ [] ∧
        (join directory name).toList = directory.toList ++ '/' :: name.toList := by
  rw [join]
  split
  · next hd => exact .inl ⟨hd.resolve_left h.not_startsWith_stroke, rfl⟩
  · next hd =>
      have hne : directory.toList ≠ [] := fun e => hd (.inr (String.toList_eq_nil_iff.1 e))
      split
      · next hends =>
          obtain ⟨cs, hcs⟩ := endsWith_stroke_iff.1 hends
          exact .inr (.inl ⟨cs, hcs.symm, by simp [← hcs]⟩)
      · exact .inr (.inr ⟨hne, by simp⟩)

/-- The name is the last part of the path of an entry.  A stroke at the end of the path of the
directory leaves an empty part behind it there, and so does an empty path. -/
theorem exists_parts_join (h : IsName name) (directory : String) :
    ∃ ps, parts [] (join directory name).toList = ps ++ [name.toList] ∧
      (parts [] directory.toList = ps ++ [[]] ∨ parts [] directory.toList = ps ∧ ps ≠ [[]]) := by
  rcases toList_join h directory with ⟨rfl, hjoin⟩ | ⟨cs, hcs, hjoin⟩ | ⟨hne, hjoin⟩
  · exact ⟨[], by rw [hjoin, h.parts_eq, List.nil_append], .inl rfl⟩
  · refine ⟨parts [] cs, by rw [hjoin, parts_append_stroke, h.parts_eq], .inl ?_⟩
    rw [hcs, parts_append_stroke]
    rfl
  · refine ⟨parts [] directory.toList, ?_, .inr ⟨rfl, parts_ne_of_ne_nil hne⟩⟩
    rw [hjoin, parts_append_stroke, h.parts_eq]

theorem startsWith_join (h : IsName name) (directory : String) :
    (join directory name).startsWith "/" = directory.startsWith "/" := by
  rw [Bool.eq_iff_iff]
  rcases toList_join h directory with ⟨rfl, hjoin⟩ | ⟨cs, hcs, hjoin⟩ | ⟨hne, hjoin⟩
  · rw [hjoin]
    exact iff_of_false h.not_startsWith_stroke (by simp)
  · rw [startsWith_stroke_iff, startsWith_stroke_iff, hjoin, hcs]
    cases cs <;> simp
  · rw [startsWith_stroke_iff, startsWith_stroke_iff, hjoin, List.head?_append_of_ne_nil _ hne]

/-- But for the stroke between them, the characters of a path are those of its two parts. -/
theorem mem_join (h : IsName name) {c : Char} (hc : c ≠ '/') (directory : String) :
    c ∈ (join directory name).toList ↔ c ∈ directory.toList ∨ c ∈ name.toList := by
  rcases toList_join h directory with ⟨rfl, hjoin⟩ | ⟨cs, hcs, hjoin⟩ | ⟨hne, hjoin⟩
  · simp [hjoin]
  · simp [hjoin, hcs, hc]
  · simp [hjoin, hc]

theorem utf8ByteSize_le_join (directory name : String) :
    name.utf8ByteSize ≤ (join directory name).utf8ByteSize := by
  rw [join]
  split
  · exact Nat.le_refl _
  · split <;> simp only [String.utf8ByteSize_append] <;> omega

/-! ### Order -/

/-- Where a part of a path leads. -/
inductive Component where
  | root
  | current
  | parent
  | name (text : String)

namespace Component

/-- The kinds of components, in their order. -/
def rank : Component → Nat
  | .root => 0
  | .current => 1
  | .parent => 2
  | .name _ => 3

/-- Components come in the order of their kinds, and names in the order of their code points. -/
inductive Before : Component → Component → Prop where
  | rank {a b : Component} : a.rank < b.rank → Before a b
  | name {s t : String} : s < t → Before (.name s) (.name t)

/-- Where a part leads from where the parts before it have led, unless it leads nowhere else. -/
def ofPart? (part : List Char) : Option Component :=
  if part = [] ∨ part = ['.'] then none
  else if part = ['.', '.'] then some .parent
  else some (.name (String.ofList part))

/-- Where a path with these parts starts, if it says so: an empty part is the root if more parts
follow it. -/
def start : List (List Char) → List Component
  | [] => []
  | part :: parts =>
    if part = [] ∧ parts ≠ [] then [.root] else if part = ['.'] then [.current] else []

end Component

/-- The components of a path. -/
def components (path : String) : List Component :=
  Component.start (parts [] path.toList) ++ (parts [] path.toList).filterMap Component.ofPart?

/-- The order of paths: the first component in which they differ decides. -/
def Before (path path' : String) : Prop :=
  List.Lex Component.Before (components path) (components path')

namespace Component

theorem ofPart?_name (h : IsName name) : ofPart? name.toList = some (.name name) := by
  rw [ofPart?, if_neg (not_or.2 ⟨h.toList_ne_nil, h.toList_ne_point⟩), if_neg h.toList_ne_points,
    String.ofList_toList]

theorem start_name (h : IsName name) : start [name.toList] = [] := by
  simp [start, h.toList_ne_point]

/-- A name at the end changes nothing at the start. -/
theorem start_concat_name (h : IsName name) (hps : ps ≠ [[]]) :
    start (ps ++ [name.toList]) = start ps := by
  match ps with
  | [] => exact start_name h
  | [part] =>
      have hpart : part ≠ [] := fun e => hps (e ▸ rfl)
      simp [start, hpart]
  | part :: part' :: parts => simp [start]

theorem start_concat_name_eq (h : IsName name) (ps : List (List Char)) :
    start (ps ++ [name.toList]) = start (ps ++ [[]]) := by
  match ps with
  | [] => simp [start, h.toList_ne_point]
  | part :: parts => simp [start]

end Component

open Component

/-- The path of an entry has one component more than the path of its directory. -/
theorem components_join (h : IsName name) (directory : String) :
    components (join directory name) = components directory ++ [.name name] := by
  obtain ⟨ps, hjoin, hdirectory⟩ := exists_parts_join h directory
  have hlast : (ps ++ [name.toList]).filterMap ofPart? = ps.filterMap ofPart? ++ [.name name] := by
    rw [List.filterMap_append, List.filterMap_cons_some (ofPart?_name h), List.filterMap_nil]
  rw [components, components, hjoin, hlast, List.append_assoc]
  rcases hdirectory with hends | ⟨hends, hps⟩
  · have hempty : (ps ++ [[]]).filterMap ofPart? = ps.filterMap ofPart? := by
      simp [ofPart?]
    rw [hends, hempty, start_concat_name_eq h]
  · rw [hends, start_concat_name h hps]

/-- The paths of the entries of a directory come in the order of their names. -/
theorem before_join (h : IsName name) (h' : IsName name') (hlt : name < name') :
    Before (join directory name) (join directory name') := by
  rw [Before, components_join h, components_join h']
  exact List.Lex.append_left _ (.rel (.name hlt)) _

/-! ### Extensions -/

theorem fileName?_of_isName (h : IsName name) : fileName? name = some name.toList := by
  have hkept : ([name.toList].filter fun p => p ≠ [] ∧ p ≠ ['.']) = [name.toList] := by
    simp [h.toList_ne_nil, h.toList_ne_point]
  rw [fileName?, h.parts_eq, hkept, List.getLast?_singleton]
  split
  · next e => exact absurd (Option.some.inj e) h.toList_ne_points
  · rfl

/-- What follows the last point is the extension, if there is something before it. -/
theorem extension?_of_point (h : '.' ∉ after) (stem : List Char) :
    extension? (stem ++ '.' :: after) = if stem = [] then none else some after := by
  have hreverse : (stem ++ '.' :: after).reverse = after.reverse ++ '.' :: stem.reverse := by
    simp
  have hpoints : ∀ c ∈ after.reverse, decide (c ≠ '.') = true := by
    intro c hc
    exact decide_eq_true fun e => h (e ▸ List.mem_reverse.1 hc)
  have hafter : (stem ++ '.' :: after).reverse.takeWhile (· ≠ '.') = after.reverse := by
    rw [hreverse, List.takeWhile_append_of_pos hpoints]
    simp
  have hbefore : ((stem ++ '.' :: after).reverse.drop after.reverse.length).drop 1 =
      stem.reverse := by
    rw [hreverse, List.drop_left]
    rfl
  have hlength : ¬ after.length = stem.length + (after.length + 1) := by omega
  rw [extension?, hafter, hbefore]
  simp [hlength]

theorem extension?_of_not_mem (h : '.' ∉ cs) : extension? cs = none := by
  have hafter : cs.reverse.takeWhile (· ≠ '.') = cs.reverse := by
    rw [List.takeWhile_eq_self_iff]
    intro c hc
    exact decide_eq_true fun e => h (e ▸ List.mem_reverse.1 hc)
  rw [extension?, hafter]
  simp

/-- A text with a point in it is split at its last point. -/
theorem exists_eq_append_point (h : '.' ∈ cs) :
    ∃ stem after, cs = stem ++ '.' :: after ∧ '.' ∉ after := by
  obtain ⟨after, stem, hcs, hafter⟩ := List.eq_append_cons_of_mem (List.mem_reverse.2 h)
  refine ⟨stem.reverse, after.reverse, ?_, fun hmem => hafter (List.mem_reverse.1 hmem)⟩
  rw [← List.reverse_reverse cs, hcs]
  simp

/-- A name has an extension without points if and only if it is something, a point, and the
extension. -/
theorem hasExtension_iff (h : IsName name) {extension : String}
    (hextension : '.' ∉ extension.toList) :
    hasExtension name extension = true ↔
      ∃ stem, stem ≠ "" ∧ name = stem ++ "." ++ extension := by
  rw [hasExtension, fileName?_of_isName h, Option.bind_some, beq_iff_eq]
  constructor
  · intro hname
    by_cases hpoint : '.' ∈ name.toList
    · obtain ⟨stem, after, htext, hafter⟩ := exists_eq_append_point hpoint
      rw [htext, extension?_of_point hafter] at hname
      split at hname
      · cases hname
      · next hstem =>
          obtain rfl := Option.some.inj hname
          refine ⟨String.ofList stem, fun e => hstem (by simpa using e), ?_⟩
          rw [← String.toList_inj, htext]
          simp
    · rw [extension?_of_not_mem hpoint] at hname
      cases hname
  · rintro ⟨stem, hstem, rfl⟩
    have hne : stem.toList ≠ [] := fun e => hstem (String.toList_eq_nil_iff.1 e)
    have htext : (stem ++ "." ++ extension).toList = stem.toList ++ '.' :: extension.toList := by
      simp
    rw [htext, extension?_of_point hextension, if_neg hne]

end TapeMachine.Path
