import TapeMachine.Text.Blank
import Mathlib.Data.List.TakeWhile

/-!
# Text — White space at the ends of texts

`trim` takes the white space from both ends of a text and nothing else (`trim_append_append`,
`exists_eq_trim`, `trim_eq_self_iff`).
-/

namespace TapeMachine

variable {u w w' : List Char}

theorem trim_append (hw : ∀ c ∈ w, isWhiteSpace c) : trim (w ++ u) = trim u := by
  rw [trim, List.dropWhile_append_of_pos hw, trim]

/-- White space at the end does not count. -/
theorem trim_append_right (hw : ∀ c ∈ w, isWhiteSpace c) : trim (u ++ w) = trim u := by
  have hreverse : ∀ c ∈ w.reverse, isWhiteSpace c := fun c hc => hw c (List.mem_reverse.1 hc)
  rw [trim, trim, List.dropWhile_append]
  split
  · next hu =>
      rw [List.isEmpty_iff.1 hu, List.dropWhile_eq_nil_iff.2 hw]
  · rw [List.reverse_append, List.dropWhile_append_of_pos hreverse]

theorem trim_append_append (hw : ∀ c ∈ w, isWhiteSpace c) (hw' : ∀ c ∈ w', isWhiteSpace c) :
    trim (w ++ (u ++ w')) = trim u := by
  rw [trim_append hw, trim_append_right hw']

/-- What is taken is white and stands at the ends. -/
theorem exists_eq_trim (u : List Char) : ∃ w w', (∀ c ∈ w, isWhiteSpace c) ∧
    (∀ c ∈ w', isWhiteSpace c) ∧ u = w ++ (trim u ++ w') := by
  let v := u.dropWhile isWhiteSpace
  have hu : u = u.takeWhile isWhiteSpace ++ v := List.takeWhile_append_dropWhile.symm
  have hv : v = trim u ++ (v.reverse.takeWhile isWhiteSpace).reverse := by
    rw [trim, ← List.reverse_append, List.takeWhile_append_dropWhile, List.reverse_reverse]
  refine ⟨u.takeWhile isWhiteSpace, (v.reverse.takeWhile isWhiteSpace).reverse,
    fun c hc => List.mem_takeWhile_imp hc, fun c hc => ?_, ?_⟩
  · exact List.mem_takeWhile_imp (List.mem_reverse.1 hc)
  · rw [← hv, ← hu]

/-- There is nothing to be taken from what is left. -/
theorem trim_trim (u : List Char) : trim (trim u) = trim u := by
  obtain ⟨w, w', hw, hw', hu⟩ := exists_eq_trim u
  exact (trim_append_append hw hw').symm.trans (congrArg trim hu).symm

theorem mem_of_mem_trim {c : Char} (h : c ∈ trim u) : c ∈ u := by
  obtain ⟨w, w', -, -, hu⟩ := exists_eq_trim u
  rw [hu]
  exact List.mem_append_right _ (List.mem_append_left _ h)

/-- Nothing is dropped where nothing of the kind starts. -/
theorem dropWhile_eq_self {p : Char → Bool} (h : ∀ c ∈ u.head?, p c = false) :
    u.dropWhile p = u := by
  cases u with
  | nil => rfl
  | cons c u => exact List.dropWhile_cons_of_neg (by simp [h c rfl])

/-- Nothing is taken where nothing of the kind starts. -/
theorem takeWhile_eq_nil {p : Char → Bool} (h : ∀ c ∈ u.head?, p c = false) :
    u.takeWhile p = [] := by
  cases u with
  | nil => rfl
  | cons c u => exact List.takeWhile_cons_of_neg (by simp [h c rfl])

theorem head_of_dropWhile_eq_self (h : u.dropWhile isWhiteSpace = u) :
    ∀ c ∈ u.head?, isWhiteSpace c = false := by
  cases u with
  | nil => rintro _ ⟨⟩
  | cons c u =>
      rintro _ ⟨⟩
      by_contra hc
      have hle := (List.dropWhile_sublist isWhiteSpace (l := u)).length_le
      rw [List.dropWhile_cons_of_pos (by simpa using hc)] at h
      rw [h, List.length_cons] at hle
      omega

/-- The texts from which nothing is taken are those with nothing white at their ends. -/
theorem trim_eq_self_iff : trim u = u ↔
    (∀ c ∈ u.head?, isWhiteSpace c = false) ∧ ∀ c ∈ u.getLast?, isWhiteSpace c = false := by
  constructor
  · intro h
    have hlen : u.length ≤ (u.dropWhile isWhiteSpace).length :=
      calc u.length = (trim u).length := by rw [h]
        _ ≤ (u.dropWhile isWhiteSpace).reverse.length := by
            rw [trim, List.length_reverse]
            exact (List.dropWhile_sublist _).length_le
        _ = (u.dropWhile isWhiteSpace).length := List.length_reverse
    have hself : u.dropWhile isWhiteSpace = u := (List.dropWhile_sublist _).eq_of_length_le hlen
    rw [trim, hself, List.reverse_eq_iff] at h
    refine ⟨head_of_dropWhile_eq_self hself, ?_⟩
    rw [← List.head?_reverse]
    exact head_of_dropWhile_eq_self h
  · rintro ⟨hhead, hlast⟩
    rw [← List.head?_reverse] at hlast
    rw [trim, dropWhile_eq_self hhead, dropWhile_eq_self hlast, List.reverse_reverse]

end TapeMachine
