import TapeMachine.Proofs.Tape.Window
import TapeMachine.Proofs.Tape.Writes
import TapeMachine.Range

/-!
# Tape — Canonical windows

The tapes that can come to be (`Tape.Made`) hold a word, and then symbols are written at positions.
What is stored of such a tape lies at positions (`Tape.Made.isPosition_of_covers`), so that whoever
can look at positions only sees all there is.

Of such tapes with the same blank the window is a normal form (`Tape.window_canonical`): two of them
have the same window exactly if they are read alike at every position, whatever either of them
stores.  And a window shows its tape as it is (`Window.Shows`).
-/

namespace TapeMachine

/-- What a window that is not empty shows of a tape: its first and its last symbol are no blanks, it
lies at positions where its symbols are read, and there are blanks around it. -/
structure Window.Shows (w : Window) (t : Tape) : Prop where
  content_ne : w.content ≠ []
  trimmed : Trimmed t.blank w.content
  isPosition : ∀ i < w.content.length, IsPosition (w.origin + i)
  read_inside : ∀ i (h : i < w.content.length), t.read (w.origin + i) = w.content[i]
  read_outside : ∀ q, q < w.origin ∨ w.origin + w.content.length ≤ q → t.read q = t.blank

namespace Tape

variable {t u : Tape} {b : Symbol} {p q : Int} {s : Symbol} {w : Word}

/-- The tapes that come to be from a word, which is no longer than positions go, by any writes at
positions. -/
def Made (b : Symbol) (t : Tape) : Prop :=
  ∃ (w : Word) (ws : List (Int × Symbol)), (w.length : Int) ≤ greatestPosition ∧
    (∀ x ∈ ws, IsPosition x.1) ∧ (ofWord w b).writeAll ws = .ok t

theorem writeAll_concat_eq_ok {ws : List (Int × Symbol)} {x : Int × Symbol} :
    t.writeAll (ws ++ [x]) = .ok u ↔ ∃ t', t.writeAll ws = .ok t' ∧ t'.write x.1 x.2 = .ok u := by
  rw [writeAll, List.foldlM_append, bind_eq_ok_iff]
  simp only [List.foldlM_cons, List.foldlM_nil, bind_pure]
  rfl

namespace Made

theorem ofWord (h : (w.length : Int) ≤ greatestPosition) : (ofWord w b).Made b :=
  ⟨w, [], h, nofun, rfl⟩

theorem write (ht : t.Made b) (hp : IsPosition p) (h : t.write p s = .ok u) : u.Made b := by
  obtain ⟨w, ws, hw, hws, hmade⟩ := ht
  refine ⟨w, ws ++ [(p, s)], hw, fun x hx => ?_, writeAll_concat_eq_ok.2 ⟨t, hmade, h⟩⟩
  rcases List.mem_append.1 hx with hx | hx
  · exact hws x hx
  · exact List.mem_singleton.1 hx ▸ hp

/-- What is true of words, and kept by writes at positions, is true of the tapes that are made. -/
theorem induction_on {I : Tape → Prop} (ht : t.Made b)
    (hword : ∀ w : Word, (w.length : Int) ≤ greatestPosition → I (Tape.ofWord w b))
    (hwrite : ∀ {t u p s}, I t → IsPosition p → t.write p s = .ok u → I u) : I t := by
  obtain ⟨w, ws, hw, hws, hmade⟩ := ht
  have hstart := hword w hw
  generalize Tape.ofWord w b = t₀ at hmade hstart
  induction ws generalizing t₀ with
  | nil =>
      cases hmade
      exact hstart
  | cons x ws ih =>
      obtain ⟨hx, hws⟩ := List.forall_mem_cons.1 hws
      obtain ⟨t₁, h₁, hmade⟩ := writeAll_cons_eq_ok.1 hmade
      exact ih hws t₁ hmade (hwrite hstart hx h₁)

theorem blank_eq (ht : t.Made b) : t.blank = b :=
  ht.induction_on (fun _ _ => rfl) fun h _ hw => (blank_write hw).trans h

theorem within (ht : t.Made b) : t.Within leastPosition (greatestPosition + 1) :=
  ht.induction_on (fun w hw => within_ofWord (by decide) (by omega)) fun h hp hw =>
    (written_of_write hw).within h hp.1 (Int.lt_add_one_of_le hp.2)

/-- Whatever is stored is stored at a position. -/
theorem isPosition_of_covers (ht : t.Made b) (h : t.Covers q) : IsPosition q :=
  ⟨(ht.within q h).1, Int.le_of_lt_add_one (ht.within q h).2⟩

/-- Tapes that are read alike at positions are read alike everywhere. -/
theorem read_eq_iff (ht : t.Made b) (hu : u.Made b) :
    t.read = u.read ↔ ∀ q, IsPosition q → t.read q = u.read q := by
  refine ⟨fun h q _ => congrFun h q, fun h => funext fun q => ?_⟩
  by_cases hq : IsPosition q
  · exact h q hq
  · rw [read_of_not_covers fun hc => hq (ht.isPosition_of_covers hc),
      read_of_not_covers fun hc => hq (hu.isPosition_of_covers hc), ht.blank_eq, hu.blank_eq]

theorem window_eq_iff (ht : t.Made b) (hu : u.Made b) :
    t.window = u.window ↔ ∀ q, IsPosition q → t.read q = u.read q := by
  rw [window_eq_window_iff (ht.blank_eq.trans hu.blank_eq.symm), ht.read_eq_iff hu]

theorem window_eq_nil_iff (ht : t.Made b) :
    t.window = ⟨0, []⟩ ↔ ∀ q, IsPosition q → t.read q = b :=
  -- An empty word makes a tape with the empty window, and is read as the blank.
  ht.window_eq_iff (u := Tape.ofWord [] b) (.ofWord (by decide)) |>.trans <| by
    simp only [read_ofWord, List.length_nil, Nat.cast_zero, List.getD_nil, ite_self]

end Made

theorem read_content (t : Tape) (q : Int) : t.read q =
    if q < t.window.origin then t.blank
    else (t.window.content[(q - t.window.origin).toNat]?).getD t.blank := by
  rw [← congrFun (read_window t) q, read_eq]
  rfl

/-- A window that is not empty shows its tape. -/
theorem Made.shows_window (ht : t.Made b) (h : t.window ≠ ⟨0, []⟩) : t.window.Shows t := by
  have hne : t.window.content ≠ [] := fun hnil =>
    h (congrArg₂ Window.mk (window_origin hnil) hnil)
  have htrimmed := window_trimmed t
  have hinside (i : Nat) (hi : i < t.window.content.length) :
      t.read (t.window.origin + i) = t.window.content[i] := by
    rw [read_content, if_neg (by omega), add_sub_cancel_left, Int.toNat_natCast,
      List.getElem?_eq_getElem hi]
    rfl
  have houtside (q : Int)
      (hq : q < t.window.origin ∨ t.window.origin + t.window.content.length ≤ q) :
      t.read q = t.blank := by
    rw [read_content]
    split
    · rfl
    · rw [List.getElem?_eq_none (by omega)]
      rfl
  -- Both ends of the window are read as no blanks, so they are stored, and so is all between.
  have hpos : 0 < t.window.content.length := List.length_pos_iff.2 hne
  have hfirst : t.Covers t.window.origin := covers_of_read_ne <| by
    rw [← read_window t]
    exact read_origin_ne hne htrimmed
  have hlast : t.Covers (t.window.origin + t.window.content.length - 1) := covers_of_read_ne <| by
    rw [← read_window t]
    exact read_end_ne hne htrimmed
  refine ⟨hne, htrimmed, fun i hi => ht.isPosition_of_covers ?_, hinside, houtside⟩
  exact ⟨by have := hfirst.1; omega, by have := hlast.2; omega⟩

/-- **Windows are canonical.**  Two tapes with the same blank, each of them made from a word by
writes, have the same window exactly if they are read alike at every position.  The window is empty,
at position 0, exactly if every position reads blank; otherwise it shows the tape. -/
theorem window_canonical (ht : t.Made b) (hu : u.Made b) :
    (t.window = u.window ↔ ∀ q, IsPosition q → t.read q = u.read q) ∧
    (t.window = ⟨0, []⟩ ↔ ∀ q, IsPosition q → t.read q = b) ∧
    (t.window ≠ ⟨0, []⟩ → t.window.Shows t) :=
  ⟨ht.window_eq_iff hu, ht.window_eq_nil_iff, ht.shows_window⟩

/-- Two tapes that store different cells: one has been erased at both ends, and the other one holds
a symbol at the right place from the start. -/
theorem window_canonical_erased : ∃ t u : Tape,
    (ofWord ['_', 'a', 'b'] '_').writeAll [(2, '_'), (-2, 'c'), (-2, '_')] = .ok t ∧
    (ofWord [] '_').writeAll [(1, 'a')] = .ok u ∧ t.Made '_' ∧ u.Made '_' ∧ t.cells ≠ u.cells ∧
    t.window = u.window ∧ (∀ q, IsPosition q → t.read q = u.read q) ∧ t.window.Shows t := by
  refine ⟨⟨['_', '_', '_', 'a', '_'], -2, '_'⟩, ⟨['a'], 1, '_'⟩, rfl, rfl, ?_⟩
  have ht : (Tape.mk ['_', '_', '_', 'a', '_'] (-2) '_').Made '_' :=
    ⟨['_', 'a', 'b'], [(2, '_'), (-2, 'c'), (-2, '_')], by decide, by decide, rfl⟩
  have hu : (Tape.mk ['a'] 1 '_').Made '_' := ⟨[], [(1, 'a')], by decide, by decide, rfl⟩
  obtain ⟨hsame, -, hshows⟩ := window_canonical ht hu
  exact ⟨ht, hu, by decide, by decide, hsame.1 (by decide), hshows (by decide)⟩

end Tape

end TapeMachine
