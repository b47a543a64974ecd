import TapeMachine.Proofs.Results
import TapeMachine.Proofs.Tape.Room

/-!
# Tape — Many writes

A tape reads as it was written.  Whatever the order of the writes, however far apart they are and
whichever way each of them goes, a position reads as the symbol that was written there last, and
else as the content that the tape had at the start (`Tape.read_after_writes`).  Writes succeed as
long as they fall into an interval around the content whose cells a tape can store
(`Tape.exists_writeAll`).
-/

namespace TapeMachine.Tape

variable {t u : Tape} {ws : List (Int × Symbol)} {low high : Int}

/-- Writes symbols at positions, one after the other. -/
def writeAll (t : Tape) (ws : List (Int × Symbol)) : Except Breakdown Tape :=
  ws.foldlM (fun t w => t.write w.1 w.2) t

/-- The symbol that was written last at a position, if any was. -/
def lastAt (ws : List (Int × Symbol)) (q : Int) : Option Symbol := ws.reverse.lookup q

theorem writeAll_cons_eq_ok {w : Int × Symbol} :
    t.writeAll (w :: ws) = .ok u ↔ ∃ t', t.write w.1 w.2 = .ok t' ∧ t'.writeAll ws = .ok u := by
  rw [writeAll, List.foldlM_cons]
  exact bind_eq_ok_iff

theorem lastAt_cons (w : Int × Symbol) (ws : List (Int × Symbol)) (q : Int) :
    lastAt (w :: ws) q = (lastAt ws q).or (if q = w.1 then some w.2 else none) := by
  rw [lastAt, List.reverse_cons, List.lookup_append, lastAt, List.lookup_cons]
  by_cases hq : q = w.1
  · simp [hq]
  · simp [hq, beq_eq_false_iff_ne.2 hq]

/-- One write after the other, the last one at a position is seen there. -/
theorem read_writeAll (h : t.writeAll ws = .ok u) (q : Int) :
    u.read q = (lastAt ws q).getD (t.read q) := by
  induction ws generalizing t with
  | nil =>
      cases h
      rfl
  | cons w ws ih =>
      obtain ⟨t', hw, h⟩ := writeAll_cons_eq_ok.1 h
      rw [ih h, read_write hw, Function.update_apply, lastAt_cons]
      cases lastAt ws q with
      | some s => rfl
      | none => split <;> rfl

theorem blank_writeAll (h : t.writeAll ws = .ok u) : u.blank = t.blank := by
  induction ws generalizing t with
  | nil =>
      cases h
      rfl
  | cons w ws ih =>
      obtain ⟨t', hw, h⟩ := writeAll_cons_eq_ok.1 h
      exact (ih h).trans (blank_write hw)

theorem exists_writeAll (ht : t.Within low high) (hws : ∀ w ∈ ws, low ≤ w.1 ∧ w.1 < high)
    (hcap : high - low ≤ capacity) : ∃ u, t.writeAll ws = .ok u := by
  induction ws generalizing t with
  | nil => exact ⟨t, rfl⟩
  | cons w ws ih =>
      obtain ⟨⟨hl, hh⟩, hws⟩ := List.forall_mem_cons.1 hws
      obtain ⟨t', hw⟩ := exists_write w.2 ht hl hh hcap
      obtain ⟨u, hu⟩ := ih ((written_of_write hw).within ht hl hh) hws
      exact ⟨u, writeAll_cons_eq_ok.2 ⟨t', hw, hu⟩⟩

theorem read_ofWord (w : Word) (b : Symbol) (q : Int) :
    (ofWord w b).read q = if 0 ≤ q ∧ q < w.length then w.getD q.toNat b else b := by
  rw [read_eq, ofWord, List.getD_eq_getElem?_getD]
  grind

/-- **Tape reads follow the writes.**  Writes into an interval that holds the content and fits the
capacity succeed; and after any writes that succeed, every position reads as the symbol written
there last, else as its symbol of the content, else as the blank. -/
theorem read_after_writes (content : Word) (blank : Symbol) (ws : List (Int × Symbol)) :
    (∀ low high : Int, low ≤ 0 → content.length ≤ high → high - low ≤ capacity →
      (∀ w ∈ ws, low ≤ w.1 ∧ w.1 < high) → ∃ t, (ofWord content blank).writeAll ws = .ok t) ∧
    ∀ t, (ofWord content blank).writeAll ws = .ok t → ∀ q : Int, t.read q = (lastAt ws q).getD
      (if 0 ≤ q ∧ q < content.length then content.getD q.toNat blank else blank) := by
  refine ⟨fun low high hl hh hcap hws => ?_, fun t h q => ?_⟩
  · exact exists_writeAll (within_ofWord hl hh) hws hcap
  · rw [read_writeAll h, read_ofWord]

/-- A cell is erased, one is written to the left of the content across a gap, and one is written
twice. -/
theorem read_after_writes_gap :
    (∃ t, (ofWord ['a', 'b'] '_').writeAll [(1, '_'), (-3, 'x'), (5, 'y'), (-3, 'z')] = .ok t) ∧
    ∀ t, (ofWord ['a', 'b'] '_').writeAll [(1, '_'), (-3, 'x'), (5, 'y'), (-3, 'z')] = .ok t →
      t.read (-3) = 'z' ∧ t.read (-1) = '_' ∧ t.read 0 = 'a' ∧ t.read 1 = '_' := by
  obtain ⟨hok, hread⟩ :=
    read_after_writes ['a', 'b'] '_' [(1, '_'), (-3, 'x'), (5, 'y'), (-3, 'z')]
  refine ⟨hok (-3) 6 (by decide) (by decide) (by decide) (by decide), fun t h => ?_⟩
  exact ⟨hread t h (-3), hread t h (-1), hread t h 0, hread t h 1⟩

end TapeMachine.Tape
