import TapeMachine.Proofs.Ideal
import TapeMachine.Proofs.Steps
import TapeMachine.Proofs.Tape.Cells

/-!
# Program — Strips

What a program with one tape does, told on a finite strip of the tape with blanks around it
(`Strip`).  A step works on the cell under the head and goes to a neighbour of it on the strip
(`Strip.Step`), so a strip neither grows nor shrinks; a strip with enough blanks at its ends has
room for the whole run.  A program that keeps its state while it passes over a word goes to the end
of it (`Strip.sweep_right`, `Strip.sweep_left`).

A step on a strip is a step of the ideal machine (`Strip.Step.idealNext?_ideal`), and the ideal
machine never leaves a strip on which the program goes on (`Strip.idealAfter_of_reachesIn`).
-/

namespace TapeMachine

/-- In a state and at a symbol, a program with one tape writes a symbol, makes a move and goes to a
state. -/
def Program.Does (p : Program) (s : State) (x y : Symbol) (m : Move) (s' : State) : Prop :=
  p.firstRule s [x] = some ⟨s, [x], [y], [m], s'⟩

instance (p : Program) (s : State) (x y : Symbol) (m : Move) (s' : State) :
    Decidable (p.Does s x y m s') := inferInstanceAs (Decidable (_ = _))

/-- A state, and a strip of tape with a head on it: the cells to the left of the head, the nearest
one first, and those from the head on to the right. -/
structure Strip where
  state : State
  left : Word
  right : Word

namespace Strip

/-- The strip with the head on the first cell of a word that is written from right to left. -/
def leftward (s : State) : (w : Word) → (r : Word) → Strip
  | [], r => ⟨s, [], r⟩
  | x :: l, r => ⟨s, l, x :: r⟩

/-- The cells from left to right. -/
def cells (t : Strip) : Word := t.left.reverse ++ t.right

/-- One step on a strip, from which the head must not fall. -/
inductive Step (p : Program) : Strip → Strip → Prop where
  | right {s s' : State} {x y : Symbol} {l r : Word} (h : p.Does s x y .right s') :
      Step p ⟨s, l, x :: r⟩ ⟨s', y :: l, r⟩
  | left {s s' : State} {x y z : Symbol} {l r : Word} (h : p.Does s x y .left s') :
      Step p ⟨s, z :: l, x :: r⟩ ⟨s', l, z :: y :: r⟩
  | stay {s s' : State} {x y : Symbol} {l r : Word} (h : p.Does s x y .stay s') :
      Step p ⟨s, l, x :: r⟩ ⟨s', l, y :: r⟩

/-- Any number of steps on a strip. -/
abbrev Reaches (p : Program) : Strip → Strip → Prop := Relation.ReflTransGen (Step p)

/-- So many steps on a strip. -/
abbrev ReachesIn (p : Program) : Nat → Strip → Strip → Prop := InSteps (Step p)

variable {p : Program} {t u : Strip} {s s' : State} {x y : Symbol} {l r w : Word} {n : Nat}

instance : Trans (Reaches p) (Reaches p) (Reaches p) := ⟨Relation.ReflTransGen.trans⟩

/-- No rule matches at the head. -/
def Stuck (p : Program) (t : Strip) : Prop :=
  ∃ x r, t.right = x :: r ∧ p.firstRule t.state [x] = none

theorem stuck_of_firstRule (h : p.firstRule s [x] = none) : Stuck p ⟨s, l, x :: r⟩ := ⟨x, r, rfl, h⟩

/-- No rule is for the state. -/
theorem stuck_of_idle (h : ∀ r ∈ p.rules, r.state ≠ s) (hr : r ≠ []) : Stuck p ⟨s, l, r⟩ := by
  obtain ⟨x, r, rfl⟩ := List.exists_cons_of_ne_nil hr
  exact stuck_of_firstRule (List.find?_eq_none.mpr fun r hr => by simp [h r hr])

/-! ### Steps and sweeps -/

theorem reachesIn_right (h : p.Does s x y .right s') :
    ReachesIn p 1 ⟨s, l, x :: r⟩ ⟨s', y :: l, r⟩ := .single (.right h)

theorem reachesIn_left (h : p.Does s x y .left s') (hw : w ≠ []) :
    ReachesIn p 1 (leftward s (x :: w) r) (leftward s' w (y :: r)) := by
  obtain ⟨z, w, rfl⟩ := List.exists_cons_of_ne_nil hw
  exact .single (.left h)

theorem reachesIn_stay (h : p.Does s x y .stay s') :
    ReachesIn p 1 ⟨s, l, x :: r⟩ ⟨s', l, y :: r⟩ := .single (.stay h)

theorem reaches_right (h : p.Does s x y .right s') :
    Reaches p ⟨s, l, x :: r⟩ ⟨s', y :: l, r⟩ := (reachesIn_right h).reflTransGen

theorem reaches_left (h : p.Does s x y .left s') (hw : w ≠ []) :
    Reaches p (leftward s (x :: w) r) (leftward s' w (y :: r)) := (reachesIn_left h hw).reflTransGen

theorem reaches_stay (h : p.Does s x y .stay s') :
    Reaches p ⟨s, l, x :: r⟩ ⟨s', l, y :: r⟩ := (reachesIn_stay h).reflTransGen

variable {α : Type} {f g : α → Symbol} {xs : List α}

/-- A program passes over a word to the right, with one step for each symbol. -/
theorem reachesIn_sweep_right (h : ∀ a ∈ xs, p.Does s (f a) (g a) .right s) :
    ReachesIn p xs.length ⟨s, l, xs.map f ++ r⟩ ⟨s, (xs.map g).reverse ++ l, r⟩ := by
  induction xs generalizing l with
  | nil => exact .refl _
  | cons a xs ih =>
      rw [List.forall_mem_cons] at h
      rw [List.map_cons, List.map_cons, List.reverse_cons, List.append_assoc, List.length_cons,
        Nat.add_comm]
      exact (reachesIn_right h.1).trans (ih h.2)

theorem sweep_right_of_mem (h : ∀ a ∈ xs, p.Does s (f a) (g a) .right s) :
    Reaches p ⟨s, l, xs.map f ++ r⟩ ⟨s, (xs.map g).reverse ++ l, r⟩ :=
  (reachesIn_sweep_right h).reflTransGen

/-- A program passes to the right over a word that is told from right to left. -/
theorem sweep_right (h : ∀ a, p.Does s (f a) (g a) .right s) :
    Reaches p ⟨s, l, (xs.map f).reverse ++ r⟩ ⟨s, xs.map g ++ l, r⟩ := by
  have hsweep := sweep_right_of_mem (l := l) (r := r) fun a (_ : a ∈ xs.reverse) => h a
  rwa [List.map_reverse, List.map_reverse, List.reverse_reverse] at hsweep

/-- A program passes to the left over a word that is told from right to left. -/
theorem sweep_left (h : ∀ a, p.Does s (f a) (g a) .left s) (hl : l ≠ []) :
    Reaches p (leftward s (xs.map f ++ l) r) (leftward s l ((xs.map g).reverse ++ r)) := by
  induction xs generalizing r with
  | nil => exact .refl
  | cons a xs ih =>
      rw [List.map_cons, List.map_cons, List.reverse_cons, List.append_assoc]
      exact (reaches_left (h a) (by simp [hl])).trans ih

/-- A program passes to the left over a word that is told from left to right. -/
theorem sweep_back (h : ∀ a, p.Does s (f a) (g a) .left s) (hl : l ≠ []) :
    Reaches p (leftward s ((xs.map f).reverse ++ l) r) (leftward s l (xs.map g ++ r)) := by
  have hsweep : Reaches p (leftward s (xs.reverse.map f ++ l) r)
      (leftward s l ((xs.reverse.map g).reverse ++ r)) := sweep_left h hl
  rwa [List.map_reverse, List.map_reverse, List.reverse_reverse] at hsweep

theorem replicate_append_cons (n : Nat) (x : Symbol) (w : Word) :
    List.replicate n x ++ x :: w = List.replicate (n + 1) x ++ w := by
  rw [List.replicate_succ', List.append_assoc]
  rfl

/-- A program passes over a word of one symbol to the right. -/
theorem sweep_right_replicate (h : p.Does s x y .right s) (n : Nat) :
    Reaches p ⟨s, l, List.replicate n x ++ r⟩ ⟨s, List.replicate n y ++ l, r⟩ := by
  have hsweep : Reaches p ⟨s, l, ((List.replicate n ()).map fun _ => x).reverse ++ r⟩
      ⟨s, (List.replicate n ()).map (fun _ => y) ++ l, r⟩ :=
    sweep_right fun _ => h
  rwa [List.map_replicate, List.map_replicate, List.reverse_replicate] at hsweep

/-- A program passes over a word of one symbol to the left. -/
theorem sweep_left_replicate (h : p.Does s x y .left s) (n : Nat) (hl : l ≠ []) :
    Reaches p (leftward s (List.replicate n x ++ l) r)
      (leftward s l (List.replicate n y ++ r)) := by
  have hsweep : Reaches p (leftward s ((List.replicate n ()).map (fun _ => x) ++ l) r)
      (leftward s l (((List.replicate n ()).map fun _ => y).reverse ++ r)) :=
    sweep_left (fun _ => h) hl
  rwa [List.map_replicate, List.map_replicate, List.reverse_replicate] at hsweep

/-! ### Strips and the ideal machine -/

/-- The ideal configuration that a strip shows from position `low` onwards, with blanks around. -/
def ideal (b : Symbol) (low : Int) (t : Strip) : IdealConfiguration :=
  ⟨t.state, [⟨(Tape.mk t.cells low b).read, low + t.left.length⟩]⟩

theorem Step.length_eq (h : Step p t u) : u.cells.length = t.cells.length := by
  cases h <;> simp [cells]

theorem read_head (b : Symbol) (low : Int) (l : Word) (x : Symbol) (r : Word) :
    (Tape.mk (l.reverse ++ x :: r) low b).read (low + l.length) = x := by
  rw [Tape.read_eq, if_neg (by simp)]
  simp

theorem update_head (b : Symbol) (low : Int) (l : Word) (x y : Symbol) (r : Word) :
    Function.update (Tape.mk (l.reverse ++ x :: r) low b).read (low + l.length) y =
      (Tape.mk (l.reverse ++ y :: r) low b).read := by
  funext q
  simp only [Function.update_apply, Tape.read_eq]
  grind

theorem symbols_ideal (b : Symbol) (low : Int) (s : State) (l : Word) (x : Symbol) (r : Word) :
    (ideal b low ⟨s, l, x :: r⟩).symbols = [x] :=
  congrArg (· :: []) (read_head b low l x r)

theorem idealNext?_of_does {m : Move} (h : p.Does s x y m s') (b : Symbol) (low : Int) :
    p.idealNext? (ideal b low ⟨s, l, x :: r⟩) =
      some ⟨s', [⟨(Tape.mk (l.reverse ++ y :: r) low b).read,
        m.destination (low + l.length)⟩]⟩ := by
  have hrule : p.firstRule (ideal b low ⟨s, l, x :: r⟩).state [x] = _ := h
  rw [Program.idealNext?, symbols_ideal, hrule, Option.map_some, ← update_head b low l x y r]
  rfl

/-- **A step on a strip is a step of the ideal machine.** -/
theorem Step.idealNext?_ideal (h : Step p t u) (b : Symbol) (low : Int) :
    p.idealNext? (t.ideal b low) = some (u.ideal b low) := by
  cases h with
  | right h =>
      rw [idealNext?_of_does h]
      simp [ideal, cells, Move.destination, add_assoc]
  | left h =>
      rw [idealNext?_of_does h]
      simp [ideal, cells, Move.destination, ← add_assoc]
  | stay h =>
      rw [idealNext?_of_does h]
      simp [ideal, cells, Move.destination]

/-- The ideal machine comes in so many steps to where a program comes on a strip, and shows strips
that the program comes to until then. -/
theorem idealAfter_of_reachesIn {b : Symbol} {low : Int} (hstart : p.idealStart = t.ideal b low)
    (h : ReachesIn p n t u) : p.idealAfter n = some (u.ideal b low) ∧
      ∀ k ≤ n, ∃ v, Reaches p t v ∧ p.idealAfter k = some (v.ideal b low) := by
  induction h with
  | refl t =>
      have h : p.idealAfter 0 = some (t.ideal b low) := congrArg some hstart
      refine ⟨h, fun k hk => ?_⟩
      obtain rfl : k = 0 := by omega
      exact ⟨t, .refl, h⟩
  | @tail n t u v htu hstep ih =>
      obtain ⟨hn, hall⟩ := ih hstart
      have hv : p.idealAfter (n + 1) = some (v.ideal b low) := by
        rw [Program.idealAfter, hn, Option.bind_some, hstep.idealNext?_ideal]
      refine ⟨hv, fun k hk => ?_⟩
      rcases Nat.lt_or_ge n k with hlt | hge
      · obtain rfl : k = n + 1 := by omega
        exact ⟨v, htu.reflTransGen.tail hstep, hv⟩
      · exact hall k hge

theorem length_eq_of_reaches (h : Reaches p t u) : u.cells.length = t.cells.length := by
  induction h with
  | refl => rfl
  | tail _ hstep ih => exact hstep.length_eq.trans ih

/-- A head is on its strip, or just to the right of it. -/
theorem headsWithin_ideal (b : Symbol) (low : Int) (t : Strip) :
    (t.ideal b low).HeadsWithin low (low + t.cells.length + 1) := by
  intro u hu
  obtain rfl := List.mem_singleton.mp hu
  simp only [cells, List.length_append, List.length_reverse]
  omega

theorem firstRule_of_stuck (h : Stuck p t) (b : Symbol) (low : Int) :
    p.firstRule (t.ideal b low).state (t.ideal b low).symbols = none := by
  obtain ⟨s, l, r⟩ := t
  obtain ⟨x, r, rfl, hnone⟩ := h
  rw [symbols_ideal]
  exact hnone

end Strip

end TapeMachine
