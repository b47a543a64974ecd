import TapeMachine.Program
import Mathlib.Tactic

/-!
# Ideal machine

The machine with one or more tapes of the textbooks.  A tape is a total function from the integers
to symbols, and a head is an integer; nothing is stored, nothing overflows, and a head goes as far
as it is told to.  In each step the machine takes the first rule, in the order of the program, for
its state and the symbols under its heads; it writes, moves and goes to the next state.

`Program.idealAfter p n` is the configuration after `n` steps, if there are that many.  A head is
never further from where it started than steps have been made (`Program.head_idealAfter`).
-/

namespace TapeMachine

/-- Where a move takes a head on a tape without ends: one position to the left, one position to the
right, or nowhere. -/
def Move.destination : Move → Int → Int
  | .left, h => h - 1
  | .right, h => h + 1
  | .stay, h => h

/-- The first rule, in the order of the program, for a state and the symbols read. -/
def Program.firstRule (p : Program) (s : State) (w : Word) : Option Rule :=
  p.rules.find? fun r => r.state = s ∧ r.read = w

/-- A tape, as the symbol at each position, and a head. -/
structure IdealTrack where
  cells : Int → Symbol
  head : Int

namespace IdealTrack

/-- A word from position 0 onwards, with blanks around it. -/
def ofWord (b : Symbol) (content : Word) (head : Int) : IdealTrack :=
  ⟨fun q => if q < 0 then b else content.getD q.toNat b, head⟩

/-- The symbol under the head. -/
def symbol (t : IdealTrack) : Symbol := t.cells t.head

/-- Writes a symbol under the head and then moves the head. -/
def apply (t : IdealTrack) (s : Symbol) (m : Move) : IdealTrack :=
  ⟨Function.update t.cells t.head s, m.destination t.head⟩

end IdealTrack

/-- A state, and the tapes with their heads. -/
structure IdealConfiguration where
  state : State
  tracks : List IdealTrack

namespace IdealConfiguration

variable {c : IdealConfiguration} {low high : Int}

/-- The symbols under the heads. -/
def symbols (c : IdealConfiguration) : Word := c.tracks.map (·.symbol)

/-- The tapes. -/
def tapes (c : IdealConfiguration) : List (Int → Symbol) := c.tracks.map (·.cells)

/-- The positions of the heads. -/
def heads (c : IdealConfiguration) : List Int := c.tracks.map (·.head)

/-- Writes and moves on each tape as a rule says, and goes to its next state. -/
def apply (c : IdealConfiguration) (r : Rule) : IdealConfiguration :=
  ⟨r.next, List.zipWith3 IdealTrack.apply c.tracks r.write r.moves⟩

/-- Every head lies between `low`, where one may be, and `high`. -/
def HeadsWithin (low high : Int) (c : IdealConfiguration) : Prop :=
  ∀ t ∈ c.tracks, low ≤ t.head ∧ t.head < high

/-- A track after a step is one from before it, written and moved on. -/
theorem exists_of_mem_zipWith3 {ts : List IdealTrack} {ws : Word} {ms : List Move} {t : IdealTrack}
    (h : t ∈ List.zipWith3 IdealTrack.apply ts ws ms) : ∃ u ∈ ts, ∃ s m, t = u.apply s m := by
  induction ts generalizing ws ms with
  | nil => simp [List.zipWith3] at h
  | cons u ts ih =>
      cases ws with
      | nil => simp [List.zipWith3] at h
      | cons s ws =>
          cases ms with
          | nil => simp [List.zipWith3] at h
          | cons m ms =>
              rcases List.mem_cons.mp h with rfl | h
              · exact ⟨u, List.mem_cons_self, s, m, rfl⟩
              · obtain ⟨v, hv, hs⟩ := ih h
                exact ⟨v, List.mem_cons_of_mem _ hv, hs⟩

/-- One step takes each head at most one position further. -/
theorem HeadsWithin.apply (h : c.HeadsWithin low high) (r : Rule) :
    (c.apply r).HeadsWithin (low - 1) (high + 1) := by
  intro t ht
  obtain ⟨u, hu, s, m, rfl⟩ := exists_of_mem_zipWith3 ht
  have := h u hu
  cases m <;> simp only [IdealTrack.apply, Move.destination] <;> omega

end IdealConfiguration

namespace Program

variable {p : Program} {c : IdealConfiguration} {n : Nat} {low high : Int}

/-- The ideal configuration in which a program starts. -/
def idealStart (p : Program) : IdealConfiguration :=
  ⟨p.initial, List.zipWith (IdealTrack.ofWord p.blank) p.tapes p.heads⟩

/-- The ideal configuration after one more step, if a rule matches. -/
def idealNext? (p : Program) (c : IdealConfiguration) : Option IdealConfiguration :=
  (p.firstRule c.state c.symbols).map c.apply

/-- The ideal configuration after so many steps, if there are that many. -/
def idealAfter (p : Program) : Nat → Option IdealConfiguration
  | 0 => some p.idealStart
  | n + 1 => (p.idealAfter n).bind p.idealNext?

/-- After so many steps, no head is further away than that from where the heads started. -/
theorem head_idealAfter (h : p.idealStart.HeadsWithin low high) (hc : p.idealAfter n = some c) :
    c.HeadsWithin (low - n) (high + n) := by
  induction n generalizing c with
  | zero =>
      cases hc
      simpa using h
  | succ n ih =>
      obtain ⟨d, hd, hnext⟩ := Option.bind_eq_some_iff.mp hc
      obtain ⟨r, -, rfl⟩ := Option.map_eq_some_iff.mp hnext
      have := (ih hd).apply r
      rw [Nat.cast_succ]
      rwa [sub_sub, add_assoc] at this

end Program

end TapeMachine
