import TapeMachine.Trace
import Mathlib.Data.List.Basic

/-!
# Program — Descriptions

The words of an entry of a trace say what its rule did, and nothing of that is lost in them: rules
with the same words write the same symbols, make the same moves and go to the same state
(`Rule.describe_eq_describe_iff`).

Symbols stand in the words as they are, and a symbol may be a comma, a space or a bracket, so no
mark can be looked for.  What decides is the place of a character.  In a list every third character
is an item, and what stands behind an item tells whether the list goes on (`further_append_inj`).  A
list without items could be taken for one whose first item is the bracket at its end, but what
follows the list is not what follows an item (`Definite`).  Words without brackets whose symbol is a
bracket could be taken for words with brackets, but then a comma and a space would start the list
(`comma_ne_listed`).
-/

namespace TapeMachine

/-- The character of a move. -/
def Move.sign : Move → Char
  | .left => 'L'
  | .right => 'R'
  | .stay => 'N'

theorem Move.letter_eq (m : Move) : m.letter = String.singleton m.sign := by
  cases m <;> rfl

theorem Move.sign_injective : Function.Injective Move.sign := by
  intro m m' h
  cases m <;> cases m' <;> simp [sign] at h ⊢

namespace Description

variable {c d : Char} {cs ds s t : List Char}

/-! ### Lists -/

/-- The items of a list that follow the first one. -/
def further (cs : List Char) : List Char := cs.flatMap fun c => [',', ' ', c]

/-- The items of a list. -/
def listed : List Char → List Char
  | [] => []
  | c :: cs => c :: further cs

@[simp] theorem further_nil : further [] = [] := rfl

@[simp] theorem further_cons (c : Char) (cs : List Char) :
    further (c :: cs) = ',' :: ' ' :: c :: further cs := rfl

theorem toList_intercalate_singleton (cs : List Char) :
    (", ".intercalate (cs.map String.singleton)).toList = listed cs := by
  induction cs with
  | nil => simp [listed]
  | cons c cs ih =>
      cases cs with
      | nil => simp [listed]
      | cons d ds =>
          rw [List.map_cons, List.map_cons, String.intercalate_cons_cons, String.toList_append,
            ← List.map_cons, ih]
          simp [listed]

/-- Further items and the bracket behind them are told apart from what follows. -/
theorem further_append_inj (h : further cs ++ ']' :: s = further ds ++ ']' :: t) :
    cs = ds ∧ s = t := by
  induction cs generalizing ds with
  | nil =>
      cases ds with
      | nil => exact ⟨rfl, by simpa using h⟩
      | cons d ds => simp at h
  | cons c cs ih =>
      cases ds with
      | nil => simp at h
      | cons d ds =>
          simp only [further_cons, List.cons_append, List.cons.injEq, true_and] at h
          obtain ⟨rfl, h⟩ := h
          obtain ⟨rfl, rfl⟩ := ih h
          exact ⟨rfl, rfl⟩

/-- A text that does not start with further items and the bracket behind them. -/
def Definite (s : List Char) : Prop := ∀ cs t, s ≠ further cs ++ ']' :: t

/-- Behind the first of further items there is a comma or the bracket. -/
theorem definite_of_ne (hcomma : d ≠ ',') (hbracket : d ≠ ']') :
    Definite (',' :: ' ' :: c :: d :: s) := by
  intro cs t h
  match cs with
  | [] => simp at h
  | [_] =>
      simp only [further_cons, further_nil, List.cons_append, List.nil_append,
        List.cons.injEq] at h
      exact hbracket h.2.2.2.1
  | _ :: _ :: _ =>
      simp only [further_cons, List.cons_append, List.cons.injEq] at h
      exact hcomma h.2.2.2.1

/-- The items and the bracket behind them are told apart from what follows. -/
theorem listed_append_inj (hs : Definite s) (ht : Definite t)
    (h : listed cs ++ ']' :: s = listed ds ++ ']' :: t) : cs = ds ∧ s = t := by
  cases cs with
  | nil =>
      cases ds with
      | nil => exact ⟨rfl, (List.cons.inj h).2⟩
      -- The bracket of the left side would be the first item of the right side.
      | cons d ds => exact absurd (List.cons.inj h).2 (hs ds t)
  | cons c cs =>
      cases ds with
      | nil => exact absurd (List.cons.inj h).2.symm (ht cs s)
      | cons d ds =>
          obtain ⟨rfl, hrest⟩ := List.cons.inj h
          obtain ⟨rfl, rfl⟩ := further_append_inj hrest
          exact ⟨rfl, rfl⟩

/-- No list starts with a comma and a space, not even one whose first item is a comma. -/
theorem comma_ne_listed : ',' :: ' ' :: s ≠ listed cs ++ ']' :: t := by
  match cs with
  | [] => simp [listed]
  | [_] => simp [listed]
  | _ :: _ :: _ => simp [listed]

/-! ### Words -/

/-- The words for one symbol and one move. -/
def plain (c : Symbol) (m : Move) (next : State) : List Char :=
  "write ".toList ++ c :: (", move ".toList ++ m.sign :: (", goto ".toList ++ next.toList))

/-- The words for lists of symbols and moves. -/
def lists (w : Word) (ms : List Move) (next : State) : List Char :=
  "write [".toList ++ (listed w ++ ("], move [".toList ++
    (listed (ms.map Move.sign) ++ ("], goto ".toList ++ next.toList))))

variable {c' : Symbol} {m m' : Move} {w w' : Word} {ms ms' : List Move} {next next' : State}

theorem plain_inj (h : plain c m next = plain c' m' next') : c = c' ∧ m = m' ∧ next = next' := by
  obtain ⟨rfl, hbehind⟩ := List.cons.inj (List.append_cancel_left h)
  obtain ⟨hm, hnext⟩ := List.cons.inj (List.append_cancel_left hbehind)
  exact ⟨rfl, Move.sign_injective hm, String.toList_inj.1 (List.append_cancel_left hnext)⟩

theorem lists_inj (h : lists w ms next = lists w' ms' next') :
    w = w' ∧ ms = ms' ∧ next = next' := by
  have hmove (s : List Char) : Definite (", move [".toList ++ s) :=
    definite_of_ne (by decide) (by decide)
  have hgoto (s : List Char) : Definite (", goto ".toList ++ s) :=
    definite_of_ne (by decide) (by decide)
  obtain ⟨rfl, hbehind⟩ := listed_append_inj (hmove _) (hmove _) (List.append_cancel_left h)
  obtain ⟨hms, hnext⟩ :=
    listed_append_inj (hgoto _) (hgoto _) (List.append_cancel_left hbehind)
  exact ⟨rfl, Move.sign_injective.list_map hms, String.toList_inj.1 (List.append_cancel_left hnext)⟩

theorem plain_ne_lists : plain c m next ≠ lists w ms next' := by
  have hlists : lists w ms next' = "write ".toList ++ '[' :: (listed w ++ ("], move [".toList ++
      (listed (ms.map Move.sign) ++ ("], goto ".toList ++ next'.toList)))) := rfl
  rw [hlists]
  intro h
  exact comma_ne_listed (List.cons.inj (List.append_cancel_left h)).2

/-- A rule is described in one of the two ways. -/
theorem toList_describe (r : Rule) :
    (∃ c m, r.write = [c] ∧ r.moves = [m] ∧ r.describe.toList = plain c m r.next) ∨
      r.describe.toList = lists r.write r.moves r.next := by
  rw [Rule.describe]
  split
  · next c m hw hm =>
      refine .inl ⟨c, m, hw, hm, ?_⟩
      simp only [toString, Char.toString, Move.letter_eq, String.toList_append,
        String.toList_singleton, List.append_assoc, List.singleton_append]
      rfl
  · refine .inr ?_
    have hmoves : r.moves.map Move.letter = (r.moves.map Move.sign).map String.singleton := by
      rw [List.map_map]
      exact List.map_congr_left fun m _ => m.letter_eq
    simp only [toString, hmoves, String.toList_append, toList_intercalate_singleton,
      List.append_assoc]
    rfl

end Description

open Description

/-- **The words of a rule tell what it does.**  Two rules are described in the same words if and
only if they write the same symbols, make the same moves and go to the same state.  They may read
different symbols, and each list may be of any length, whatever the others are.  The entries of
traces have these words, so two entries with the same words are of rules that do the same. -/
theorem Rule.describe_eq_describe_iff (r r' : Rule) :
    (r.describe = r'.describe ↔ r.write = r'.write ∧ r.moves = r'.moves ∧ r.next = r'.next) ∧
    ∀ n n' c c', (TraceEntry.capture n c r).action = (TraceEntry.capture n' c' r').action ↔
      r.write = r'.write ∧ r.moves = r'.moves ∧ r.next = r'.next := by
  have hwords : r.describe = r'.describe ↔
      r.write = r'.write ∧ r.moves = r'.moves ∧ r.next = r'.next := by
    constructor
    · intro h
      have htext : r.describe.toList = r'.describe.toList := congrArg String.toList h
      rcases toList_describe r with ⟨c, m, hc, hm, hr⟩ | hr <;>
        rcases toList_describe r' with ⟨c', m', hc', hm', hr'⟩ | hr' <;> rw [hr, hr'] at htext
      case inl.inl =>
        obtain ⟨rfl, rfl, hnext⟩ := plain_inj htext
        exact ⟨hc.trans hc'.symm, hm.trans hm'.symm, hnext⟩
      case inl.inr => exact absurd htext plain_ne_lists
      case inr.inl => exact absurd htext.symm plain_ne_lists
      case inr.inr => exact lists_inj htext
    · rintro ⟨hwrite, hmoves, hnext⟩
      rw [describe, describe, hwrite, hmoves, hnext]
  exact ⟨hwords, fun n n' c c' => hwords⟩

end TapeMachine
