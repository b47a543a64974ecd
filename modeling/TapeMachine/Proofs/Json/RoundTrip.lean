import TapeMachine.Json.Decode
import TapeMachine.Proofs.Json.Tokens
import Mathlib.Logic.Relation

/-!
# JSON — Printing and reading

**A printed document is read back** (`Json.read?_compact`).  The reader makes one turn for each
token (`Partial.Turn`).  Where a value is due, the turns over a printed value complete it and leave
what follows (`Partial.Reads`), by induction on the value; in an array and in an object, by
induction on what is still to come, with what was read before on the stack.  Each turn takes up some
of the text, so that the turns the reader allows itself are enough (`Partial.run_of_turns`).
-/

namespace TapeMachine

/-- A document of which a text can be told: every string in it names a text, and every number has
the digits of one. -/
inductive Json.Proper : Json → Prop
  | null : Proper .null
  | boolean (b : Bool) : Proper (.boolean b)
  | number {n : NumberLiteral} (h : n.Proper) : Proper (.number n)
  | string (s : String) : Proper (.string (.ok s))
  | array {items : List Json} (h : ∀ j ∈ items, Proper j) : Proper (.array items)
  | object {members : List (StringLiteral × Json)}
      (hkeys : ∀ m ∈ members, ∃ key, m.1 = .ok key) (h : ∀ m ∈ members, Proper m.2) :
      Proper (.object members)

namespace Json.Partial

open Relation

variable {p : Partial} {stack : List Frame} {j : Json} {rest : List Char}

/-- One turn of the reader, which takes a token from the text. -/
def Turn (x y : Partial × List Char) : Prop :=
  ∃ t, Token.next x.2 = .token t y.2 ∧ x.1.step t = some y.1

/-- As many turns as the text has characters are enough to read it to its end. -/
theorem run_of_turns {x : Partial × List Char} (h : ReflTransGen Turn x (⟨[], .done j⟩, []))
    {turns : Nat} (hturns : x.2.length < turns) : x.1.run turns x.2 = some j := by
  induction h using ReflTransGen.head_induction_on generalizing turns with
  | refl =>
      obtain ⟨turns, rfl⟩ := Nat.exists_eq_add_one_of_ne_zero (Nat.ne_zero_of_lt hturns)
      rfl
  | @head x y hturn _ ih =>
      obtain ⟨t, hnext, hstep⟩ := hturn
      have hlen := Token.length_next hnext
      obtain ⟨turns, rfl⟩ := Nat.exists_eq_add_one_of_ne_zero (Nat.ne_zero_of_lt hturns)
      simp only [run, hnext, hstep]
      exact ih (by omega)

/-- A value is due, and goes where the stack says; the end of an array may be due as well. -/
def Opens (p : Partial) (stack : List Frame) : Prop :=
  ∀ t, t ≠ .closeArray → p.step t = value stack t

theorem opens_value (stack : List Frame) : Opens ⟨stack, .value⟩ stack := fun _ _ => rfl

theorem opens_firstItem : Opens ⟨stack, .firstItem⟩ (.array [] :: stack) := by
  intro t ht
  cases t <;> first | rfl | exact absurd rfl ht

/-- A key is due in an object that holds the members read so far, last one first. -/
def AwaitsKey (p : Partial) (stack : List Frame) (read : List (StringLiteral × Json)) : Prop :=
  ∀ key, p.step (.string key) = some ⟨stack, .colon read key⟩

/-- Where the value is due, it is read, and what follows it is left. -/
def Reads (j : Json) : Prop :=
  ∀ p stack rest, Opens p stack → Token.Closes rest →
    ReflTransGen Turn (p, compactOnto j rest) (complete stack j, rest)

/-- A value of one token. -/
theorem reads_token {t : Token} (ht : t ≠ .closeArray)
    (hvalue : ∀ stack, value stack t = some (complete stack j))
    (hnext : ∀ rest, Token.Closes rest → Token.next (compactOnto j rest) = .token t rest) :
    Reads j := fun p stack rest hp hrest =>
  .single ⟨t, hnext rest hrest, by rw [hp t ht, hvalue]⟩

/-- The items of an array from one of them on, behind those read already. -/
theorem reads_items {items read : List Json} (h : ∀ i ∈ j :: items, Reads i)
    (hp : Opens p (.array read :: stack)) :
    ReflTransGen Turn (p, compactItems (j :: items) (']' :: rest))
      (complete stack (.array (read.reverse ++ j :: items)), rest) := by
  induction items generalizing p j read with
  | nil =>
      -- After the last item the array ends; after the others there is a comma.
      have hitem := h j List.mem_cons_self _ _ (']' :: rest) hp (by simp [Token.Closes])
      refine hitem.tail ⟨.closeArray, rfl, ?_⟩
      rw [← List.reverse_cons]
      rfl
  | cons j' items ih =>
      have hitem := h j List.mem_cons_self _ _ (',' :: compactItems (j' :: items) (']' :: rest)) hp
        (by simp [Token.Closes])
      have hitems := ih (fun i hi => h i (List.mem_cons_of_mem _ hi))
        (opens_value (.array (j :: read) :: stack))
      rw [List.reverse_cons, List.append_assoc, List.singleton_append] at hitems
      exact (hitem.tail ⟨.comma, rfl, rfl⟩).trans hitems

theorem reads_array {items : List Json} (h : ∀ j ∈ items, Reads j) : Reads (.array items) := by
  intro p stack rest hp _
  have hopen : Turn (p, compactOnto (.array items) rest)
      (⟨stack, .firstItem⟩, compactItems items (']' :: rest)) :=
    ⟨.openArray, rfl, hp .openArray nofun⟩
  refine .head hopen ?_
  cases items with
  | nil => exact .single ⟨.closeArray, rfl, rfl⟩
  | cons j items => exact reads_items h opens_firstItem

/-- A key and the colon after it. -/
theorem reads_key {read : List (StringLiteral × Json)} (key : String)
    (hp : AwaitsKey p stack read) : ReflTransGen Turn (p, literalOnto (.ok key) (':' :: rest))
      (⟨.object read (.ok key) :: stack, .value⟩, rest) := by
  have hkey : Turn (p, literalOnto (.ok key) (':' :: rest))
      (⟨stack, .colon read (.ok key)⟩, ':' :: rest) :=
    ⟨.string (.ok key), by rw [literalOnto, Token.next_quoteOnto, String.ofList_toList], hp _⟩
  exact .head hkey (.single ⟨.colon, rfl, rfl⟩)

/-- The members of an object from one of them on, behind those read already. -/
theorem reads_members {key : String} {members read : List (StringLiteral × Json)}
    (hkeys : ∀ m ∈ members, ∃ key, m.1 = .ok key) (h : ∀ m ∈ (.ok key, j) :: members, Reads m.2)
    (hp : AwaitsKey p stack read) :
    ReflTransGen Turn (p, compactMembers ((.ok key, j) :: members) ('\x7d' :: rest))
      (complete stack (.object (read.reverse ++ (.ok key, j) :: members)), rest) := by
  induction members generalizing p key j read with
  | nil =>
      have hvalue := h _ List.mem_cons_self _ _ ('\x7d' :: rest)
        (opens_value (.object read (.ok key) :: stack)) (by simp [Token.Closes])
      refine (reads_key key hp).trans (hvalue.tail ⟨.closeObject, rfl, ?_⟩)
      rw [← List.reverse_cons]
      rfl
  | cons m members ih =>
      obtain ⟨⟨key', hkey⟩, hmore⟩ := List.forall_mem_cons.1 hkeys
      obtain ⟨_, j'⟩ := m
      cases hkey
      have hvalue := h _ List.mem_cons_self _ _
        (',' :: compactMembers ((.ok key', j') :: members) ('\x7d' :: rest))
        (opens_value (.object read (.ok key) :: stack)) (by simp [Token.Closes])
      have hmembers := ih (p := ⟨stack, .key ((.ok key, j) :: read)⟩) hmore
        (fun m hm => h m (List.mem_cons_of_mem _ hm)) (fun _ => rfl)
      rw [List.reverse_cons, List.append_assoc, List.singleton_append] at hmembers
      exact (reads_key key hp).trans ((hvalue.tail ⟨.comma, rfl, rfl⟩).trans hmembers)

theorem reads_object {members : List (StringLiteral × Json)}
    (hkeys : ∀ m ∈ members, ∃ key, m.1 = .ok key) (h : ∀ m ∈ members, Reads m.2) :
    Reads (.object members) := by
  intro p stack rest hp _
  have hopen : Turn (p, compactOnto (.object members) rest)
      (⟨stack, .firstKey⟩, compactMembers members ('\x7d' :: rest)) :=
    ⟨.openObject, rfl, hp .openObject nofun⟩
  refine .head hopen ?_
  cases members with
  | nil => exact .single ⟨.closeObject, rfl, rfl⟩
  | cons m members =>
      obtain ⟨⟨key, hkey⟩, hmore⟩ := List.forall_mem_cons.1 hkeys
      obtain ⟨_, j⟩ := m
      cases hkey
      have hfirst : AwaitsKey ⟨stack, .firstKey⟩ stack [] := fun _ => rfl
      exact reads_members hmore h hfirst

theorem reads_of_proper (h : j.Proper) : Reads j := by
  induction h with
  | null => exact reads_token (t := .null) nofun (fun _ => rfl) fun _ _ => rfl
  | boolean b =>
      refine reads_token (t := .boolean b) nofun (fun _ => rfl) fun _ _ => ?_
      cases b <;> rfl
  | number h =>
      exact reads_token (t := .number _) nofun (fun _ => rfl) fun _ hrest =>
        Token.next_numberOnto h hrest
  | string s =>
      refine reads_token (t := .string (.ok s)) nofun (fun _ => rfl) fun _ _ => ?_
      rw [compactOnto, literalOnto, Token.next_quoteOnto, String.ofList_toList]
  | array _ ih => exact reads_array ih
  | object hkeys _ ih => exact reads_object hkeys ih

end Json.Partial

namespace Json

variable {j : Json}

/-- **A printed document is read back.** -/
theorem read?_compact (h : j.Proper) : read? j.compact.toList = some j := by
  rw [read?, compact, String.toList_ofList]
  exact Partial.run_of_turns (x := (.start, compactOnto j []))
    (Partial.reads_of_proper h _ _ _ (Partial.opens_value []) nofun) (Nat.lt_succ_self _)

/-- A printed document stands for what the document does. -/
theorem decodeText_compact {α : Type} (decode : Decoder α) (h : j.Proper) :
    decodeText decode j.compact = decode j := by
  rw [decodeText, read?_compact h]

end Json

end TapeMachine
