import TapeMachine.Proofs.Json.RoundTrip
import TapeMachine.Proofs.Results

/-!
# JSON — Fields

A document *carries* a value for a decoder if it can be printed and the decoder makes that value of
it (`Carries`); then its text stands for the value (`Carries.decodeText`).  There is one lemma for
each kind of value that a field can have.  For a structure, `Given` relates its fields to the
members of a record in declaration order, where a field may be left out that has its default; **such
a record carries the structure** (`Carries.record`), as long as no two fields have one name.
-/

namespace TapeMachine

/-! ### Numbers -/

namespace NumberLiteral

theorem quantity?_ofNat {n : Nat} (h : n ≤ greatestCount) :
    (ofNat n).quantity? = some (.integer n) := by
  simp [quantity?, ofNat, isWhole, Nat.ofDigitChars_ten_toDigits, h]

theorem quantity?_ofInt {i : Int} (hlow : leastPosition ≤ i) (hhigh : i ≤ greatestPosition) :
    (ofInt i).quantity? = some (.integer i) := by
  have hvalue : Nat.ofDigitChars 10 (ofInt i).whole 0 = i.natAbs := Nat.ofDigitChars_ten_toDigits
  by_cases hneg : i < 0
  · have hsign : (ofInt i).negative = true := decide_eq_true hneg
    have hwhole : (ofInt i).isWhole = true := rfl
    have hpos : 0 < i.natAbs := by omega
    have hi : -(i.natAbs : Int) = i := by omega
    simp only [quantity?, hvalue, hwhole, hsign, hi, hlow, hpos, decide_true, Bool.not_true,
      Bool.and_true, Bool.and_false, Bool.false_and, Bool.false_eq_true, if_false, if_true]
  · obtain ⟨n, rfl⟩ := Int.eq_ofNat_of_zero_le (Int.not_lt.1 hneg)
    refine quantity?_ofNat ?_
    simp only [greatestPosition, greatestCount] at *
    omega

end NumberLiteral

namespace Json

variable {α β : Type}

/-- For the decoder, the document is one of the value, and it can be printed. -/
structure Carries (decode : Decoder α) (j : Json) (a : α) : Prop where
  proper : j.Proper
  decode_eq : decode j = .ok a

/-- The text of a document stands for the value that the document carries. -/
theorem Carries.decodeText {decode : Decoder α} {j : Json} {a : α} (h : Carries decode j a) :
    decodeText decode j.compact = .ok a :=
  (decodeText_compact decode h.proper).trans h.decode_eq

/-! ### Values of one field -/

namespace Carries

theorem text (s : String) : Carries Decode.string (.text s) s := ⟨.string s, rfl⟩

theorem chars (cs : List Char) : Carries Decode.chars (.chars cs) cs :=
  ⟨.string _, by simp [Decode.chars, Decode.string, Json.chars, Json.text, Except.map,
    String.toList_ofList]⟩

theorem char (c : Char) : Carries Decode.char (.char c) c :=
  ⟨.string _, by simp [Decode.char, Json.char, Json.text, String.toList_singleton]⟩

theorem boolean (b : Bool) : Carries Decode.bool (.boolean b) b := ⟨.boolean b, rfl⟩

theorem nat {n : Nat} (h : n ≤ greatestCount) : Carries Decode.count (.nat n) n := by
  have hle : (n : Int) ≤ greatestCount := Int.ofNat_le.2 h
  refine ⟨.number (.ofDigits _ _), ?_⟩
  simp [Decode.count, Decode.integer, Json.nat, NumberLiteral.quantity?_ofNat h, hle, Except.map]

theorem int {i : Int} (h : leastPosition ≤ i ∧ i ≤ greatestPosition) :
    Carries Decode.position (.int i) i := by
  refine ⟨.number (.ofDigits _ _), ?_⟩
  simp [Decode.position, Decode.integer, Json.int, NumberLiteral.quantity?_ofInt h.1 h.2, h]

theorem list {decode : Decoder α} {encode : α → Json} {as : List α}
    (h : ∀ a ∈ as, Carries decode (encode a) a) :
    Carries (Decode.list decode) (.list encode as) as := by
  refine ⟨.array fun j hj => ?_, ?_⟩
  · obtain ⟨a, ha, rfl⟩ := List.mem_map.1 hj
    exact (h a ha).proper
  · change (as.map encode).mapM decode = .ok as
    rw [List.mapM_map]
    exact (mapM_eq_ok (g := id) fun a ha => (h a ha).decode_eq).trans (by rw [List.map_id])

theorem optional {decode : Decoder α} {j : Json} {a : α} (h : Carries decode j a) (hj : j ≠ .null) :
    Carries (Decode.optional decode) j (some a) := by
  refine ⟨h.proper, ?_⟩
  rw [Decode.optional.eq_def]
  split
  · exact absurd rfl hj
  · rw [h.decode_eq]
    rfl

end Carries

/-! ### Structures -/

namespace Fields

/-- The names of the fields, last one first. -/
def names {β : Type} : Fields β → List String
  | .start _ => []
  | .pending before field | .filled before field _ => field.name :: before.names

/-- Members in the order of the fields, each of which carries the value of its field, or is left out
where the field has that value by default. -/
inductive Given : {β : Type} → Fields β → List (String × Json) → β → Prop
  | start {β : Type} (make : β) : Given (.start make) [] make
  | member {α β : Type} {before : Fields (α → β)} {members : List (String × Json)} {make : α → β}
      {field : Field α} {j : Json} {a : α} (h : Given before members make)
      (hj : Carries field.decode j a) :
      Given (.pending before field) (members ++ [(field.name, j)]) (make a)
  | default {α β : Type} {before : Fields (α → β)} {members : List (String × Json)} {make : α → β}
      {field : Field α} {a : α} (h : Given before members make)
      (hdefault : field.default = some a) : Given (.pending before field) members (make a)

namespace Given

variable {before : Fields (α → β)} {members : List (String × Json)} {make : α → β} {a : α}

theorem required (h : Given before members make) (name : String) {decode : Decoder α} {j : Json}
    (hj : Carries decode j a) :
    Given (before.required name decode) (members ++ [(name, j)]) (make a) := .member h hj

theorem defaulted (h : Given before members make) (name : String) (value : α) {decode : Decoder α}
    {j : Json} (hj : Carries decode j a) :
    Given (before.defaulted name decode value) (members ++ [(name, j)]) (make a) := .member h hj

theorem optional {before : Fields (Option α → β)} {make : Option α → β}
    (h : Given before members make) (name : String) {decode : Decoder α} (encode : α → Json)
    {a? : Option α} (hnull : ∀ a, encode a ≠ .null) (ha : ∀ a ∈ a?, Carries decode (encode a) a) :
    Given (before.optional name decode) (members ++ present name (a?.map encode)) (make a?) := by
  cases a? with
  | none =>
      rw [Option.map_none, present, Option.toList_none, List.map_nil, List.append_nil]
      exact .default h rfl
  | some a => exact h.defaulted name none ((ha a rfl).optional (hnull a))

/-- Only the fields are given. -/
theorem mem_names {fields : Fields β} {b : β} (h : Given fields members b) :
    ∀ m ∈ members, m.1 ∈ fields.names := by
  induction h with
  | start => exact nofun
  | member _ _ ih =>
      intro m hm
      rcases List.mem_append.1 hm with hm | hm
      · exact List.mem_cons_of_mem _ (ih m hm)
      · rw [List.mem_singleton.1 hm]
        exact List.mem_cons_self
  | default _ _ ih => exact fun m hm => List.mem_cons_of_mem _ (ih m hm)

theorem name_ne (h : Given before members make) {name : String} (hname : name ∉ before.names) :
    ∀ m ∈ members, m.1 ≠ name := by
  rintro m hm rfl
  exact hname (h.mem_names m hm)

theorem proper {fields : Fields β} {b : β} (h : Given fields members b) :
    ∀ m ∈ members, m.2.Proper := by
  induction h with
  | start => exact nofun
  | member _ hj ih =>
      intro m hm
      rcases List.mem_append.1 hm with hm | hm
      · exact ih m hm
      · rw [List.mem_singleton.1 hm]
        exact hj.proper
  | default _ _ ih => exact ih

end Given

/-- The members of a record, as an object has them. -/
def entries (members : List (String × Json)) : List (StringLiteral × Json) :=
  members.map fun (key, value) => (.ok key, value)

theorem feedMembers_append {fields fields' : Fields β} {ms ms' : List (StringLiteral × Json)}
    (h : fields.feedMembers ms = .ok fields') :
    fields.feedMembers (ms ++ ms') = fields'.feedMembers ms' := by
  induction ms generalizing fields with
  | nil =>
      cases h
      rfl
  | cons m ms ih =>
      obtain ⟨key, j⟩ := m
      cases key with
      | error => cases h
      | ok name =>
          simp only [List.cons_append, feedMembers] at h ⊢
          split at h
          · exact ih h
          · cases h

/-- Members of other names pass a field by. -/
theorem feedMembers_pending {before before' : Fields (α → β)} {field : Field α}
    {members : List (String × Json)} (hname : ∀ m ∈ members, m.1 ≠ field.name)
    (h : before.feedMembers (entries members) = .ok before') :
    (Fields.pending before field).feedMembers (entries members) = .ok (.pending before' field) := by
  induction members generalizing before with
  | nil =>
      cases h
      rfl
  | cons m members ih =>
      obtain ⟨hm, hmembers⟩ := List.forall_mem_cons.1 hname
      simp only [entries, List.map_cons, feedMembers, feed, if_neg hm.symm] at h ⊢
      split at h
      · next hfeed =>
        rw [hfeed]
        exact ih hmembers h
      · cases h

/-- The members that are given fill the fields so that the structure is finished from them. -/
theorem Given.feedMembers {fields : Fields β} {members : List (String × Json)} {b : β}
    (h : Given fields members b) (hnames : fields.names.Nodup) :
    ∃ fields', fields.feedMembers (entries members) = .ok fields' ∧ fields'.finish = .ok b := by
  induction h with
  | start make => exact ⟨.start make, rfl, rfl⟩
  | @member _ _ before members make field j a h hj ih =>
      obtain ⟨hnot, hnames⟩ := List.nodup_cons.1 hnames
      obtain ⟨before', hfeed, hfinish⟩ := ih hnames
      refine ⟨.filled before' field a, ?_, by simp [finish, hfinish, Except.map]⟩
      rw [entries, List.map_append]
      refine (feedMembers_append (feedMembers_pending (h.name_ne hnot) hfeed)).trans ?_
      simp [Fields.feedMembers, feed, hj.decode_eq]
  | @default _ _ before members make field a h hdefault ih =>
      obtain ⟨hnot, hnames⟩ := List.nodup_cons.1 hnames
      obtain ⟨before', hfeed, hfinish⟩ := ih hnames
      exact ⟨_, feedMembers_pending (h.name_ne hnot) hfeed, by simp [finish, hfinish, hdefault]⟩

end Fields

/-- **A record whose members give the fields carries the structure.** -/
theorem Carries.record {fields : Fields β} {members : List (String × Json)} {b : β} (name : String)
    (h : Fields.Given fields members b) (hnames : fields.names.Nodup) :
    Carries (fields.decoder name) (.record members) b := by
  constructor
  · refine .object ?_ ?_ <;> intro m hm <;> obtain ⟨m', hm', rfl⟩ := List.mem_map.1 hm
    · exact ⟨m'.1, rfl⟩
    · exact h.proper m' hm'
  · obtain ⟨fields', hfeed, hfinish⟩ := h.feedMembers hnames
    change fields.decoder name (.object (Fields.entries members)) = .ok b
    simp only [Fields.decoder, hfeed, hfinish]

end Json

end TapeMachine
