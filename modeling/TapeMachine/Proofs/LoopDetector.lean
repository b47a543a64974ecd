import TapeMachine.Proofs.Configuration
import TapeMachine.Proofs.Tape.Canonical
import Mathlib.Data.Set.Card

/-!
# Loop detector

A detector is the set of the configurations that it has observed, up to what is to be seen of them.
Two configurations look alike (`Configuration.Alike`) if they are in the same state, with the same
heads, and read the same symbol at every position of every tape.  For configurations that can come
to be (`Configuration.Made`) that is to have the same fingerprint
(`Configuration.Made.fingerprint_eq_iff`).

After any calls, a detector tells of a configuration that it has been seen exactly if one that looks
like it has been observed since all was forgotten, and its size is the number of classes of
configurations that look alike among those (`LoopDetector.observe_exact`).
-/

namespace TapeMachine

namespace Configuration

variable {c d : Configuration} {b : Symbol} {r : Rule}

/-! ### Configurations that look alike -/

/-- The configurations have the same state, the same heads and as many tapes, and the same symbol at
every position of each tape. -/
structure Alike (c d : Configuration) : Prop where
  state_eq : c.state = d.state
  heads_eq : c.heads = d.heads
  read_eq : List.Forall₂ (fun t u => ∀ q, IsPosition q → t.read q = u.read q) c.tapes d.tapes

/-- What is to be seen of a configuration. -/
def look (c : Configuration) : State × List Int × List ({q : Int // IsPosition q} → Symbol) :=
  (c.state, c.heads, c.tapes.map fun t q => t.read q)

theorem alike_iff : c.Alike d ↔ c.look = d.look := by
  have htapes : (c.tapes.map fun t (q : {q : Int // IsPosition q}) => t.read q) =
      (d.tapes.map fun t (q : {q : Int // IsPosition q}) => t.read q) ↔
        List.Forall₂ (fun t u => ∀ q, IsPosition q → t.read q = u.read q) c.tapes d.tapes := by
    rw [← List.forall₂_eq_eq_eq, List.forall₂_map_left_iff, List.forall₂_map_right_iff]
    simp only [funext_iff, Subtype.forall]
  rw [look, look, Prod.mk.injEq, Prod.mk.injEq, htapes]
  exact ⟨fun h => ⟨h.state_eq, h.heads_eq, h.read_eq⟩, fun h => ⟨h.1, h.2.1, h.2.2⟩⟩

/-- To look alike is an equivalence. -/
def alike : Setoid Configuration where
  r := Alike
  iseqv := by
    refine ⟨fun c => alike_iff.2 rfl, fun h => ?_, fun h h' => ?_⟩
    · exact alike_iff.2 (alike_iff.1 h).symm
    · exact alike_iff.2 ((alike_iff.1 h).trans (alike_iff.1 h'))

/-! ### Configurations that come to be -/

/-- The configurations that come to be from tapes with the same blank, with heads at positions, by
any rules that can be applied. -/
inductive Made (b : Symbol) : Configuration → Prop
  | ofParts {s : State} {ts : List Tape} {hs : List Int} {c : Configuration}
      (hts : ∀ t ∈ ts, t.Made b) (hhs : ∀ i ∈ hs, IsPosition i) (h : ofParts s ts hs = .ok c) :
      Made b c
  | apply {c d : Configuration} {r : Rule} (hc : Made b c) (h : c.apply r = .ok d) : Made b d

/-- One tape with some content, and a head on it. -/
theorem Made.single {s : State} {w : Word} {i : Int} (hw : (w.length : Int) ≤ greatestPosition)
    (hi : IsPosition i) : Made b ⟨s, [⟨.ofWord w b, i⟩]⟩ := by
  have h : Configuration.ofParts s [.ofWord w b] [i] = .ok ⟨s, [⟨.ofWord w b, i⟩]⟩ := rfl
  exact .ofParts (List.forall_mem_singleton.2 (.ofWord hw)) (List.forall_mem_singleton.2 hi) h

theorem isPosition_apply (m : Move) (i : Int) : IsPosition (m.apply i) :=
  ⟨le_max_left _ _, max_le (by decide) (min_le_left _ _)⟩

/-- The tapes of such a configuration are made, and its heads are at positions. -/
theorem Made.tracks (hc : c.Made b) : ∀ t ∈ c.tracks, t.tape.Made b ∧ IsPosition t.head := by
  induction hc with
  | @ofParts s ts hs c hts hhs h =>
      rw [Configuration.ofParts] at h
      split at h
      · cases h
        intro t ht
        rw [← List.map_uncurry_zip_eq_zipWith] at ht
        obtain ⟨x, hx, rfl⟩ := List.mem_map.1 ht
        obtain ⟨hxt, hxh⟩ := List.of_mem_zip hx
        exact ⟨hts _ hxt, hhs _ hxh⟩
      · cases h
  | @apply c d r _ h ih =>
      obtain ⟨us, hus, rfl⟩ := exists_tracks_of_apply h
      intro u hu
      obtain ⟨i, hi⟩ := List.mem_iff_getElem?.1 hu
      obtain ⟨t, s, m, ht, -, -, htu⟩ := (Track.getElem?_applyAll hus).1 hi
      obtain ⟨tape, hw, rfl⟩ := Track.exists_write_of_apply htu
      obtain ⟨hmade, hhead⟩ := ih t (List.mem_of_getElem? ht)
      exact ⟨hmade.write hhead hw, isPosition_apply m t.head⟩

theorem Made.tapes (hc : c.Made b) : ∀ t ∈ c.tapes, t.Made b := by
  intro t ht
  obtain ⟨u, hu, rfl⟩ := List.mem_map.1 ht
  exact (hc.tracks u hu).1

theorem windows_eq_iff {ts us : List Tape} (hts : ∀ t ∈ ts, t.Made b) (hus : ∀ u ∈ us, u.Made b) :
    ts.map Tape.window = us.map Tape.window ↔
      List.Forall₂ (fun t u => ∀ q, IsPosition q → t.read q = u.read q) ts us := by
  induction ts generalizing us with
  | nil => simp [eq_comm]
  | cons t ts ih =>
      cases us with
      | nil => simp
      | cons u us =>
          rw [List.forall_mem_cons] at hts hus
          rw [List.map_cons, List.map_cons, List.cons.injEq, List.forall₂_cons,
            hts.1.window_eq_iff hus.1, ih hts.2 hus.2]

/-- **Configurations that look alike have the same fingerprint**, and no others. -/
theorem Made.fingerprint_eq_iff (hc : c.Made b) (hd : d.Made b) :
    c.fingerprint = d.fingerprint ↔ c.Alike d := by
  have hwindows (c : Configuration) : c.windows = c.tapes.map Tape.window := by
    rw [windows, Configuration.tapes, List.map_map]
    rfl
  rw [fingerprint, fingerprint, Fingerprint.mk.injEq, hwindows, hwindows,
    windows_eq_iff hc.tapes hd.tapes]
  exact ⟨fun h => ⟨h.1, h.2.1, h.2.2⟩, fun h => ⟨h.state_eq, h.heads_eq, h.read_eq⟩⟩

end Configuration

namespace LoopDetector

/-- A call of a detector. -/
inductive Call where
  | observe (c : Configuration)
  | clear

/-- The detector after a call. -/
def call (d : LoopDetector) : Call → LoopDetector
  | .observe c => (d.observe c).2
  | .clear => d.clear

/-- A new detector after calls. -/
def after (calls : List Call) : LoopDetector := calls.foldl call empty

/-- The configuration has been observed by one of the calls, and nothing was forgotten since. -/
def Observed (calls : List Call) (c : Configuration) : Prop :=
  ∃ before since, calls = before ++ .observe c :: since ∧ .clear ∉ since

variable {calls : List Call} {c d : Configuration} {b : Symbol}

/-! ### One more call -/

theorem after_concat (calls : List Call) (x : Call) :
    after (calls ++ [x]) = (after calls).call x := by
  rw [after, List.foldl_append]
  rfl

theorem observed_concat {x : Call} : Observed (calls ++ [x]) c ↔
    x = .observe c ∨ x ≠ .clear ∧ Observed calls c := by
  constructor
  · rintro ⟨before, since, h, hsince⟩
    rcases List.eq_nil_or_concat since with rfl | ⟨since, y, rfl⟩
    · obtain ⟨-, hx⟩ := List.append_inj' h rfl
      exact .inl (List.cons.inj hx).1
    · rw [List.concat_eq_append, ← List.cons_append, ← List.append_assoc] at h
      obtain ⟨hcalls, hxy⟩ := List.append_inj' h rfl
      obtain ⟨rfl, -⟩ := List.cons.inj hxy
      simp only [List.concat_eq_append, List.mem_append, List.mem_singleton, not_or] at hsince
      exact .inr ⟨Ne.symm hsince.2, before, since, hcalls, hsince.1⟩
  · rintro (rfl | ⟨hx, before, since, rfl, hsince⟩)
    · exact ⟨calls, [], rfl, List.not_mem_nil⟩
    · refine ⟨before, since ++ [x], by simp, ?_⟩
      simp only [List.mem_append, List.mem_singleton, not_or]
      exact ⟨hsince, Ne.symm hx⟩

theorem not_observed_nil : ¬ Observed [] c := by
  rintro ⟨before, since, h, -⟩
  simp at h

theorem mem_of_observed (h : Observed calls c) : .observe c ∈ calls := by
  obtain ⟨before, since, rfl, -⟩ := h
  simp

theorem observed_observe : Observed (calls ++ [.observe d]) c ↔ c = d ∨ Observed calls c := by
  rw [observed_concat]
  simp [eq_comm]

theorem not_observed_clear : ¬ Observed (calls ++ [.clear]) c := by
  simp [observed_concat]

/-! ### What a detector has seen -/

/-- A detector has seen the fingerprints of what it has observed. -/
theorem contains_after : (after calls).contains c = true ↔
    ∃ d, Observed calls d ∧ d.fingerprint = c.fingerprint := by
  induction calls using List.reverseRecOn generalizing c with
  | nil => simp [after, contains, empty, not_observed_nil]
  | append_singleton calls x ih =>
      rw [after_concat]
      cases x with
      | observe e =>
          have hinsert : ((after calls).call (.observe e)).contains c = true ↔
              e.fingerprint = c.fingerprint ∨ (after calls).contains c = true := by
            simp only [call, observe, contains, Std.HashSet.contains_insert, Bool.or_eq_true,
              beq_iff_eq]
          rw [hinsert, ih]
          simp only [observed_observe, or_and_right, exists_or, exists_eq_left]
      | clear => simp [call, clear, contains, empty, not_observed_clear]

/-- The classes of configurations that look alike among those that have been observed. -/
def classes (calls : List Call) : Set (Quotient Configuration.alike) :=
  Quotient.mk _ '' {c | Observed calls c}

theorem classes_observe : classes (calls ++ [.observe c]) = insert ⟦c⟧ (classes calls) := by
  have h : {d | Observed (calls ++ [.observe c]) d} = insert c {d | Observed calls d} :=
    Set.ext fun d => observed_observe
  rw [classes, h, Set.image_insert_eq]
  rfl

theorem classes_clear : classes (calls ++ [.clear]) = ∅ := by
  rw [classes, Set.image_eq_empty]
  exact Set.eq_empty_of_forall_notMem fun c => not_observed_clear

theorem finite_classes (calls : List Call) : (classes calls).Finite := by
  induction calls using List.reverseRecOn with
  | nil => simp [classes, not_observed_nil]
  | append_singleton calls x ih =>
      cases x with
      | observe c =>
          rw [classes_observe]
          exact ih.insert _
      | clear =>
          rw [classes_clear]
          exact Set.finite_empty

/-- What a detector tells of a configuration. -/
theorem observe_eq_true_iff (hcalls : ∀ d, .observe d ∈ calls → d.Made b) (hc : c.Made b) :
    ((after calls).observe c).1 = true ↔ ∃ d, Observed calls d ∧ d.Alike c := by
  refine contains_after.trans (exists_congr fun d => and_congr_right fun hd => ?_)
  exact (hcalls d (mem_of_observed hd)).fingerprint_eq_iff hc

theorem size_after (hcalls : ∀ d, .observe d ∈ calls → d.Made b) :
    (after calls).size = (classes calls).ncard := by
  induction calls using List.reverseRecOn with
  | nil => simp [after, size, empty, classes, not_observed_nil]
  | append_singleton calls x ih =>
      have hbefore : ∀ d, .observe d ∈ calls → d.Made b := fun d hd =>
        hcalls d (List.mem_append_left _ hd)
      rw [after_concat]
      cases x with
      | observe c =>
          -- A configuration is new to the detector if its class is a new one.
          have hmem : ⟦c⟧ ∈ classes calls ↔ (after calls).contains c = true := by
            have hseen := observe_eq_true_iff hbefore (hcalls c (by simp))
            refine Iff.trans ?_ hseen.symm
            exact exists_congr fun d => and_congr_right fun _ => Quotient.eq
          have hsize : ((after calls).call (.observe c)).size =
              if (after calls).contains c = true then (after calls).size
              else (after calls).size + 1 := by
            simp only [call, observe, size, contains, Std.HashSet.size_insert,
              Std.HashSet.contains_iff_mem]
          rw [hsize, classes_observe, ih hbefore]
          split
          · next hold => rw [Set.insert_eq_of_mem (hmem.2 hold)]
          · next hnew => rw [Set.ncard_insert_of_notMem (mt hmem.1 hnew) (finite_classes calls)]
      | clear =>
          rw [classes_clear, Set.ncard_empty]
          simp [call, clear, size, empty]

/-- **A detector is an exact set of configurations.**  After any calls on configurations with the
same blank, an observation tells that a configuration has been seen exactly if one that looks like
it has been observed since all was forgotten, or since the start; and the size of the detector is
the number of classes of configurations that look alike among those observed since then. -/
theorem observe_exact (calls : List Call) (b : Symbol)
    (hcalls : ∀ d, .observe d ∈ calls → d.Made b) :
    (∀ before c since, calls = before ++ .observe c :: since →
      (((after before).observe c).1 = true ↔ ∃ d, Observed before d ∧ d.Alike c)) ∧
    (after calls).size = (Quotient.mk Configuration.alike '' {c | Observed calls c}).ncard := by
  refine ⟨?_, size_after hcalls⟩
  rintro before c since rfl
  exact observe_eq_true_iff (fun d hd => hcalls d (List.mem_append_left _ hd)) (hcalls c (by simp))

/-- The symbol `a` at position 0, with the head on it. -/
def plain : Configuration := ⟨"q", [⟨.ofWord ['a'] '_', 0⟩]⟩

/-- The same with a blank stored behind the symbol. -/
def padded : Configuration := ⟨"q", [⟨.ofWord ['a', '_'] '_', 0⟩]⟩

/-- The symbol one position further to the right, written there by a rule. -/
def shifted : Configuration := ⟨"q", [⟨⟨['a'], 1, '_'⟩, 0⟩]⟩

theorem made_shifted : shifted.Made '_' := by
  have hblank : Configuration.Made '_' ⟨"q", [⟨.ofWord [] '_', 1⟩]⟩ :=
    .single (by decide) (by decide)
  have happly : (Configuration.mk "q" [⟨.ofWord [] '_', 1⟩]).apply
      ⟨"p", ['_'], ['a'], [.left], "q"⟩ = .ok shifted := rfl
  exact .apply hblank happly

/-- Calls after which `padded` has been observed and forgotten, and `shifted` observed. -/
def forgetful : List Call := [.observe padded, .clear, .observe shifted]

theorem observed_forgetful : Observed forgetful c ↔ c = shifted := by
  have h : forgetful = [.observe padded] ++ [.clear] ++ [.observe shifted] := rfl
  rw [h, observed_observe, or_iff_left not_observed_clear]

/-- What was forgotten does not count, and neither does a stored blank. -/
theorem observe_exact_padded :
    (∀ d, Call.observe d ∈ forgetful ++ [.observe plain, .observe padded] → d.Made '_') ∧
    ((after forgetful).observe plain).1 ≠ true ∧
    ((after (forgetful ++ [.observe plain])).observe padded).1 = true := by
  have hplain : plain.Made '_' := .single (by decide) (by decide)
  have hpadded : padded.Made '_' := .single (by decide) (by decide)
  have hmade : ∀ d, Call.observe d ∈ forgetful ++ [.observe plain, .observe padded] →
      d.Made '_' := by
    simp only [forgetful, List.cons_append, List.nil_append, List.mem_cons, Call.observe.injEq,
      reduceCtorEq, false_or, List.not_mem_nil, or_false]
    rintro d (rfl | rfl | rfl | rfl)
    exacts [hpadded, made_shifted, hplain, hpadded]
  obtain ⟨hobserve, -⟩ := observe_exact _ '_' hmade
  refine ⟨hmade, ?_, ?_⟩
  · rw [Ne, hobserve forgetful plain [.observe padded] rfl]
    rintro ⟨d, hd, halike⟩
    obtain rfl := observed_forgetful.1 hd
    -- At position 1 the one reads the symbol and the other one the blank.
    have hread := (List.forall₂_cons.1 halike.read_eq).1 1 (by decide)
    exact absurd hread (by decide)
  · refine (hobserve _ padded [] (by rw [List.append_assoc]; rfl)).2
      ⟨plain, observed_observe.2 (.inl rfl), rfl, rfl, ?_⟩
    exact .cons (fun q _ => (congrFun (Tape.read_pad ['a'] 0 '_' 0 1) q).symm) .nil

end LoopDetector

end TapeMachine
