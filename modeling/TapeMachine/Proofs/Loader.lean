import TapeMachine.Loader
import TapeMachine.Proofs.Notation.Accepted

/-!
# Loader — What is admitted

A program comes in as a text, as a request, or as a file that holds one or the other.  Each way in
has its checks, in an order of its own, and behind each of them a program is admitted
(`Program.Admitted`): it keeps within the limits of the host and has no defects, so it has a
machine.
-/

namespace TapeMachine

variable {l : Limits} {p : Program}

namespace Limits

theorem check_eq_ok_iff :
    l.check p = .ok () ↔ p.maxSteps ≤ l.maxSteps ∧ p.tapeCount ≤ l.maxTapes := by
  rw [check]
  split
  · next h => exact ⟨nofun, fun h' => absurd h'.1 (Nat.not_le.2 h)⟩
  · next h =>
      split
      · next h' => exact ⟨nofun, fun h'' => absurd h''.2 (Nat.not_le.2 h')⟩
      · next h' => exact ⟨fun _ => ⟨Nat.not_lt.1 h, Nat.not_lt.1 h'⟩, fun _ => rfl⟩

theorem checkSize_eq_ok_iff {bytes : Nat} : l.checkSize bytes = .ok () ↔ bytes ≤ l.maxSize := by
  rw [checkSize]
  split
  · next h => exact ⟨nofun, fun h' => absurd h' (Nat.not_le.2 h)⟩
  · next h => exact ⟨fun _ => Nat.not_lt.1 h, fun _ => rfl⟩

end Limits

/-- The program keeps within limits, has no defects, and has a machine. -/
structure Program.Admitted (l : Limits) (p : Program) : Prop where
  within : l.check p = .ok ()
  sound : p.check = .ok ()
  exists_machine : ∃ m, Machine.ofProgram p = .ok m

/-- What has no defects has a machine. -/
theorem Program.admitted_iff : p.Admitted l ↔ l.check p = .ok () ∧ p.check = .ok () := by
  refine ⟨fun h => ⟨h.within, h.sound⟩, fun ⟨hl, hp⟩ => ⟨hl, hp, ?_⟩⟩
  obtain ⟨m, hm, -⟩ := Machine.exists_ofProgram (Program.check_eq_ok_iff.1 hp)
  exact ⟨m, hm⟩

/-- A request checks the limits first, and looks for defects then. -/
theorem Request.program_eq_ok_iff {r : Request} :
    r.program l = .ok p ↔ r.draft = .ok p ∧ p.Admitted l := by
  rw [program, bind_eq_ok_iff, Program.admitted_iff]
  constructor
  · rintro ⟨q, hq, h⟩
    obtain ⟨⟨⟩, hl, h⟩ := bind_eq_ok_iff.1 h
    obtain ⟨⟨⟩, hp, h⟩ := bind_eq_ok_iff.1 h
    cases h
    exact ⟨hq, hl, mapError_eq_ok_iff.1 hp⟩
  · rintro ⟨hq, hl, hp⟩
    refine ⟨p, hq, ?_⟩
    rw [hl, hp]
    rfl

namespace Loader

variable {text path : String} {content : Except ReadFault String}

/-- A text is searched for defects first, and the limits are checked then. -/
theorem described_eq_ok_iff :
    described l text = .ok p ↔ Program.parse text.toList = .ok p ∧ p.Admitted l := by
  rw [described, bind_eq_ok_iff, Program.admitted_iff]
  constructor
  · rintro ⟨q, hq, h⟩
    obtain ⟨⟨⟩, hl, h⟩ := bind_eq_ok_iff.1 h
    cases h
    exact ⟨hq, hl, (Program.describe_of_parse hq).2⟩
  · rintro ⟨hq, hl, -⟩
    refine ⟨p, hq, ?_⟩
    rw [hl]
    rfl

theorem request_eq_ok_iff :
    request l text = .ok p ↔ ∃ r, Request.ofText text = .ok r ∧ r.program l = .ok p :=
  bind_eq_ok_iff

theorem text_eq_ok_iff : Loader.text text = .ok p ↔
    text.utf8ByteSize ≤ ({} : Limits).maxSize ∧ described {} text = .ok p := by
  rw [Loader.text, bind_eq_ok_iff, ← Limits.checkSize_eq_ok_iff]
  exact ⟨fun ⟨_, hsize, h⟩ => ⟨hsize, h⟩, fun ⟨hsize, h⟩ => ⟨(), hsize, h⟩⟩

/-- The length of a file is checked whatever it holds; the ending of its name says what that is. -/
theorem file_eq_ok_iff : file l path content = .ok p ↔
    ∃ text, content = .ok text ∧ text.utf8ByteSize ≤ l.maxSize ∧
      (if Path.hasExtension path "json" then request l text else described l text) = .ok p := by
  rw [file, bind_eq_ok_iff]
  refine exists_congr fun text => and_congr mapError_eq_ok_iff ?_
  rw [bind_eq_ok_iff, ← Limits.checkSize_eq_ok_iff]
  exact ⟨fun ⟨_, hsize, h⟩ => ⟨hsize, h⟩, fun ⟨hsize, h⟩ => ⟨(), hsize, h⟩⟩

/-- A file of either kind holds a program that is admitted. -/
theorem admitted_of_file (h : file l path content = .ok p) :
    ∃ text, content = .ok text ∧ text.utf8ByteSize ≤ l.maxSize ∧ p.Admitted l := by
  obtain ⟨text, hcontent, hsize, h⟩ := file_eq_ok_iff.1 h
  refine ⟨text, hcontent, hsize, ?_⟩
  split at h
  · obtain ⟨r, -, hr⟩ := request_eq_ok_iff.1 h
    exact (Request.program_eq_ok_iff.1 hr).2
  · exact (described_eq_ok_iff.1 h).2

end Loader

end TapeMachine
