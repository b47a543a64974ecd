import TapeMachine.Configuration
import Std.Data.HashSet

/-!
# Loop detector

Remembers configurations and tells when one comes up again. A configuration is remembered by its
fingerprint: the state, the heads and the windows of the tapes. The windows leave out what the cells
hold beyond them, which is blank, so that configurations that look alike at every position have the
same fingerprint.
-/

namespace TapeMachine

/-- What a configuration is told apart from others by. -/
structure Fingerprint where
  state : State
  heads : List Int
  windows : List Window
  deriving DecidableEq, Hashable

/-- The fingerprint of a configuration. -/
def Configuration.fingerprint (c : Configuration) : Fingerprint := ⟨c.state, c.heads, c.windows⟩

/-- The fingerprints of the configurations seen so far. -/
structure LoopDetector where
  seen : Std.HashSet Fingerprint

namespace LoopDetector

/-- The detector that has seen nothing. -/
def empty : LoopDetector := ⟨∅⟩

/-- Whether the configuration, or one that looks like it, has been seen before. -/
def contains (d : LoopDetector) (c : Configuration) : Bool := d.seen.contains c.fingerprint

/-- Remembers a configuration, and tells whether it has been seen before. -/
def observe (d : LoopDetector) (c : Configuration) : Bool × LoopDetector :=
  (d.contains c, ⟨d.seen.insert c.fingerprint⟩)

/-- Forgets all that has been seen. -/
def clear (_ : LoopDetector) : LoopDetector := empty

/-- The number of different configurations seen. -/
def size (d : LoopDetector) : Nat := d.seen.size

/-- Whether nothing has been seen. -/
def isEmpty (d : LoopDetector) : Bool := d.seen.isEmpty

end LoopDetector

end TapeMachine
