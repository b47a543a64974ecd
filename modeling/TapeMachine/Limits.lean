import TapeMachine.Error

/-!
# Limits

What a host takes from outside: how many steps, how many tapes, and how long a text. A machine runs
any program without defects; the limits keep one program from taking up the host.
-/

namespace TapeMachine

/-- The limits of a host. -/
structure Limits where
  /-- The greatest step budget. -/
  maxSteps : Nat := 1000000
  /-- The greatest number of tapes. -/
  maxTapes : Nat := 10
  /-- The greatest length of a text, in bytes. -/
  maxSize : Nat := 65536
  deriving DecidableEq, Repr

namespace Limits

/-- Checks a program against the limits, its step budget first. -/
def check (l : Limits) (p : Program) : Except Error Unit :=
  if l.maxSteps < p.maxSteps then .error (.invalid (.budget p.maxSteps l.maxSteps))
  else if l.maxTapes < p.tapeCount then .error (.invalid (.tapes p.tapeCount l.maxTapes))
  else .ok ()

/-- Checks the length of a text. -/
def checkSize (l : Limits) (bytes : Nat) : Except Error Unit :=
  if l.maxSize < bytes then .error (.invalid (.size bytes l.maxSize)) else .ok ()

end Limits

end TapeMachine
