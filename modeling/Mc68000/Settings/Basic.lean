/-!
# Settings

What a session decides about a processor before it runs.
-/

namespace Mc68000

structure Settings where
  romBase : UInt32
  /-- Slow housekeeping comes every `slowCycleMask + 1` instructions. -/
  slowCycleMask : UInt32
  idleTickCycles : UInt32
  registerHistory : UInt64
  exceptionHistory : UInt64
  deadManTimeoutMs : Option UInt64
  deriving DecidableEq, Repr

inductive SettingsError where
  | slowCycleMask (mask : UInt32)
  | historyCapacity (capacity : UInt64)
  deriving DecidableEq, Repr

namespace Settings

def default : Settings := ⟨0x10C00000, 0x7FFF, 0, 0, 0, none⟩

def maxHistory : UInt64 := 0x10000

/-- The low bits of the mask are ones and the others zeros, so that it is one less than a power of
two, up to 2 ^ 32. -/
def isLowMask (mask : UInt32) : Bool := mask &&& (mask + 1) == 0

def validate (s : Settings) : Except SettingsError Unit :=
  if !isLowMask s.slowCycleMask then .error (.slowCycleMask s.slowCycleMask)
  else if maxHistory < s.registerHistory then .error (.historyCapacity s.registerHistory)
  else if maxHistory < s.exceptionHistory then .error (.historyCapacity s.exceptionHistory)
  else .ok ()

end Settings
end Mc68000
