import Mc68000.ExceptionVector

/-!
# The host

What the processor needs from the session that runs it and from the rest of the hardware. All but
the clock has a default that stands for a quiet machine: no breakpoints, no interrupts, nothing
asleep and nothing that feeds it events.
-/

namespace Mc68000

inductive EventSource where
  | gremlins
  | playback
  | minimizer
  deriving DecidableEq, Repr

def EventSource.all : List EventSource := [.gremlins, .playback, .minimizer]

inductive Button where
  | power
  deriving DecidableEq, Repr

structure ButtonEvent where
  button : Button
  pressed : Bool
  deriving DecidableEq, Repr

class Host (η : Type) where
  /-- Milliseconds since some fixed moment. The clock may run on between two readings. -/
  nowMillis : η → UInt64 × η
  delay : η → η
  /-- A nested call runs on behalf of the host: no breakpoints, no housekeeping, no idling. -/
  isNested : η → Bool := fun _ => false
  isBreakLocation : η → UInt32 → Bool := fun _ _ => false
  handleInstructionBreak : η → η := id
  /-- End of a cycle; early for the call that comes before any other condition is looked at. The
  answer says whether to leave the execution loop. -/
  endOfCycle : η → (early : Bool) → Bool × η := fun h _ => (false, h)
  checkForBreak : η → Bool × η := fun h => (false, h)
  suspendRequested : η → Bool := fun _ => false
  interruptLevel : η → Option UInt8 × η := fun h => (none, h)
  /-- Has the interrupt level changed since the last call? -/
  takeInterruptChange : η → Bool × η := fun h => (false, h)
  interruptBase : η → UInt8 := fun _ => ExceptionVector.autovectorBase
  isAsleep : η → Bool := fun _ => false
  hasButtonEvent : η → Bool := fun _ => false
  postButtonEvent : η → ButtonEvent → (now : Bool) → η := fun h _ _ => h
  eventSource : η → EventSource → Option Bool × η := fun h _ => (none, h)
  setEventSource : η → EventSource → Bool → η := fun h _ _ => h
  cycle : η → (sleeping : Bool) → η := fun h _ => h
  cycleSlowly : η → (sleeping : Bool) → η := fun h _ => h

end Mc68000
