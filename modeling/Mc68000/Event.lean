import Mc68000.ExceptionVector
import Mc68000.Hook.Registry
import Mc68000.Host
import Mc68000.Memory.Bus
import Mc68000.Text.Hex
import Mc68000.Text.Inspection

/-!
# The journal

Everything that can be seen of a run, one event after the other: opcodes and what they cost,
exceptions and what led to them, calls of hooks and of the host with the host's answers, and program
counters announced to memory. Some events are also reported as lines of a log.
-/

namespace Mc68000

/-- An exception at its very beginning, before any hook and before its frame. -/
structure ExceptionRecord where
  vector : ExceptionVector
  pc : UInt32
  sp : UInt32
  deriving DecidableEq, Repr

inductive HostCall where
  | nowMillis (answer : UInt64)
  | delay
  | isNested (answer : Bool)
  | isBreakLocation (pc : UInt32) (answer : Bool)
  | handleInstructionBreak
  | endOfCycle (early answer : Bool)
  | checkForBreak (answer : Bool)
  | suspendRequested (answer : Bool)
  | interruptLevel (answer : Option UInt8)
  | takeInterruptChange (answer : Bool)
  | interruptBase (answer : UInt8)
  | isAsleep (answer : Bool)
  | hasButtonEvent (answer : Bool)
  | postButtonEvent (event : ButtonEvent) (now : Bool)
  | eventSource (source : EventSource) (answer : Option Bool)
  | setEventSource (source : EventSource) (on : Bool)
  | cycle (sleeping : Bool)
  | cycleSlowly (sleeping : Bool)
  deriving DecidableEq, Repr

inductive Event where
  | fetch (registers : Registers)
  | stream (pc size : UInt32)
  | dispatch (opcode : UInt16) (cost : UInt32)
  | hook (handle : HookHandle) (call : HookCall)
  | host (call : HostCall)
  | newPc (pc : UInt32)
  | hardwareReset (ssp pc : UInt32)
  | registersLoaded (pc : UInt32) (sr : UInt16) (stopped : Bool)
  | traceArmed (pc : UInt32)
  | trace
  /-- The exception that follows is for this interrupt; `mask` is the one in force. -/
  | interrupt (base level mask : UInt8)
  | interruptIgnored (level : UInt8)
  | fault (fault : Fault)
  /-- Memory latched another fault while the one before it was taken. -/
  | doubleFault (vector : ExceptionVector) (address sp : UInt32)
  | exception (record : ExceptionRecord)
  | exceptionHandled (vector : ExceptionVector)
  /-- No hook did, and a frame for this address follows. -/
  | exceptionTaken (vector : ExceptionVector) (pc : UInt32)
  | frame (sp : UInt32)
  | stackLow (sp bound : UInt32)
  | stackOverflow (sp bound : UInt32)
  | overdue (now elapsed : UInt64) (pc : UInt32)
  | stopMasked (pc : UInt32)
  | powerPressed (suspended : List EventSource)
  deriving DecidableEq

inductive Severity where
  | trace
  | debug
  | warn
  | error
  deriving DecidableEq, Repr

def Severity.name : Severity → String
  | .trace => "TRACE"
  | .debug => "DEBUG"
  | .warn => "WARN"
  | .error => "ERROR"

structure Report where
  severity : Severity
  text : String
  deriving DecidableEq, Repr

def EventSource.name : EventSource → String
  | .gremlins => "Gremlins"
  | .playback => "Playback"
  | .minimizer => "Minimizer"

def Event.report? : Event → Option Report
  | .hardwareReset ssp pc =>
    some ⟨.debug, "hardware reset ssp=" ++ Hex.address ssp ++ " pc=" ++ Hex.address pc⟩
  | .registersLoaded pc sr stopped =>
    some ⟨.debug, "registers loaded pc=" ++ Hex.address pc ++ " sr=" ++ Hex.padded 4 sr.toNat ++
      " stopped=" ++ Inspection.flag stopped⟩
  | .exceptionHandled v =>
    some ⟨.trace, "exception handled by hook vector=" ++ Nat.repr v.toNat ++ " name=" ++ v.name⟩
  | .exceptionTaken v pc =>
    some ⟨.trace, "exception vector=" ++ Nat.repr v.toNat ++ " name=" ++ v.name ++
      " pc=" ++ Hex.address pc⟩
  | .interrupt _ level _ => some ⟨.trace, "interrupt level=" ++ Nat.repr level.toNat⟩
  | .interruptIgnored level =>
    some ⟨.warn, "interrupt level out of range, ignored level=" ++ Nat.repr level.toNat⟩
  | .doubleFault v address sp =>
    some ⟨.error, "double fault while taking a group-0 exception, halting vector=" ++
      Nat.repr v.toNat ++ " address=" ++ Hex.address address ++ " sp=" ++ Hex.address sp⟩
  | .stackLow sp bound =>
    some ⟨.debug, "kernel stack running low sp=" ++ Hex.address sp ++ " low_warn=" ++
      Nat.repr bound.toNat⟩
  | .stackOverflow sp bound =>
    some ⟨.warn, "kernel stack overflowed, interrupts held off sp=" ++ Hex.address sp ++ " low=" ++
      Hex.address bound⟩
  | .overdue _ elapsed pc =>
    some ⟨.warn, "CPU loop has not returned to the session elapsed_ms=" ++ Nat.repr elapsed.toNat ++
      " pc=" ++ Hex.address pc⟩
  | .stopMasked pc =>
    some ⟨.error, "STOP with interrupt mask 7, only a break can resume pc=" ++ Hex.address pc⟩
  | .powerPressed suspended =>
    some ⟨.debug, "device asleep under synthetic input, pressing Power suspended=[" ++
      ", ".intercalate (suspended.map EventSource.name) ++ "]"⟩
  | _ => none

end Mc68000
