import Mc68000.Cycles.Basic
import Mc68000.Event
import Mc68000.History
import Mc68000.Memory.Bus
import Mc68000.Settings.Basic
import Mc68000.StackGuard

/-!
# The machine

A processor with its registers, hooks and bookkeeping, the memory it is connected to, and the
journal of what happened to it. Operations are functions from machine to machine.
-/

namespace Mc68000

structure Machine (β σ : Type) where
  regs : Registers
  bus : β
  settings : Settings
  hooks : Registry β σ
  observers : σ
  cycles : Cycles
  slowCounter : UInt32
  lastTraceAddress : UInt32
  lastFault : Option Fault
  guard : StackGuard
  registerHistory : History Registers
  exceptionHistory : History ExceptionRecord
  /-- Newest first. -/
  journal : List Event

namespace Machine
variable {β σ : Type}

def ofSettings (s : Settings) (bus : β) (observers : σ) : Machine β σ where
  regs := Registers.initial
  bus := bus
  settings := s
  hooks := Registry.empty
  observers := observers
  cycles := Cycles.zero
  slowCounter := 0
  lastTraceAddress := 0
  lastFault := none
  guard := StackGuard.off
  registerHistory := History.ofCapacity s.registerHistory.toNat
  exceptionHistory := History.ofCapacity s.exceptionHistory.toNat
  journal := []

def ofSettings? (s : Settings) (bus : β) (observers : σ) : Except SettingsError (Machine β σ) :=
  s.validate.map fun _ => ofSettings s bus observers

def log (m : Machine β σ) (e : Event) : Machine β σ := { m with journal := e :: m.journal }

def mapRegs (m : Machine β σ) (f : Registers → Registers) : Machine β σ :=
  { m with regs := f m.regs }

def mapPending (m : Machine β σ) (f : Pending → Pending) : Machine β σ :=
  m.mapRegs fun r => r.mapPending f

def setPc (m : Machine β σ) (pc : UInt32) : Machine β σ := m.mapRegs fun r => { r with pc := pc }

def charge (m : Machine β σ) (n : UInt32) : Machine β σ := { m with cycles := m.cycles.add n }

def requestBreak (m : Machine β σ) : Machine β σ :=
  m.mapPending fun p => { p with breakRequest := true }

def interruptsChanged (m : Machine β σ) : Machine β σ :=
  m.mapPending fun p => { p with interruptCheck := true }

def checkAfterCycle (m : Machine β σ) : Machine β σ :=
  m.mapPending fun p => { p with endOfCycle := true }

def scene (m : Machine β σ) : Scene β σ := ⟨m.regs, m.bus, m.observers⟩

def withScene (m : Machine β σ) (s : Scene β σ) : Machine β σ :=
  { m with regs := s.registers, bus := s.bus, observers := s.observers }

def callHook (call : HookCall) (before : Bool × Machine β σ) (l : Registry.Listener β σ) :
    Bool × Machine β σ :=
  let m := before.2.log (.hook l.handle call)
  let (answer, s) := l.run m.scene
  (before.1 || answer, m.withScene s)

/-- Call every hook that is there for the occasion, in the order of registration. The answer is
whether any of them said yes; none is left out for another's answer. -/
def callHooks (m : Machine β σ) (call : HookCall) : Bool × Machine β σ :=
  (m.hooks.listeners call).foldl (callHook call) (false, m)

def notify (m : Machine β σ) (call : HookCall) : Machine β σ := (m.callHooks call).2

def installHook (m : Machine β σ) (h : Hook β σ) : HookHandle × Machine β σ :=
  let (handle, hooks) := m.hooks.install h
  (handle, { m with hooks := hooks })

def removeHook (m : Machine β σ) (h : HookHandle) : Bool × Machine β σ :=
  let (done, hooks) := m.hooks.remove h
  (done, { m with hooks := hooks })

variable [Bus β]

def writeWord (m : Machine β σ) (a : UInt32) (w : UInt16) : Machine β σ :=
  { m with bus := Bus.writeWord m.bus a w }

def writeLong (m : Machine β σ) (a : UInt32) (l : UInt32) : Machine β σ :=
  { m with bus := Bus.writeLong m.bus a l }

def readWord (m : Machine β σ) (a : UInt32) : UInt16 × Machine β σ :=
  let (w, bus) := Bus.readWord m.bus a
  (w, { m with bus := bus })

def readLong (m : Machine β σ) (a : UInt32) : UInt32 × Machine β σ :=
  let (l, bus) := Bus.readLong m.bus a
  (l, { m with bus := bus })

def readVector (m : Machine β σ) (a : UInt32) : UInt32 × Machine β σ :=
  let (l, bus) := Bus.readLongFullAccess m.bus a
  (l, { m with bus := bus })

def takeFault (m : Machine β σ) : Option Fault × Machine β σ :=
  let (fault, bus) := Bus.takeFault m.bus
  (fault, { m with bus := bus })

def announcePcToBus (m : Machine β σ) (pc : UInt32) : Machine β σ :=
  { m with bus := Bus.checkNewPc m.bus pc }.log (.newPc pc)

def announcePc (m : Machine β σ) (pc : UInt32) : Machine β σ :=
  (m.notify (.newPc pc)).announcePcToBus pc

def jump (m : Machine β σ) (pc : UInt32) : Machine β σ := (m.announcePc pc).setPc pc

def pushWord (m : Machine β σ) (w : UInt16) : Machine β σ :=
  let m := m.mapRegs fun r => r.reserve 2
  m.writeWord m.regs.sp w

def pushLong (m : Machine β σ) (l : UInt32) : Machine β σ :=
  let m := m.mapRegs fun r => r.reserve 4
  m.writeLong m.regs.sp l

def popWord (m : Machine β σ) : UInt16 × Machine β σ :=
  (m.mapRegs fun r => r.release 2).readWord m.regs.sp

def popLong (m : Machine β σ) : UInt32 × Machine β σ :=
  (m.mapRegs fun r => r.release 4).readLong m.regs.sp

def advance (m : Machine β σ) (size : UInt32) : Machine β σ :=
  (m.setPc (m.regs.pc + size)).log (.stream m.regs.pc size)

def fetchWord (m : Machine β σ) : UInt16 × Machine β σ := (m.advance 2).readWord m.regs.pc

def fetchLong (m : Machine β σ) : UInt32 × Machine β σ := (m.advance 4).readLong m.regs.pc

end Machine
end Mc68000
