import Mc68000.Machine.Basic

/-!
# Exceptions and interrupts

An exception pushes a frame on the supervisor stack and goes on at the address stored for its
vector. Bus and address errors push fourteen bytes, of which only SR and PC are tracked; every other
exception pushes SR and PC alone. Exception hooks come first and may take the exception over.
-/

namespace Mc68000.Machine
variable {β σ : Type}

def checkStack (m : Machine β σ) : Machine β σ :=
  let sp := m.regs.sp
  let m := m.log (.frame sp)
  let m :=
    if m.guard.warnsAt sp then
      { m with guard := { m.guard with warned := true } }.log (.stackLow sp m.guard.lowWarn)
    else m
  if m.guard.overflowsAt sp then
    { m with guard := { m.guard with overflowed := true } }.log (.stackOverflow sp m.guard.low)
  else m

def recordException (m : Machine β σ) (v : ExceptionVector) : Machine β σ :=
  let record : ExceptionRecord := ⟨v, m.regs.pc, m.regs.sp⟩
  { m with exceptionHistory := m.exceptionHistory.push record }.log (.exception record)

variable [Bus β]

def pushFrame (m : Machine β σ) (v : ExceptionVector) (sr : UInt16) (pc : UInt32) : Machine β σ :=
  let m := m.mapRegs fun r => r.reserve v.frameSize
  let sp := m.regs.sp
  if v.usesLongFrame then
    ((((m.writeWord sp 0).writeLong (sp + 2) 0).writeWord (sp + 6) 0).writeWord
      (sp + 8) sr).writeLong (sp + 10) pc
  else (m.writeWord sp sr).writeLong (sp + 2) pc

def dropTrace (r : Registers) : Registers :=
  { r with
    status := { r.status with t1 := false, t0 := false, m := false }
    pending := r.pending.withoutTrace }

def enterHandler (m : Machine β σ) (v : ExceptionVector) : Machine β σ :=
  let (handler, m) := m.readVector (ExceptionVector.entryAddress m.regs.vbr v)
  (m.jump handler).mapRegs dropTrace

/-- Take an exception. The status word of the frame is packed before the hooks run; they see it, and
what they leave in it is what the frame gets. -/
def takeException (m : Machine β σ) (v : ExceptionVector) : Machine β σ :=
  let m := (m.mapRegs Registers.packStatus).recordException v
  let (handled, m) := m.callHooks (.exception v)
  if handled then m.log (.exceptionHandled v)
  else
    let sr := m.regs.sr
    let pc := m.regs.pc
    let m := (m.log (.exceptionTaken v pc)).mapRegs Registers.enterSupervisor
    ((m.pushFrame v sr pc).checkStack).enterHandler v

def isInterruptLevel (level : UInt8) : Bool := 1 ≤ level && level ≤ 7

def takeInterrupt (m : Machine β σ) (base level : UInt8) : Machine β σ :=
  if isInterruptLevel level then
    ((m.log (.interrupt base level m.regs.status.mask)).takeException (base + level)
      |>.mapRegs fun r => r.setMask level).interruptsChanged
  else m.log (.interruptIgnored level)

def illegalVector (opcode : UInt16) : ExceptionVector :=
  if opcode &&& 0xF000 = 0xA000 then ExceptionVector.lineA
  else if opcode &&& 0xF000 = 0xF000 then ExceptionVector.lineF
  else ExceptionVector.illegalInstruction

def takeIllegal (m : Machine β σ) (opcode : UInt16) : Machine β σ :=
  m.takeException (illegalVector opcode)

/-- Take the exception of a fault. Whatever memory has latched by then belongs to the access that is
reported. A fault on the way into the handler is a double fault, which halts the processor: it is
asked to break and does not go through a vector. -/
def raiseFault (m : Machine β σ) (fault : Fault) : Machine β σ :=
  let v := fault.kind.vector
  let m := ({ m.takeFault.2 with lastFault := some fault }.log (.fault fault)).takeException v
  let (second, m) := m.takeFault
  match second with
  | none => m
  | some f => (m.log (.doubleFault v f.address m.regs.sp)).requestBreak

def deliverFault (m : Machine β σ) : Machine β σ :=
  let (fault, m) := m.takeFault
  match fault with
  | none => m
  | some f => m.raiseFault f

def busError (m : Machine β σ) (address : UInt32) (size : UInt8) (forRead : Bool) : Machine β σ :=
  m.raiseFault ⟨.bus, address, size, forRead⟩

def addressError (m : Machine β σ) (address : UInt32) (size : UInt8) (forRead : Bool) :
    Machine β σ :=
  m.raiseFault ⟨.address, address, size, forRead⟩

end Mc68000.Machine
