import Mc68000.Machine.Exception

/-!
# Reset and whole register files
-/

namespace Mc68000.Machine
variable {β σ : Type}

def clearBookkeeping (m : Machine β σ) : Machine β σ :=
  { m with
    lastTraceAddress := 0
    cycles := Cycles.zero
    slowCounter := 0
    lastFault := none
    guard := StackGuard.off
    registerHistory := m.registerHistory.clear
    exceptionHistory := m.exceptionHistory.clear }

def setStackBounds (m : Machine β σ) (lowWarn low : UInt32) : Machine β σ :=
  { m with guard := ⟨lowWarn, low, false, false⟩ }

def clearStackOverflow (m : Machine β σ) : Machine β σ := { m with guard := m.guard.clear }

def getRegister (m : Machine β σ) (q : Register) : UInt32 × Machine β σ :=
  let (v, r) := m.regs.read q
  (v, { m with regs := r })

def setRegister (m : Machine β σ) (q : Register) (v : UInt32) : Machine β σ :=
  m.mapRegs fun r => r.write q v

def getRegisters (m : Machine β σ) : Registers × Machine β σ :=
  let m := m.mapRegs Registers.packStatus
  (m.regs, m)

variable [Bus β]

def loadReset (m : Machine β σ) : Machine β σ :=
  let (ssp, m) := m.readLong m.settings.romBase
  let (pc, m) := m.readLong (m.settings.romBase + 4)
  let r := ({ Registers.initial.setSp ssp with pc := pc }).packStatus
  { m with regs := r }.log (.hardwareReset ssp pc)

/-- Reset the machine, the registers only for a hardware reset. Memory is told the program counter
either way, and a fault that it latches is taken at once. -/
def reset (m : Machine β σ) (hardware : Bool) : Machine β σ :=
  let m := m.clearBookkeeping
  let m := if hardware then m.loadReset else m
  (m.announcePcToBus m.regs.pc).deliverFault

def setRegisters (m : Machine β σ) (r : Registers) : Machine β σ :=
  let r := r.unpackStatus
  (({ m with regs := r }.announcePc r.pc).notify (.newSp .changed)).deliverFault

end Mc68000.Machine
