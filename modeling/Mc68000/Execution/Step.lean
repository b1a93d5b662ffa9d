import Mc68000.Execution.Idle
import Mc68000.OpcodeTable

/-!
# The execution loop

The loop executes opcodes until something asks it to return. After an opcode it makes a special pass
if anything is pending: end of cycle, trace, STOP, interrupts and breaks, in this order. A STOP is
idled away in the middle of a pass, and the rest of the pass follows when the processor wakes. The
loop is cut into steps, each of which ends: an opcode, the pass up to a STOP, a tick of idling.
-/

namespace Mc68000

inductive Phase where
  | opcode
  | special
  /-- Idle in the middle of a pass, under a watchdog of its own. -/
  | idle (watch : Watchdog)
  | returned
  deriving DecidableEq, Repr

structure Execution (β σ η : Type) where
  state : Hosted β σ η
  watch : Watchdog
  phase : Phase

namespace Machine
variable {β σ : Type}

def recordRegisters (m : Machine β σ) : Machine β σ :=
  if m.registerHistory.isEnabled then
    let m := m.mapRegs Registers.packStatus
    { m with registerHistory := m.registerHistory.push m.regs }
  else m

def armTrace (m : Machine β σ) : Machine β σ :=
  if m.regs.pending.traceArmed && m.regs.status.t1 then
    ({ m with lastTraceAddress := m.regs.pc }.log (.traceArmed m.regs.pc)).mapPending fun p =>
      { p with traceArmed := false, traceDue := true }
  else m

def promoteInterrupt (m : Machine β σ) : Machine β σ :=
  if m.regs.pending.interruptCheck then
    m.mapPending fun p => { p with interruptCheck := false, interruptDue := true }
  else m

variable [Bus β]

/-- Fetch an opcode and execute it. If the fetch itself faults, nothing is executed or charged, and
the frame has the address of the opcode. -/
def executeOpcode (table : OpcodeTable β σ) (m : Machine β σ) : Machine β σ :=
  let (opcode, m) := (m.log (.fetch m.regs)).fetchWord
  let (fault, m) := m.takeFault
  match fault with
  | some f => (m.setPc (m.regs.pc - 2)).raiseFault f
  | none =>
    let (cost, m) := table.dispatch opcode m
    ((m.charge cost).log (.dispatch opcode cost)).deliverFault

def traceIfDue (m : Machine β σ) : Machine β σ :=
  if m.regs.pending.traceDue && !m.regs.pending.stop then
    ((m.log .trace).takeException ExceptionVector.trace).deliverFault
  else m

end Machine

namespace Hosted
variable {β σ η : Type} [Host η]

def breakpoint (s : Hosted β σ η) : Hosted β σ η :=
  let (nested, s) := s.isNested
  if nested then s
  else
    let pc := s.machine.regs.pc
    let (hit, s) := s.ask (fun h => Host.isBreakLocation h pc) (.isBreakLocation pc)
    if hit then s.request Host.handleInstructionBreak .handleInstructionBreak else s

def earlyEndOfCycle (s : Hosted β σ η) : Bool × Hosted β σ η :=
  if s.machine.regs.pending.endOfCycle then
    s.consult (fun h => Host.endOfCycle h true) (.endOfCycle true)
  else (false, s)

def lateEndOfCycle (s : Hosted β σ η) : Bool × Hosted β σ η :=
  if s.machine.regs.pending.endOfCycle then
    (s.map fun m => m.mapPending fun p => { p with endOfCycle := false }).consult
      (fun h => Host.endOfCycle h false) (.endOfCycle false)
  else (false, s)

variable [Bus β]

/-- Deliver an interrupt that is due. None is delivered while the kernel stack has overflowed. -/
def dueInterrupt (s : Hosted β σ η) : Hosted β σ η :=
  if s.machine.regs.pending.interruptDue && !s.machine.guard.overflowed then
    let (level, s) := s.pendingLevel
    (s.map fun m => m.mapPending fun p =>
      { p with interruptDue := false }).deliverInterrupt level id
  else s

def finishPass (s : Hosted β σ η) : Bool × Hosted β σ η :=
  let s := ((s.map Machine.armTrace).dueInterrupt).map Machine.promoteInterrupt
  let (leave, s) := s.lateEndOfCycle
  if leave then (true, s) else s.checkForBreak

end Hosted

namespace Execution
variable {β σ η : Type} [Host η]

def endPass (watch : Watchdog) (outcome : Bool × Hosted β σ η) : Execution β σ η :=
  ⟨outcome.2, watch, if outcome.1 then .returned else .opcode⟩

def start (s : Hosted β σ η) : Execution β σ η :=
  let (watch, s) := Watchdog.arm s
  ⟨s, watch, if s.machine.regs.pending.stop then .special else .opcode⟩

variable [Bus β]

def opcodeStep (table : OpcodeTable β σ) (e : Execution β σ η) : Execution β σ η :=
  let s := e.state.breakpoint.map Machine.recordRegisters
  let (watch, s) := e.watch.check s
  let s := (s.map (Machine.executeOpcode table)).cycle false
  ⟨s, watch, if s.machine.regs.pending.isEmpty then .opcode else .special⟩

def specialStep (e : Execution β σ η) : Execution β σ η :=
  let (nested, s) := e.state.isNested
  if nested then endPass e.watch s.checkForBreak
  else
    let (leave, s) := s.earlyEndOfCycle
    if leave then ⟨s, e.watch, .returned⟩
    else
      let s := s.map Machine.traceIfDue
      if s.machine.regs.pending.stop then
        let (watch, s) := s.enterIdle
        ⟨s, e.watch, .idle watch⟩
      else endPass e.watch s.finishPass

def idleStep (watch : Watchdog) (e : Execution β σ η) : Execution β σ η :=
  let (watch, s) := watch.check e.state
  let (leave, s) := s.idleTick.checkForBreak
  if leave then
    ⟨s.map fun m => m.mapPending fun p => { p with breakRequest := false }, e.watch, .returned⟩
  else if s.machine.regs.pending.stop then ⟨s, e.watch, .idle watch⟩
  else endPass e.watch s.finishPass

def step (table : OpcodeTable β σ) (e : Execution β σ η) : Execution β σ η :=
  match e.phase with
  | .opcode => e.opcodeStep table
  | .special => e.specialStep
  | .idle watch => e.idleStep watch
  | .returned => e

def run (table : OpcodeTable β σ) : Nat → Execution β σ η → Execution β σ η
  | 0, e => e
  | fuel + 1, e =>
    match e.phase with
    | .returned => e
    | _ => run table fuel (e.step table)

end Execution

/-- Run the loop from the start, for at most `fuel` steps. The phase at the end says whether it has
returned by then. -/
def execute {β σ η : Type} [Host η] [Bus β] (table : OpcodeTable β σ) (fuel : Nat)
    (s : Hosted β σ η) : Execution β σ η :=
  (Execution.start s).run table fuel

end Mc68000
