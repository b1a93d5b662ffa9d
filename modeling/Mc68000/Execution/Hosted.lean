import Mc68000.Machine.Exception

/-!
# A machine and its host

Every question to the host and every request is kept in the journal of the machine.
-/

namespace Mc68000

structure Hosted (β σ η : Type) where
  machine : Machine β σ
  host : η

namespace Hosted
variable {β σ η α : Type}

def log (s : Hosted β σ η) (e : Event) : Hosted β σ η := { s with machine := s.machine.log e }

def map (s : Hosted β σ η) (f : Machine β σ → Machine β σ) : Hosted β σ η :=
  { s with machine := f s.machine }

def ask (s : Hosted β σ η) (question : η → α) (call : α → HostCall) : α × Hosted β σ η :=
  let answer := question s.host
  (answer, s.log (.host (call answer)))

def consult (s : Hosted β σ η) (question : η → α × η) (call : α → HostCall) : α × Hosted β σ η :=
  let (answer, host) := question s.host
  (answer, { s with host := host }.log (.host (call answer)))

def request (s : Hosted β σ η) (act : η → η) (call : HostCall) : Hosted β σ η :=
  { s with host := act s.host }.log (.host call)

variable [Host η]

def isNested (s : Hosted β σ η) : Bool × Hosted β σ η := s.ask Host.isNested .isNested

/-- A break was asked for, by the machine itself or by the host. The machine's request is used
up. -/
def checkForBreak (s : Hosted β σ η) : Bool × Hosted β σ η :=
  if s.machine.regs.pending.breakRequest then
    (true, s.map fun m => m.mapPending fun p => { p with breakRequest := false })
  else s.consult Host.checkForBreak .checkForBreak

def pendingLevel (s : Hosted β σ η) : Option UInt8 × Hosted β σ η :=
  let (level, s) := s.consult Host.interruptLevel .interruptLevel
  (level.filter Machine.isInterruptLevel, s)

def cycleSlowly (s : Hosted β σ η) (sleeping : Bool) : Hosted β σ η :=
  let s := s.request (fun h => Host.cycleSlowly h sleeping) (.cycleSlowly sleeping)
  let (suspend, s) := s.ask Host.suspendRequested .suspendRequested
  if suspend then s.map Machine.checkAfterCycle else s

/-- Housekeeping after an instruction or an idle tick; none while nested. Slow housekeeping comes
with every idle tick, and otherwise when the counter of ticks has only zeros under the mask. -/
def cycle (s : Hosted β σ η) (sleeping : Bool) : Hosted β σ η :=
  let (nested, s) := s.isNested
  if nested then s
  else
    let s := s.request (fun h => Host.cycle h sleeping) (.cycle sleeping)
    let (changed, s) := s.consult Host.takeInterruptChange .takeInterruptChange
    let s := if changed then s.map Machine.interruptsChanged else s
    let s := s.map fun m => { m with slowCounter := m.slowCounter + 1 }
    if sleeping || s.machine.slowCounter &&& s.machine.settings.slowCycleMask == 0 then
      s.cycleSlowly sleeping
    else s

variable [Bus β]

def deliverInterrupt (s : Hosted β σ η) (level : Option UInt8) (wake : Registers → Registers) :
    Hosted β σ η :=
  match level with
  | none => s
  | some level =>
    if s.machine.regs.status.mask < level then
      let (base, s) := s.ask Host.interruptBase .interruptBase
      s.map fun m =>
        ((m.takeInterrupt base level).mapRegs fun r =>
          wake { r with stopped := false }).deliverFault
    else s

end Hosted
end Mc68000
