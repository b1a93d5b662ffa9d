import Mc68000.Execution.Watchdog

/-!
# Idling after a STOP

A stopped processor ticks the hardware until an interrupt above the mask wakes it or a break is
asked for.
-/

namespace Mc68000.Hosted
variable {β σ η : Type} [Host η]

def pauseSource (before : List EventSource × Hosted β σ η) (source : EventSource) :
    List EventSource × Hosted β σ η :=
  let (on, s) := before.2.consult (fun h => Host.eventSource h source) (.eventSource source)
  if on = some true then
    (before.1 ++ [source],
      s.request (fun h => Host.setEventSource h source false) (.setEventSource source false))
  else (before.1, s)

def resumeSource (s : Hosted β σ η) (source : EventSource) : Hosted β σ η :=
  let (on, s) := s.consult (fun h => Host.eventSource h source) (.eventSource source)
  if on.isSome then
    s.request (fun h => Host.setEventSource h source true) (.setEventSource source true)
  else s

def postPower (s : Hosted β σ η) (pressed : Bool) : Hosted β σ η :=
  s.request (fun h => Host.postButtonEvent h ⟨.power, pressed⟩ pressed)
    (.postButtonEvent ⟨.power, pressed⟩ pressed)

/-- The device fell asleep while something fed it events: pause what is on, press and release Power,
and resume. Nothing happens if nothing is on. -/
def pressPower (s : Hosted β σ η) : Hosted β σ η :=
  let (suspended, s) := EventSource.all.foldl pauseSource ([], s)
  if suspended.isEmpty then s
  else suspended.foldl resumeSource
    (((s.log (.powerPressed suspended)).postPower true).postPower false)

def enterIdle (s : Hosted β σ η) : Watchdog × Hosted β σ η :=
  let s := if 7 ≤ s.machine.regs.status.mask then s.log (.stopMasked s.machine.regs.pc) else s
  let (asleep, s) := s.ask Host.isAsleep .isAsleep
  if asleep then
    let (queued, s) := s.ask Host.hasButtonEvent .hasButtonEvent
    Watchdog.arm (if queued then s else s.pressPower)
  else Watchdog.arm s

variable [Bus β]

/-- Wake up for an interrupt above the mask. The level is read if it may have changed, and then not
again before the next change. -/
def idleInterrupt (s : Hosted β σ η) : Hosted β σ η :=
  let p := s.machine.regs.pending
  if p.interruptCheck || p.interruptDue then
    let (level, s) := s.pendingLevel
    (s.map fun m => m.mapPending Pending.withoutInterrupt).deliverInterrupt level fun r =>
      r.mapPending fun p => { p with stop := false }
  else s

def idleTick (s : Hosted β σ η) : Hosted β σ η :=
  let s := s.request Host.delay .delay
  let s := s.map fun m => m.charge m.settings.idleTickCycles
  (s.cycle true).idleInterrupt

end Mc68000.Hosted
