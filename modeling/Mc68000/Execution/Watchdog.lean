import Mc68000.Execution.Hosted

/-!
# The dead man's switch

Reports that the execution loop has not returned for longer than a session allows, and then waits as
long again. Without a timeout the clock is not read at all.
-/

namespace Mc68000

structure Watchdog where
  start : UInt64
  deriving DecidableEq, Repr

namespace Watchdog
variable {β σ η : Type} [Host η]

def arm (s : Hosted β σ η) : Watchdog × Hosted β σ η :=
  match s.machine.settings.deadManTimeoutMs with
  | none => (⟨0⟩, s)
  | some _ =>
    let (now, s) := s.consult Host.nowMillis .nowMillis
    (⟨now⟩, s)

/-- Time since `start`; none if the clock went back. -/
def elapsed (w : Watchdog) (now : UInt64) : UInt64 := if w.start ≤ now then now - w.start else 0

def check (w : Watchdog) (s : Hosted β σ η) : Watchdog × Hosted β σ η :=
  match s.machine.settings.deadManTimeoutMs with
  | none => (w, s)
  | some timeout =>
    let (now, s) := s.consult Host.nowMillis .nowMillis
    if timeout < w.elapsed now then
      (⟨now⟩, s.log (.overdue now (w.elapsed now) s.machine.regs.pc))
    else (w, s)

end Watchdog
end Mc68000
