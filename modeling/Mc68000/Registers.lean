import Mc68000.Pending
import Mc68000.Status

/-!
# The register file

A7 is the stack pointer of the mode the processor is in; the stack pointer of the other mode is
parked in USP or ISP, and the parked word of the active mode means nothing. The broken-out status is
authoritative; the packed word is brought up to date on demand and lags in between. A change of mode
moves neither stack pointer (`userSp_unpackStatus`, `supervisorSp_unpackStatus`).
-/

namespace Mc68000

structure Registers where
  d : Vector UInt32 8
  a : Vector UInt32 8
  usp : UInt32
  isp : UInt32
  pc : UInt32
  /-- The packed status as of the last packing. -/
  sr : UInt16
  status : Status
  /-- A STOP was executed and nothing has woken the processor since. -/
  stopped : Bool
  vbr : UInt32
  sfc : UInt32
  dfc : UInt32
  fpcr : UInt32
  fpsr : UInt32
  fpiar : UInt32
  pending : Pending
  deriving DecidableEq

namespace Registers

def initial : Registers where
  d := Vector.replicate 8 0
  a := Vector.replicate 8 0
  usp := 0
  isp := 0
  pc := 0
  sr := 0x2700
  status := Status.reset
  stopped := false
  vbr := 0
  sfc := 0
  dfc := 0
  fpcr := 0
  fpsr := 0
  fpiar := 0
  pending := Pending.none

def sp (r : Registers) : UInt32 := r.a[7]

def setSp (r : Registers) (v : UInt32) : Registers := { r with a := r.a.set 7 v }

/-- The user stack pointer, wherever it is at the moment. -/
def userSp (r : Registers) : UInt32 := if r.status.s then r.usp else r.sp

def supervisorSp (r : Registers) : UInt32 := if r.status.s then r.sp else r.isp

def setUserSp (r : Registers) (v : UInt32) : Registers :=
  if r.status.s then { r with usp := v } else r.setSp v

def setSupervisorSp (r : Registers) (v : UInt32) : Registers :=
  if r.status.s then r.setSp v else { r with isp := v }

def reserve (r : Registers) (n : UInt32) : Registers := r.setSp (r.sp - n)

def release (r : Registers) (n : UInt32) : Registers := r.setSp (r.sp + n)

/-- Exchange A7 with the parked stack pointer of the other mode, for a processor that was in
supervisor state or not. -/
def swapStacks (r : Registers) (wasSupervisor : Bool) : Registers :=
  if wasSupervisor then { r with isp := r.sp }.setSp r.usp
  else { r with usp := r.sp }.setSp r.isp

def enterSupervisor (r : Registers) : Registers :=
  if r.status.s then r
  else
    let r := r.swapStacks false
    { r with status := { r.status with s := true } }

def packStatus (r : Registers) : Registers := { r with sr := r.status.toWord }

/-- The interrupt mask may have dropped, so the level is to be read again; tracing follows the trace
bits. -/
def followStatus (r : Registers) : Registers :=
  let p := { r.pending with interruptCheck := true }
  { r with pending := if r.status.traces then { p with traceArmed := true } else p.withoutTrace }

def unpackStatus (r : Registers) : Registers :=
  let was := r.status.s
  let r := { r with status := Status.ofWord r.sr }
  (if was = r.status.s then r else r.swapStacks was).followStatus

def loadStatus (r : Registers) (w : UInt16) : Registers := { r with sr := w }.unpackStatus

def setMask (r : Registers) (level : UInt8) : Registers :=
  { r with status := { r.status with mask := level &&& 7 } }

def mapPending (r : Registers) (f : Pending → Pending) : Registers :=
  { r with pending := f r.pending }

@[simp] theorem sp_setSp (r : Registers) (v : UInt32) : (r.setSp v).sp = v := by
  simp [sp, setSp]

@[simp] theorem userSp_setUserSp (r : Registers) (v : UInt32) : (r.setUserSp v).userSp = v := by
  unfold setUserSp userSp
  split <;> simp_all [setSp, sp]

@[simp] theorem supervisorSp_setUserSp (r : Registers) (v : UInt32) :
    (r.setUserSp v).supervisorSp = r.supervisorSp := by
  unfold setUserSp supervisorSp
  split <;> simp_all [setSp, sp]

@[simp] theorem supervisorSp_setSupervisorSp (r : Registers) (v : UInt32) :
    (r.setSupervisorSp v).supervisorSp = v := by
  unfold setSupervisorSp supervisorSp
  split <;> simp_all [setSp, sp]

@[simp] theorem userSp_setSupervisorSp (r : Registers) (v : UInt32) :
    (r.setSupervisorSp v).userSp = r.userSp := by
  unfold setSupervisorSp userSp
  split <;> simp_all [setSp, sp]

@[simp] theorem userSp_enterSupervisor (r : Registers) : r.enterSupervisor.userSp = r.userSp := by
  unfold enterSupervisor userSp
  split <;> simp_all [swapStacks, setSp, sp]

@[simp] theorem supervisorSp_enterSupervisor (r : Registers) :
    r.enterSupervisor.supervisorSp = r.supervisorSp := by
  unfold enterSupervisor supervisorSp
  split <;> simp_all [swapStacks, setSp, sp]

@[simp] theorem userSp_unpackStatus (r : Registers) : r.unpackStatus.userSp = r.userSp := by
  unfold unpackStatus followStatus userSp
  cases h : r.status.s <;> cases h' : (Status.ofWord r.sr).s <;>
    simp [h', swapStacks, setSp, sp]

@[simp] theorem supervisorSp_unpackStatus (r : Registers) :
    r.unpackStatus.supervisorSp = r.supervisorSp := by
  unfold unpackStatus followStatus supervisorSp
  cases h : r.status.s <;> cases h' : (Status.ofWord r.sr).s <;>
    simp [h', swapStacks, setSp, sp]

@[simp] theorem pending_swapStacks (r : Registers) (was : Bool) :
    (r.swapStacks was).pending = r.pending := by
  cases was <;> rfl

@[simp] theorem pending_enterSupervisor (r : Registers) :
    r.enterSupervisor.pending = r.pending := by
  unfold enterSupervisor
  split <;> simp

@[simp] theorem interruptCheck_followStatus (r : Registers) :
    r.followStatus.pending.interruptCheck = true := by
  simp only [followStatus]
  split <;> rfl

@[simp] theorem stop_followStatus (r : Registers) :
    r.followStatus.pending.stop = r.pending.stop := by
  simp only [followStatus]
  split <;> rfl

@[simp] theorem breakRequest_followStatus (r : Registers) :
    r.followStatus.pending.breakRequest = r.pending.breakRequest := by
  simp only [followStatus]
  split <;> rfl

@[simp] theorem interruptCheck_unpackStatus (r : Registers) :
    r.unpackStatus.pending.interruptCheck = true := by
  simp only [unpackStatus, interruptCheck_followStatus]

@[simp] theorem stop_unpackStatus (r : Registers) :
    r.unpackStatus.pending.stop = r.pending.stop := by
  simp only [unpackStatus, stop_followStatus]
  split <;> simp

@[simp] theorem breakRequest_unpackStatus (r : Registers) :
    r.unpackStatus.pending.breakRequest = r.pending.breakRequest := by
  simp only [unpackStatus, breakRequest_followStatus]
  split <;> simp

theorem status_swapStacks (r : Registers) (was : Bool) : (r.swapStacks was).status = r.status := by
  cases was <;> rfl

theorem loadStatus_eq (r : Registers) (w : UInt16) :
    ∃ r₁ : Registers, r.loadStatus w = r₁.followStatus ∧ r₁.status = Status.ofWord w ∧
      r₁.pending = r.pending := by
  simp only [loadStatus, unpackStatus]
  split
  · exact ⟨_, rfl, rfl, rfl⟩
  · exact ⟨_, rfl, status_swapStacks _ _, pending_swapStacks _ _⟩

theorem status_loadStatus (r : Registers) (w : UInt16) :
    (r.loadStatus w).status = Status.ofWord w := by
  obtain ⟨r₁, hload, hstatus, -⟩ := r.loadStatus_eq w
  rw [hload]
  exact hstatus

theorem traceArmed_followStatus (r : Registers) :
    r.followStatus.pending.traceArmed = r.status.traces := by
  simp only [followStatus]
  cases r.status.traces <;> rfl

theorem traceArmed_loadStatus (r : Registers) (w : UInt16) :
    (r.loadStatus w).pending.traceArmed = (Status.ofWord w).traces := by
  rw [← status_loadStatus r w]
  exact traceArmed_followStatus _

theorem traceDue_followStatus (r : Registers) :
    r.followStatus.pending.traceDue = (r.pending.traceDue && r.status.traces) := by
  simp only [followStatus]
  cases r.status.traces <;> simp [Pending.withoutTrace]

theorem traceDue_loadStatus (r : Registers) (w : UInt16) :
    (r.loadStatus w).pending.traceDue = (r.pending.traceDue && (Status.ofWord w).traces) := by
  obtain ⟨r₁, hload, hstatus, hpending⟩ := r.loadStatus_eq w
  rw [hload, traceDue_followStatus, hstatus, hpending]

theorem interruptDue_followStatus (r : Registers) :
    r.followStatus.pending.interruptDue = r.pending.interruptDue := by
  simp only [followStatus]
  cases r.status.traces <;> rfl

theorem interruptDue_loadStatus (r : Registers) (w : UInt16) :
    (r.loadStatus w).pending.interruptDue = r.pending.interruptDue := by
  obtain ⟨r₁, hload, -, hpending⟩ := r.loadStatus_eq w
  rw [hload, interruptDue_followStatus, hpending]

end Registers

/-- A register to read or write by name. Numbers count modulo eight. -/
inductive Register where
  | data (n : UInt8)
  | address (n : UInt8)
  | usp
  | ssp
  | sp
  | pc
  | sr
  deriving DecidableEq, Repr

def Register.place (n : UInt8) : Fin 8 := Fin.ofNat 8 n.toNat

namespace Registers

def read (r : Registers) : Register → UInt32 × Registers
  | .data n => (r.d[Register.place n], r)
  | .address n => (r.a[Register.place n], r)
  | .usp => (r.userSp, r)
  | .ssp => (r.supervisorSp, r)
  | .sp => (r.sp, r)
  | .pc => (r.pc, r)
  | .sr => (r.packStatus.sr.toUInt32, r.packStatus)

def write (r : Registers) (q : Register) (v : UInt32) : Registers :=
  match q with
  | .data n => { r with d := r.d.set (Register.place n) v }
  | .address n => { r with a := r.a.set (Register.place n) v }
  | .usp => r.setUserSp v
  | .ssp => r.setSupervisorSp v
  | .sp => r.setSp v
  | .pc => { r with pc := v }
  | .sr => r.loadStatus v.toUInt16

end Registers
end Mc68000
