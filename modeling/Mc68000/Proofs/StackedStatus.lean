import Mc68000.Proofs.Interception

/-!
# The status word of a frame

Status is there twice, broken out and packed, and hooks that pass an exception on may have changed
either. The frame gets the packed word as the hooks left it. It was packed before they ran, so what
they did to the broken-out status alone is not in the frame, and is lost with the return.
-/

namespace Mc68000
variable {β σ : Type} [Bus β] {v : ExceptionVector}

namespace Machine

def statusAddress (m : Machine β σ) (v : ExceptionVector) : UInt32 :=
  m.regs.supervisorSp + if v.usesLongFrame then 8 else 0

def stackedStatus (m : Machine β σ) (v : ExceptionVector) : UInt16 :=
  (Bus.readWord m.bus (m.statusAddress v)).1

/-- What a return reads for the program counter, with the status word read before it. -/
def stackedPc (m : Machine β σ) (v : ExceptionVector) : UInt32 :=
  (Bus.readLong (Bus.readWord m.bus (m.statusAddress v)).2 (m.statusAddress v + 2)).1

end Machine

/-- Memory keeps what the frame has for a return. -/
def Entry.ReadsBack (e : Entry β) (vbr : UInt32) : Prop :=
  let word := Bus.readWord (e.entered vbr) (e.sp + if e.vector.usesLongFrame then 8 else 0)
  word.1 = e.sr ∧
    (Bus.readLong word.2 ((e.sp + if e.vector.usesLongFrame then 8 else 0) + 2)).1 =
      e.returnAddress

theorem Entry.readsBack_of_noLimit {e : Entry Ram} (hlimit : e.memory.limit = none)
    (hsize : e.memory.size.isPowerOfTwo) (hroom : 16 ≤ e.memory.size) (vbr : UInt32) :
    e.ReadsBack vbr := by
  have hentered : (e.entered vbr).limit = none := by
    rw [e.entered_of_noLimit hlimit, Ram.limit_load]
    exact hlimit
  have hpeek := Entry.peek_of_bytes (Entry.bytes_entered hlimit hsize hroom vbr)
  rw [ReadsBack, Ram.readWord_of_noLimit hentered]
  refine ⟨hpeek.1, ?_⟩
  rw [Ram.readLong_of_noLimit hentered]
  exact hpeek.2

namespace Machine
variable {m : Machine β σ} {answers : List Bool} {left : Scene β σ}

theorem status_enterException (m : Machine β σ) (v : ExceptionVector) :
    (m.enterException v).regs.status.s = true := by
  rw [regs_enterException]
  rfl

theorem supervisorSp_enterException (m : Machine β σ) (v : ExceptionVector) :
    (m.enterException v).regs.supervisorSp = m.regs.supervisorSp - v.frameSize := by
  rw [Registers.supervisorSp, if_pos (status_enterException m v), sp_enterException]
  rfl

theorem stacked_enterException (h : (leftEntry v m.scene).ReadsBack m.regs.vbr) :
    (m.enterException v).stackedStatus v = m.regs.sr ∧
      (m.enterException v).stackedPc v = m.regs.pc := by
  let e := leftEntry v m.scene
  have hbus : (m.enterException v).bus = e.entered m.regs.vbr := bus_enterException m v
  have haddress : (m.enterException v).statusAddress v =
      e.sp + if e.vector.usesLongFrame then 8 else 0 := by
    rw [statusAddress, supervisorSp_enterException]
    rfl
  rw [stackedStatus, stackedPc, haddress, hbus]
  exact h

def returned (m : Machine β σ) (v : ExceptionVector) : Machine β σ :=
  (ControlInstructions.rte 0x4E73 (m.atStatus v)).2

theorem regs_rte (hs : m.regs.status.s = true) (w : UInt16) :
    (ControlInstructions.rte w m).2.regs =
      { ((m.regs.release 2).release 4).loadStatus (Bus.readWord m.bus m.regs.sp).1 with
        pc := (Bus.readLong (Bus.readWord m.bus m.regs.sp).2 (m.regs.sp + 2)).1 } := by
  have hsp : (m.regs.release 2).sp = m.regs.sp + 2 := Registers.sp_setSp _ _
  simp only [ControlInstructions.rte, ControlInstructions.privileged, hs, if_true]
  rw [regs_jump, regs_notify _ _ rfl, regs_notify _ _ rfl, ← hsp]
  rfl

theorem regs_returned (hs : m.regs.status.s = true) (v : ExceptionVector) :
    (m.returned v).regs.status = Status.ofWord (m.stackedStatus v) ∧
      (m.returned v).regs.pc = m.stackedPc v ∧
        (m.returned v).regs.supervisorSp = m.regs.supervisorSp + v.frameSize := by
  have hs' : (m.atStatus v).regs.status.s = true := by
    rw [m.status_atStatus]
    exact hs
  have hregs := regs_rte hs' 0x4E73
  have hactive : m.regs.supervisorSp = m.regs.sp := if_pos hs
  have haddress : (m.atStatus v).regs.sp = m.statusAddress v := by
    rw [m.sp_atStatus, statusAddress, hactive]
  have hreleased : (m.regs.release v.frameSize).supervisorSp = m.regs.sp + v.frameSize :=
    (Registers.supervisorSp_setSp ..).trans (if_pos hs)
  rw [m.release_atStatus, m.bus_atStatus, haddress] at hregs
  rw [returned, hregs, hactive, ← hreleased]
  exact ⟨Registers.status_loadStatus .., rfl, Registers.supervisorSp_unpackStatus _⟩

/-- From where a handler was entered to where it returns: it is still in supervisor state, and has
left its frame alone. -/
structure KeepsFrame (m k : Machine β σ) (v : ExceptionVector) : Prop where
  supervisor : k.regs.status.s = true
  sp : k.regs.supervisorSp = m.regs.supervisorSp
  status : k.stackedStatus v = m.stackedStatus v
  pc : k.stackedPc v = m.stackedPc v

/-- What becomes of the status that hooks leave when they pass an exception on. -/
structure StacksStatus (m : Machine β σ) (v : ExceptionVector) (left : Scene β σ) : Prop where
  frame : (m.takeException v).bus = (leftEntry v left).entered left.registers.vbr
  iff : (leftEntry v left).ReadsBack left.registers.vbr →
    ((m.takeException v).stackedStatus v = left.registers.status.toWord ↔
      left.registers.sr = left.registers.status.toWord)
  pc : (leftEntry v left).ReadsBack left.registers.vbr →
    (m.takeException v).stackedPc v = left.registers.pc
  broken_out : (∀ x ∈ m.hooks.interceptors v, ∀ s, (x.2 v s).2.registers.sr = s.registers.sr) →
    (left.registers.sr = left.registers.status.toWord ↔
      left.registers.status.toWord = m.regs.status.toWord)
  both : (∀ x ∈ m.hooks.interceptors v, ∀ s, s.registers.sr = s.registers.status.toWord →
      (x.2 v s).2.registers.sr = (x.2 v s).2.registers.status.toWord) →
    left.registers.sr = left.registers.status.toWord
  returns : (leftEntry v left).ReadsBack left.registers.vbr →
    ∀ k : Machine β σ, (m.takeException v).KeepsFrame k v →
      (k.returned v).regs.status = Status.ofWord left.registers.sr ∧
        (k.returned v).regs.pc = left.registers.pc ∧
          (k.returned v).regs.supervisorSp = left.registers.supervisorSp ∧
            (left.registers.status.mask ≤ 7 →
              left.registers.sr = left.registers.status.toWord →
                (k.returned v).regs.status = left.registers.status)
  entered : (m.takeException v).KeepsFrame (m.takeException v) v

theorem stackedStatus_iff
    (h : Intercepts v ((m.hooks.interceptors v).map Prod.snd) m.packedScene answers left)
    (hanswers : true ∉ answers) : m.StacksStatus v left := by
  have hkeeps : ∀ P : Scene β σ → Prop,
      (∀ x ∈ m.hooks.interceptors v, ∀ s, P s → P (x.2 v s).2) → P m.packedScene → P left := by
    intro P hP hpacked
    refine h.keeps (P := P) ?_ hpacked
    intro f hf s hs
    obtain ⟨x, hx, rfl⟩ := List.mem_map.mp hf
    exact hP x hx s hs
  have htaken := takeException_of_not_handled h hanswers
  have hsp := supervisorSp_enterException (m.intercepted v left) v
  have hstacked : (leftEntry v left).ReadsBack left.registers.vbr →
      (m.takeException v).stackedStatus v = left.registers.sr ∧
        (m.takeException v).stackedPc v = left.registers.pc := by
    intro hreads
    rw [htaken]
    exact stacked_enterException (m := m.intercepted v left) hreads
  rw [← htaken] at hsp
  constructor
  case frame =>
    rw [htaken]
    exact bus_enterException (m.intercepted v left) v
  case iff =>
    intro hreads
    rw [(hstacked hreads).1]
  case pc =>
    intro hreads
    exact (hstacked hreads).2
  case broken_out =>
    intro hfields
    have hsr : left.registers.sr = m.regs.status.toWord :=
      hkeeps (fun s => s.registers.sr = m.regs.status.toWord)
        (fun x hx s hs => (hfields x hx s).trans hs) rfl
    rw [hsr, eq_comm]
  case both =>
    intro hboth
    exact hkeeps (fun s => s.registers.sr = s.registers.status.toWord) hboth rfl
  case returns =>
    intro hreads k hkept
    obtain ⟨hstatus, hpc⟩ := hstacked hreads
    obtain ⟨hback, hbackPc, hbackSp⟩ := regs_returned hkept.supervisor v
    rw [hkept.status, hstatus] at hback
    rw [hkept.sp, hsp, UInt32.sub_add_cancel] at hbackSp
    refine ⟨hback, hbackPc.trans (hkept.pc.trans hpc), hbackSp, ?_⟩
    intro hmask hpacked
    rw [hback, hpacked]
    exact Status.ofWord_toWord_of_mask hmask
  case entered =>
    refine ⟨?_, rfl, rfl, rfl⟩
    rw [htaken]
    exact status_enterException _ v

def setCarry : ExceptionHook Ram Unit := fun _ s =>
  (false, { s with
    registers := { s.registers with status := { s.registers.status with c := true } } })

def carrying : Machine Ram Unit :=
  let m := Machine.ofSettings Settings.default (Ram.ofSize 256) ()
  ((m.setRegister .sp 0x100).installHook (.exception ExceptionVector.trapBase setCarry)).2

def carried : Scene Ram Unit := (setCarry ExceptionVector.trapBase carrying.packedScene).2

theorem carrying_intercepts :
    Intercepts ExceptionVector.trapBase
      ((carrying.hooks.interceptors ExceptionVector.trapBase).map Prod.snd) carrying.packedScene
        [false] carried := .called (.done _)

theorem carrying_readsBack :
    (leftEntry ExceptionVector.trapBase carried).ReadsBack carried.registers.vbr := by
  have hsize : carried.bus.size = 2 ^ 8 := by decide +kernel
  have hroom : 16 ≤ carried.bus.size := by
    rw [hsize]
    decide
  exact Entry.readsBack_of_noLimit rfl ⟨8, hsize⟩ hroom _

theorem stackedStatus_iff_carrying :
    Intercepts ExceptionVector.trapBase
        ((carrying.hooks.interceptors ExceptionVector.trapBase).map Prod.snd) carrying.packedScene
          [false] carried ∧
      true ∉ [false] ∧
        (leftEntry ExceptionVector.trapBase carried).ReadsBack carried.registers.vbr ∧
          carrying.StacksStatus ExceptionVector.trapBase carried :=
  ⟨carrying_intercepts, by decide, carrying_readsBack,
    stackedStatus_iff carrying_intercepts (by decide)⟩

theorem stackedStatus_stale :
    Intercepts ExceptionVector.trapBase
        ((carrying.hooks.interceptors ExceptionVector.trapBase).map Prod.snd) carrying.packedScene
          [false] carried ∧
      carried.registers.status.toWord = 0x2701 ∧
        (carrying.takeException ExceptionVector.trapBase).stackedStatus
          ExceptionVector.trapBase = 0x2700 ∧
            ((carrying.takeException ExceptionVector.trapBase).returned
              ExceptionVector.trapBase).regs.status.c = false :=
  ⟨carrying_intercepts, by decide +kernel⟩

end Machine
end Mc68000
