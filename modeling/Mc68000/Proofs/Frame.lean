import Mc68000.Proofs.Nesting

/-!
# What an exception leaves behind

An exception that no hook takes over moves one stack pointer, writes one frame and changes status,
program counter and pending conditions; everything else stays. That holds for all addresses: a frame
may wrap around the end of the addresses or of the memory, and it may cover the very vector that is
read after it was written.
-/

namespace Mc68000
variable {σ : Type}

namespace Entry

structure Holds (e : Entry Ram) (r : Ram) : Prop where
  short : e.vector.usesLongFrame = false →
    r.peekWord e.sp = e.sr ∧ r.peekLong (e.sp + 2) = e.returnAddress
  long : e.vector.usesLongFrame = true →
    r.peekWord e.sp = 0 ∧ r.peekLong (e.sp + 2) = 0 ∧ r.peekWord (e.sp + 6) = 0 ∧
      r.peekWord (e.sp + 8) = e.sr ∧ r.peekLong (e.sp + 10) = e.returnAddress

theorem length_bytes (e : Entry Ram) : e.bytes.length = e.vector.frameSize.toNat := by
  rw [bytes, ExceptionVector.frameSize]
  split <;> rfl

theorem frameSize_le (v : ExceptionVector) : v.frameSize.toNat ≤ 16 := by
  rw [ExceptionVector.frameSize]
  split <;> decide

theorem holds_of_bytes {e : Entry Ram} {r : Ram} (h : r.bytes e.sp e.bytes.length = e.bytes) :
    e.Holds r := by
  have hread := peek_of_bytes h
  constructor
  · intro hshort
    simpa [hshort] using hread
  · intro hlong
    have hbytes : e.bytes = BigEndian.wordBytes 0 ++ (BigEndian.longBytes 0 ++
        (BigEndian.wordBytes 0 ++ (BigEndian.wordBytes e.sr ++
          BigEndian.longBytes e.returnAddress))) := by
      rw [bytes, if_pos hlong]
      rfl
    rw [hbytes, Ram.bytes_append_iff, Ram.bytes_append_iff, Ram.bytes_append_iff] at h
    obtain ⟨hword, hzeros, hfill, -⟩ := h
    have hsix : e.sp + 2 + 4 = e.sp + 6 := UInt32.add_assoc ..
    have hten : e.sp + 8 + 2 = e.sp + 10 := UInt32.add_assoc ..
    simp only [hlong, if_true, hten] at hread
    refine ⟨Ram.peekWord_of_bytes hword, Ram.peekLong_of_bytes hzeros, ?_, hread⟩
    rw [← hsix]
    exact Ram.peekWord_of_bytes hfill

theorem bytes_entered {e : Entry Ram} (hlimit : e.memory.limit = none)
    (hsize : e.memory.size.isPowerOfTwo) (hroom : 16 ≤ e.memory.size) (vbr : UInt32) :
    (e.entered vbr).bytes e.sp e.bytes.length = e.bytes := by
  have hle : e.bytes.length ≤ 16 := by
    rw [length_bytes]
    exact frameSize_le _
  rw [e.entered_of_noLimit hlimit]
  exact Ram.bytes_load (Ram.nodup_cells hsize (hle.trans hroom) (hle.trans (by decide)) _)

theorem holds_entered {e : Entry Ram} (hlimit : e.memory.limit = none)
    (hsize : e.memory.size.isPowerOfTwo) (hroom : 16 ≤ e.memory.size) (vbr : UInt32) :
    e.Holds (e.entered vbr) :=
  holds_of_bytes (bytes_entered hlimit hsize hroom vbr)

theorem handler_of_noLimit (e : Entry Ram) (hlimit : e.memory.limit = none) (vbr : UInt32) :
    e.handler vbr = (e.entered vbr).peekLong (ExceptionVector.entryAddress vbr e.vector) := by
  have hframed : e.framed.limit = none := by
    rw [e.framed_of_noLimit hlimit, Ram.limit_load]
    exact hlimit
  have hread := Ram.readLong_of_noLimit hframed (ExceptionVector.entryAddress vbr e.vector)
  rw [e.entered_of_noLimit hlimit, ← e.framed_of_noLimit hlimit]
  exact congrArg Prod.fst hread

end Entry

namespace Machine
variable {m m' : Machine Ram σ} {v : ExceptionVector}

/-- `m'` is where the exception `v` leads from `m`. -/
structure Framed (m m' : Machine Ram σ) (v : ExceptionVector) : Prop where
  supervisorSp : m'.regs.supervisorSp = m.regs.supervisorSp - v.frameSize
  userSp : m'.regs.userSp = m.regs.userSp
  frame : Entry.Holds ⟨v, m.regs.status.toWord, m.regs.pc, m'.regs.supervisorSp, m.bus⟩ m'.bus
  memory : ∀ x, (∀ y ∈ Ram.span m'.regs.supervisorSp v.frameSize.toNat,
    x.toNat % m.bus.size ≠ y.toNat % m.bus.size) → m'.bus.peek x = m.bus.peek x
  size : m'.bus.size = m.bus.size
  pc : m'.regs.pc = m'.bus.peekLong (ExceptionVector.entryAddress m.regs.vbr v)
  status : m'.regs.status =
    { m.regs.status with t1 := false, t0 := false, s := true, m := false }
  pending : m'.regs.pending = { m.regs.pending with traceArmed := false, traceDue := false }
  sr : m'.regs.sr = m.regs.status.toWord
  others : m'.regs.d = m.regs.d ∧ (∀ (i : Nat) (h : i < 7), m'.regs.a[i] = m.regs.a[i]) ∧
    m'.regs.isp = m.regs.isp ∧ m'.regs.stopped = m.regs.stopped ∧ m'.regs.vbr = m.regs.vbr ∧
      m'.regs.sfc = m.regs.sfc ∧ m'.regs.dfc = m.regs.dfc ∧ m'.regs.fpcr = m.regs.fpcr ∧
        m'.regs.fpsr = m.regs.fpsr ∧ m'.regs.fpiar = m.regs.fpiar
  record : m'.exceptionHistory.entries =
    (⟨v, m.regs.pc, m.regs.sp⟩ :: m.exceptionHistory.entries).take m.exceptionHistory.capacity
  capacity : m'.exceptionHistory.capacity = m.exceptionHistory.capacity

section
variable {β : Type}

theorem exceptionHistory_checkStack (m : Machine β σ) :
    m.checkStack.exceptionHistory = m.exceptionHistory := by rw [checkStack_eq]

variable [Bus β]

theorem exceptionHistory_pushFrame (m : Machine β σ) (v : ExceptionVector) (sr : UInt16)
    (pc : UInt32) : (m.pushFrame v sr pc).exceptionHistory = m.exceptionHistory := by
  simp only [pushFrame]
  split <;> rfl

theorem exceptionHistory_jump (m : Machine β σ) (pc : UInt32) :
    (m.jump pc).exceptionHistory = m.exceptionHistory := by
  have hobserves : (HookCall.newPc pc).intercepts = false := rfl
  obtain ⟨o, es, hm, -⟩ := m.notify_eq hobserves
  rw [jump, announcePc, hm]
  rfl

theorem exceptionHistory_enterHandler (m : Machine β σ) (v : ExceptionVector) :
    (m.enterHandler v).exceptionHistory = m.exceptionHistory := by
  simp only [enterHandler, mapRegs, exceptionHistory_jump]
  rfl

theorem exceptionHistory_takeException {m : Machine β σ} (hH : m.hooks.NoInterceptors)
    (v : ExceptionVector) :
    (m.takeException v).exceptionHistory =
      m.exceptionHistory.push ⟨v, m.regs.pc, m.regs.sp⟩ := by
  rw [takeException_of_noInterceptors hH, enterException_eq, exceptionHistory_enterHandler,
    withFrame, exceptionHistory_checkStack, exceptionHistory_pushFrame]
  rfl

end

/-- Wherever the stacks, the vectors and the program are, the exception leaves its frame and
nothing else. -/
theorem takeException_framed (hlimit : m.bus.limit = none) (hsize : m.bus.size.isPowerOfTwo)
    (hroom : 16 ≤ m.bus.size) (hH : m.hooks.NoInterceptors) (v : ExceptionVector) :
    m.Framed (m.takeException v) v := by
  have hbus := bus_takeException hH v
  have hregs := regs_takeException hH v
  have hsp : (m.takeException v).regs.supervisorSp = (m.entry v).sp := by
    rw [hregs]
    exact Registers.supervisorSp_enter ..
  have hload : (m.takeException v).bus = m.bus.load (m.entry v).sp (m.entry v).bytes := by
    rw [hbus]
    exact (m.entry v).entered_of_noLimit hlimit _
  have hrecord := exceptionHistory_takeException hH v
  constructor
  case supervisorSp => exact hsp
  case userSp =>
    rw [hregs]
    exact Registers.userSp_enter ..
  case frame =>
    rw [hsp, hbus]
    exact Entry.holds_entered hlimit hsize hroom _
  case memory =>
    intro x hx
    rw [hload]
    apply Ram.peek_load
    rw [Entry.length_bytes]
    rwa [hsp] at hx
  case size => rw [hload, Ram.size_load]
  case pc =>
    -- The frame may cover the vector: the handler is read from memory as the frame left it.
    rw [hregs, hbus]
    exact (m.entry v).handler_of_noLimit hlimit _
  case status =>
    rw [hregs, Registers.enter_eq]
    rfl
  case pending =>
    rw [hregs, Registers.enter_eq]
    rfl
  case sr => rw [hregs, Registers.enter_eq]
  case others =>
    rw [hregs]
    refine ⟨Registers.d_enter .., fun i h => Registers.a_enter _ _ _ i h, ?_⟩
    rw [Registers.enter_eq]
    exact ⟨rfl, rfl, rfl, rfl, rfl, rfl, rfl, rfl⟩
  case record =>
    rw [hrecord]
    exact History.entries_push ..
  case capacity =>
    rw [hrecord]
    exact History.capacity_push ..

def cramped : Machine Ram Unit :=
  let m := Machine.ofSettings { Settings.default with exceptionHistory := 4 } (Ram.ofSize 16) ()
  let m := ((m.setRegister .ssp 0x4).setRegister .sr 0x8015).setRegister .pc 0x0BADCAFE
  m.mapRegs fun r => { r with vbr := 0xFFFFFFF8 }

theorem takeException_framed_cramped :
    cramped.bus.limit = none ∧ cramped.bus.size.isPowerOfTwo ∧ 16 ≤ cramped.bus.size ∧
      cramped.hooks.NoInterceptors ∧
        cramped.Framed (cramped.takeException ExceptionVector.busError) ExceptionVector.busError :=
  have hsize : cramped.bus.size = 2 ^ 4 := by decide +kernel
  have hH : cramped.hooks.NoInterceptors := fun _ => rfl
  have hpower : cramped.bus.size.isPowerOfTwo := ⟨4, hsize⟩
  have hroom : 16 ≤ cramped.bus.size := hsize.ge
  ⟨rfl, hpower, hroom, hH, takeException_framed rfl hpower hroom hH _⟩

-- The handler is where the program was.
example : (cramped.takeException ExceptionVector.busError).regs.pc = 0x0BADCAFE := by
  decide +kernel

end Machine
end Mc68000
