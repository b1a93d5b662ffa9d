import Mc68000.Proofs.Exception

/-!
# The way into a handler

An exception that no hook takes over packs the status, writes one frame below the supervisor stack
pointer, reads one vector and goes on at the address found there.
-/

namespace Mc68000
variable {β σ : Type}

/-- What the frame of an exception says, where it begins, and the memory that it is written to. -/
structure Entry (β : Type) where
  vector : ExceptionVector
  sr : UInt16
  returnAddress : UInt32
  sp : UInt32
  memory : β

namespace Entry
variable [Bus β]

def framed (e : Entry β) : β :=
  if e.vector.usesLongFrame then
    let b := Bus.writeWord e.memory e.sp 0
    let b := Bus.writeLong b (e.sp + 2) 0
    let b := Bus.writeWord b (e.sp + 6) 0
    Bus.writeLong (Bus.writeWord b (e.sp + 8) e.sr) (e.sp + 10) e.returnAddress
  else Bus.writeLong (Bus.writeWord e.memory e.sp e.sr) (e.sp + 2) e.returnAddress

def lookup (e : Entry β) (vbr : UInt32) : UInt32 × β :=
  Bus.readLongFullAccess e.framed (ExceptionVector.entryAddress vbr e.vector)

def handler (e : Entry β) (vbr : UInt32) : UInt32 := (e.lookup vbr).1

def entered (e : Entry β) (vbr : UInt32) : β := Bus.checkNewPc (e.lookup vbr).2 (e.handler vbr)

def drained (b : β) : β := (Bus.takeFault b).2

end Entry

def Status.inHandler (f : Status) : Status :=
  { f with t1 := false, t0 := false, s := true, m := false }

namespace Registers

theorem sp_enterSupervisor (r : Registers) : r.enterSupervisor.sp = r.supervisorSp := by
  unfold enterSupervisor supervisorSp
  split
  · rfl
  · exact sp_setSp _ _

theorem vbr_enterSupervisor (r : Registers) : r.enterSupervisor.vbr = r.vbr := by
  unfold enterSupervisor
  split <;> rfl

def enter (r : Registers) (sp handler : UInt32) : Registers :=
  Machine.dropTrace { r.packStatus.enterSupervisor.setSp sp with pc := handler }

section
variable (r : Registers) (sp handler : UInt32)

theorem dropTrace_enterSupervisor :
    Machine.dropTrace { r.enterSupervisor.setSp sp with pc := handler } =
      { r with
        a := (r.setSp sp).a
        usp := r.userSp
        pc := handler
        status := r.status.inHandler
        pending := r.pending.withoutTrace } := by
  unfold enterSupervisor Machine.dropTrace Status.inHandler userSp
  cases hs : r.status.s with
  | true => simp [setSp, hs]
  | false => simp [setSp, swapStacks, Registers.sp, Vector.set_set]

theorem enter_eq :
    r.enter sp handler =
      { r with
        a := (r.setSp sp).a
        usp := r.userSp
        pc := handler
        sr := r.status.toWord
        status := r.status.inHandler
        pending := r.pending.withoutTrace } :=
  r.packStatus.dropTrace_enterSupervisor sp handler

theorem status_enter : (r.enter sp handler).status = r.status.inHandler := by rw [enter_eq]

theorem supervisorSp_enter : (r.enter sp handler).supervisorSp = sp := by
  rw [supervisorSp, status_enter]
  exact sp_setSp _ _

theorem vbr_enter : (r.enter sp handler).vbr = r.vbr := by rw [enter_eq]

theorem sfc_enter : (r.enter sp handler).sfc = r.sfc := by rw [enter_eq]

theorem dfc_enter : (r.enter sp handler).dfc = r.dfc := by rw [enter_eq]

end
end Registers

namespace Machine

/-- The exception of `v`, were it to be taken now. -/
def entry (m : Machine β σ) (v : ExceptionVector) : Entry β :=
  ⟨v, m.regs.status.toWord, m.regs.pc, m.regs.supervisorSp - v.frameSize, m.bus⟩

theorem regs_notify (m : Machine β σ) (call : HookCall) (hc : call.intercepts = false) :
    (m.notify call).regs = m.regs := by
  obtain ⟨o, es, hm, -⟩ := m.notify_eq hc
  rw [hm]

theorem bus_notify (m : Machine β σ) (call : HookCall) (hc : call.intercepts = false) :
    (m.notify call).bus = m.bus := by
  obtain ⟨o, es, hm, -⟩ := m.notify_eq hc
  rw [hm]

theorem callHooks_of_noInterceptors {m : Machine β σ} (hH : m.hooks.NoInterceptors)
    (v : ExceptionVector) : m.callHooks (.exception v) = (false, m) := by
  simp [callHooks, Registry.listeners, Registry.listenersOf, hH v]

theorem checkStack_eq (m : Machine β σ) :
    m.checkStack =
      { m with
        guard :=
          { m.guard with
            overflowed := m.guard.overflowed || m.guard.overflowsAt m.regs.sp
            warned := m.guard.warned || m.guard.warnsAt m.regs.sp }
        journal :=
          (if m.guard.overflowsAt m.regs.sp then [.stackOverflow m.regs.sp m.guard.low] else []) ++
            (if m.guard.warnsAt m.regs.sp then [.stackLow m.regs.sp m.guard.lowWarn] else []) ++
              .frame m.regs.sp :: m.journal } := by
  have hwarned : ∀ g : StackGuard, ({ g with warned := true } : StackGuard).overflowsAt =
      g.overflowsAt := fun _ => rfl
  cases hlow : m.guard.warnsAt m.regs.sp <;> cases hover : m.guard.overflowsAt m.regs.sp <;>
    simp [checkStack, log, hlow, hover, hwarned]

theorem regs_checkStack (m : Machine β σ) : m.checkStack.regs = m.regs := by rw [checkStack_eq]

theorem bus_checkStack (m : Machine β σ) : m.checkStack.bus = m.bus := by rw [checkStack_eq]

variable [Bus β]

theorem regs_jump (m : Machine β σ) (pc : UInt32) :
    (m.jump pc).regs = { m.regs with pc := pc } := by
  have hregs := m.regs_notify (.newPc pc) rfl
  simp only [jump, announcePc, announcePcToBus, setPc, mapRegs, log, hregs]

theorem bus_jump (m : Machine β σ) (pc : UInt32) :
    (m.jump pc).bus = Bus.checkNewPc m.bus pc := by
  have hbus := m.bus_notify (.newPc pc) rfl
  simp only [jump, announcePc, announcePcToBus, setPc, mapRegs, log, hbus]

theorem regs_pushFrame (m : Machine β σ) (v : ExceptionVector) (sr : UInt16) (pc : UInt32) :
    (m.pushFrame v sr pc).regs = m.regs.reserve v.frameSize := by
  simp only [pushFrame]
  split <;> rfl

theorem bus_pushFrame (m : Machine β σ) (v : ExceptionVector) (sr : UInt16) (pc : UInt32) :
    (m.pushFrame v sr pc).bus = (⟨v, sr, pc, m.regs.sp - v.frameSize, m.bus⟩ : Entry β).framed := by
  have hsp : (m.regs.reserve v.frameSize).sp = m.regs.sp - v.frameSize := Registers.sp_setSp _ _
  simp only [pushFrame, Entry.framed, mapRegs, hsp, writeWord, writeLong]
  split <;> rfl

theorem regs_enterHandler (m : Machine β σ) (v : ExceptionVector) :
    (m.enterHandler v).regs = dropTrace { m.regs with
      pc := (Bus.readLongFullAccess m.bus (ExceptionVector.entryAddress m.regs.vbr v)).1 } := by
  simp only [enterHandler, mapRegs, regs_jump, readVector]

theorem bus_enterHandler (m : Machine β σ) (v : ExceptionVector) :
    (m.enterHandler v).bus =
      Bus.checkNewPc (Bus.readLongFullAccess m.bus (ExceptionVector.entryAddress m.regs.vbr v)).2
        (Bus.readLongFullAccess m.bus (ExceptionVector.entryAddress m.regs.vbr v)).1 := by
  simp only [enterHandler, mapRegs, bus_jump, readVector]

variable {m : Machine β σ}

theorem takeException_of_noInterceptors (hH : m.hooks.NoInterceptors) (v : ExceptionVector) :
    m.takeException v = ((m.mapRegs Registers.packStatus).recordException v).enterException v := by
  have hcall : m.interceptException v =
      (false, (m.mapRegs Registers.packStatus).recordException v) :=
    callHooks_of_noInterceptors (m := (m.mapRegs Registers.packStatus).recordException v) hH v
  rw [takeException_eq, hcall]
  rfl

def withFrame (m : Machine β σ) (v : ExceptionVector) : Machine β σ :=
  (((m.log (.exceptionTaken v m.regs.pc)).mapRegs Registers.enterSupervisor).pushFrame v
    m.regs.sr m.regs.pc).checkStack

theorem regs_withFrame (m : Machine β σ) (v : ExceptionVector) :
    (m.withFrame v).regs = m.regs.enterSupervisor.setSp (m.entry v).sp := by
  rw [withFrame, regs_checkStack, regs_pushFrame]
  simp only [mapRegs, log, Registers.reserve, Registers.sp_enterSupervisor, entry]

theorem bus_withFrame (m : Machine β σ) (v : ExceptionVector) :
    (m.withFrame v).bus = { m.entry v with sr := m.regs.sr }.framed := by
  rw [withFrame, bus_checkStack, bus_pushFrame]
  simp only [mapRegs, log, Registers.sp_enterSupervisor, entry]

theorem enterException_eq (m : Machine β σ) (v : ExceptionVector) :
    m.enterException v = (m.withFrame v).enterHandler v := rfl

theorem vbr_withFrame (m : Machine β σ) (v : ExceptionVector) :
    (m.withFrame v).regs.vbr = m.regs.vbr := by
  rw [regs_withFrame]
  exact Registers.vbr_enterSupervisor m.regs

theorem regs_takeException (hH : m.hooks.NoInterceptors) (v : ExceptionVector) :
    (m.takeException v).regs =
      m.regs.enter (m.entry v).sp ((m.entry v).handler m.regs.vbr) := by
  rw [takeException_of_noInterceptors hH, enterException_eq, regs_enterHandler, vbr_withFrame,
    regs_withFrame, bus_withFrame]
  rfl

theorem bus_enterException (m : Machine β σ) (v : ExceptionVector) :
    (m.enterException v).bus = { m.entry v with sr := m.regs.sr }.entered m.regs.vbr := by
  rw [enterException_eq, bus_enterHandler, vbr_withFrame, bus_withFrame]
  rfl

theorem sp_enterException (m : Machine β σ) (v : ExceptionVector) :
    (m.enterException v).regs.sp = (m.entry v).sp := by
  rw [enterException_eq, regs_enterHandler, regs_withFrame]
  exact Registers.sp_setSp _ _

theorem vbr_enterException (m : Machine β σ) (v : ExceptionVector) :
    (m.enterException v).regs.vbr = m.regs.vbr := by
  rw [enterException_eq, regs_enterHandler, ← vbr_withFrame m v]
  rfl

theorem bus_takeException (hH : m.hooks.NoInterceptors) (v : ExceptionVector) :
    (m.takeException v).bus = (m.entry v).entered m.regs.vbr := by
  rw [takeException_of_noInterceptors hH, bus_enterException]
  rfl

/-- The exception of a fault. The latch is emptied once more before it is taken. -/
def faultEntry (m : Machine β σ) (f : Fault) : Entry β :=
  { m.entry f.kind.vector with memory := Entry.drained m.bus }

theorem regs_enterFault (hH : m.hooks.NoInterceptors) (f : Fault) :
    (m.enterFault f).regs =
      m.regs.enter (m.faultEntry f).sp ((m.faultEntry f).handler m.regs.vbr) := by
  let n : Machine β σ := ({ m.takeFault.2 with lastFault := some f } : Machine β σ).log (.fault f)
  exact regs_takeException (m := n) hH f.kind.vector

theorem bus_enterFault (hH : m.hooks.NoInterceptors) (f : Fault) :
    (m.enterFault f).bus = (m.faultEntry f).entered m.regs.vbr := by
  let n : Machine β σ := ({ m.takeFault.2 with lastFault := some f } : Machine β σ).log (.fault f)
  exact bus_takeException (m := n) hH f.kind.vector

theorem regs_raiseFault (hH : m.hooks.NoInterceptors) (f : Fault) :
    ∃ p, (m.raiseFault f).regs =
      { m.regs.enter (m.faultEntry f).sp ((m.faultEntry f).handler m.regs.vbr) with
        pending := p } := by
  rw [raiseFault_eq, ← regs_enterFault hH]
  -- A double fault does no more to the registers than to ask for a break.
  split
  · exact ⟨_, rfl⟩
  · exact ⟨_, rfl⟩

theorem bus_raiseFault (hH : m.hooks.NoInterceptors) (f : Fault) :
    (m.raiseFault f).bus = Entry.drained ((m.faultEntry f).entered m.regs.vbr) := by
  rw [raiseFault_eq, ← bus_enterFault hH]
  split <;> rfl

end Machine
end Mc68000
