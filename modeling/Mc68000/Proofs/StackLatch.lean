import Mc68000.Memory.Ram
import Mc68000.Proofs.Preservation

/-!
# What the guard of the kernel stack remembers

The guard says that the stack has overflowed if and only if one of the frames that were pushed since
it was last told to forget ends below its bound. Every frame is looked at, wherever the exception
comes from, and the stack pointer at no other time.
-/

namespace Mc68000

namespace Event

def frame? : Event → Option UInt32
  | .frame sp => some sp
  | _ => none

theorem frame?_of_not_isNotable {e : Event} (h : e.isNotable = false) : e.frame? = none := by
  cases e with
  | frame sp => cases h
  | _ => rfl

end Event

namespace StackGuard
variable {g : StackGuard} {sps : List UInt32}

/-- It has overflowed if and only if one of these frames is below the bound. -/
def Latches (g : StackGuard) (sps : List UInt32) : Prop :=
  g.overflowed = true ↔ g.low ≠ 0 ∧ ∃ sp ∈ sps, sp < g.low

theorem latches_nil (h : g.overflowed = false) : g.Latches [] := by
  simp [Latches, h]

theorem Latches.afterFrame (h : g.Latches sps) (sp : UInt32) :
    (g.afterFrame sp).Latches (sps ++ [sp]) := by
  have hover : g.overflowsAt sp = true ↔ (g.low ≠ 0 ∧ sp < g.low) ∧ g.overflowed = false := by
    simp [overflowsAt]
  have hsplit : (∃ s ∈ sps ++ [sp], s < g.low) ↔ (∃ s ∈ sps, s < g.low) ∨ sp < g.low := by
    simp [or_and_right, exists_or]
  unfold Latches at h ⊢
  change (g.overflowed || g.overflowsAt sp) = true ↔ g.low ≠ 0 ∧ ∃ s ∈ sps ++ [sp], s < g.low
  -- A flag that is set already stands for a frame that is among the earlier ones.
  rw [Bool.or_eq_true, hover, hsplit, and_or_left, ← h]
  by_cases hg : g.overflowed = true
  · simp [hg]
  · simp [hg]

end StackGuard

namespace Machine
variable {β σ : Type} {m m₁ m₂ : Machine β σ} {sps sps₁ sps₂ : List UInt32}

theorem guard_checkStack (m : Machine β σ) :
    m.checkStack.guard = m.guard.afterFrame m.regs.sp := by
  rw [checkStack_eq]
  rfl

/-- If `sps` are the frames before `m` since the guard was last told to forget, then `sps'` are
those before `m'`. -/
inductive Watched : List UInt32 → Machine β σ → List UInt32 → Machine β σ → Prop
  | quiet {sps : List UInt32} {m m' : Machine β σ} (hguard : m'.guard = m.guard)
    (hframes : m.Shows Event.frame? m' []) : Watched sps m sps m'
  | frame {sps : List UInt32} {m m' : Machine β σ} (hguard : m'.guard = m.checkStack.guard)
    (hframes : m.Shows Event.frame? m' [m.regs.sp]) : Watched sps m (sps ++ [m.regs.sp]) m'
  | bounds (sps : List UInt32) (m : Machine β σ) (lowWarn low : UInt32) :
    Watched sps m [] (m.setStackBounds lowWarn low)
  | clear (sps : List UInt32) (m : Machine β σ) : Watched sps m [] m.clearStackOverflow
  | reset (sps : List UInt32) (m : Machine β σ) : Watched sps m [] m.clearBookkeeping
  | trans {sps sps₁ sps₂ : List UInt32} {m m₁ m₂ : Machine β σ} (h : Watched sps m sps₁ m₁)
    (h₁ : Watched sps₁ m₁ sps₂ m₂) : Watched sps m sps₂ m₂

theorem Watched.latches (h : Watched sps m sps₁ m₁) (hm : m.guard.Latches sps) :
    m₁.guard.Latches sps₁ := by
  induction h with
  | quiet hguard hframes => rwa [hguard]
  | frame hguard hframes =>
    rw [hguard, guard_checkStack]
    exact hm.afterFrame _
  | bounds | clear | reset => exact StackGuard.latches_nil rfl
  | trans h h₁ ih ih₁ => exact ih₁ (ih hm)

/-- These frames are pushed in between, and the guard is told of nothing else. -/
structure Frames (m : Machine β σ) (sps : List UInt32) (m' : Machine β σ) : Prop where
  shown : m.Shows Event.frame? m' sps
  watched : ∀ before, Watched before m (before ++ sps) m'

namespace Frames

theorem trans (h : m.Frames sps m₁) (h₁ : m₁.Frames sps₁ m₂) : m.Frames (sps ++ sps₁) m₂ := by
  refine ⟨h.shown.trans h₁.shown, fun before => ?_⟩
  rw [← List.append_assoc]
  exact (h.watched before).trans (h₁.watched _)

theorem quiet (hguard : m₁.guard = m.guard) (hframes : m.Shows Event.frame? m₁ []) :
    m.Frames [] m₁ := by
  refine ⟨hframes, fun before => ?_⟩
  rw [List.append_nil]
  exact .quiet hguard hframes

theorem frame (m : Machine β σ) : m.Frames [m.regs.sp] m.afterFrame :=
  ⟨⟨[_], rfl, rfl⟩, fun _ => .frame m.guard_checkStack.symm ⟨[_], rfl, rfl⟩⟩

theorem unframed : KeptByHooks fun m m' : Machine β σ => m.Frames [] m' where
  refl _ := quiet rfl ⟨[], rfl, rfl⟩
  trans h h₁ := h.trans h₁
  scene _ _ := quiet rfl ⟨[], rfl, rfl⟩
  log m e he := quiet rfl ⟨[e], rfl, by simp [Event.frame?_of_not_isNotable he]⟩

theorem checkStack (m : Machine β σ) : m.Frames [m.regs.sp] m.checkStack :=
  (frame m).trans (unframed.logs m.checkStack_logs)

theorem recordRegisters (m : Machine β σ) : m.Frames [] m.recordRegisters := by
  simp only [Machine.recordRegisters]
  split
  · exact quiet rfl ⟨[], rfl, rfl⟩
  · exact unframed.refl m

theorem fetch (h : Logs (fun e => e.ofHost) m.recordRegisters m₁) :
    m.Frames [] (m₁.log (.fetch m₁.regs)) := by
  have hfetch : m₁.Frames [] (m₁.log (.fetch m₁.regs)) := quiet rfl ⟨[_], rfl, rfl⟩
  exact ((recordRegisters m).trans (unframed.logs_host h)).trans hfetch

theorem kept : KeptByLoop fun m m' : Machine β σ => ∃ sps, m.Frames sps m' where
  refl m := ⟨[], unframed.refl m⟩
  trans := by
    rintro m m₁ m₂ ⟨sps, h⟩ ⟨sps₁, h₁⟩
    exact ⟨_, h.trans h₁⟩
  scene m s := ⟨[], unframed.scene m s⟩
  log m _ he := ⟨[], unframed.log m he⟩
  lastFault _ _ := ⟨[], quiet rfl ⟨[], rfl, rfl⟩⟩
  record _ _ := ⟨[], quiet rfl ⟨[_], rfl, rfl⟩⟩
  frame m := ⟨_, frame m⟩
  traceAddress _ _ := ⟨[], quiet rfl ⟨[], rfl, rfl⟩⟩
  slowCounter _ _ := ⟨[], quiet rfl ⟨[], rfl, rfl⟩⟩
  fetch h := ⟨[], fetch h⟩
  dispatch _ _ _ := ⟨[], quiet rfl ⟨[_], rfl, rfl⟩⟩
  idle _ := ⟨[], quiet rfl ⟨[_], rfl, rfl⟩⟩

end Frames

def Watches (m m' : Machine β σ) : Prop := ∀ sps, ∃ sps', Watched sps m sps' m'

theorem Frames.watches (h : ∃ sps, m.Frames sps m₁) : Watches m m₁ := by
  obtain ⟨sps, h⟩ := h
  exact fun before => ⟨_, h.watched before⟩

theorem Watches.trans (h : Watches m m₁) (h₁ : Watches m₁ m₂) : Watches m m₂ := by
  intro sps
  obtain ⟨sps₁, hw⟩ := h sps
  obtain ⟨sps₂, hw₁⟩ := h₁ sps₁
  exact ⟨sps₂, hw.trans hw₁⟩

theorem Watches.kept : KeptByLoop (Watches (β := β) (σ := σ)) :=
  Frames.kept.mono Frames.watches Watches.trans

theorem interceptException_frames (m : Machine β σ) (v : ExceptionVector) :
    m.Frames [] (m.interceptException v).2 := by
  let recorded := (m.mapRegs Registers.packStatus).recordException v
  have hrecorded : m.Frames [] recorded := .quiet rfl ⟨[_], rfl, rfl⟩
  exact hrecorded.trans (Frames.unframed.foldl_callHook (.exception v)
    (recorded.hooks.listeners (.exception v)) (false, recorded))

variable [Bus β]

theorem enterException_frames (m : Machine β σ) (v : ExceptionVector) :
    m.Frames [(m.enterException v).regs.sp] (m.enterException v) := by
  let pushed := ((m.log (.exceptionTaken v m.regs.pc)).mapRegs
    Registers.enterSupervisor).pushFrame v m.regs.sr m.regs.pc
  have hsp : (m.enterException v).regs.sp = pushed.regs.sp := by
    rw [enterException_eq, regs_enterHandler, withFrame, regs_checkStack]
    rfl
  have hpushed : m.Frames [] pushed := Frames.unframed.pushEntry m v
  have hentered : pushed.checkStack.Frames [] (m.enterException v) :=
    Frames.unframed.enterHandler pushed.checkStack v
  rw [hsp]
  exact (hpushed.trans (.checkStack pushed)).trans hentered

theorem takeException_frames (m : Machine β σ) (v : ExceptionVector) :
    m.Frames (if (m.interceptException v).1 then [] else [(m.takeException v).regs.sp])
      (m.takeException v) := by
  have hintercepted := interceptException_frames m v
  rw [takeException_eq]
  split
  · exact hintercepted.trans (Frames.unframed.log _ rfl)
  · exact hintercepted.trans (enterException_frames _ v)

structure FramesKnown (m : Machine β σ) : Prop where
  /-- A call whose handlers may do to the guard whatever can be done to it. -/
  execute : ∀ {η : Type} [Host η] (h : η) (table : OpcodeTable β σ) (n : Nat),
    (∀ w k, Watches k (table.dispatch w k).2) →
      Watches m (Mc68000.execute table n ⟨m, h⟩).state.machine
  executeControl : ∀ {η : Type} [Host η] (h : η) (n : Nat), ∃ sps,
    m.Frames sps (Mc68000.execute ControlInstructions.table n ⟨m, h⟩).state.machine
  exception : ∀ v,
    m.Frames (if (m.interceptException v).1 then [] else [(m.takeException v).regs.sp])
      (m.takeException v)
  interrupt : ∀ base level, ∃ sps, m.Frames sps (m.takeInterrupt base level)
  busError : ∀ address size forRead, ∃ sps, m.Frames sps (m.busError address size forRead)
  addressError : ∀ address size forRead, ∃ sps, m.Frames sps (m.addressError address size forRead)
  reset : ∀ hardware, ∃ sps, m.Shows Event.frame? (m.reset hardware) sps ∧
    ∀ before, Watched before m sps (m.reset hardware)
  jsrAbsolute : ∀ w, m.Frames [] (ControlInstructions.jsrAbsolute w m).2
  jsrIndirect : ∀ w, m.Frames [] (ControlInstructions.jsrIndirect w m).2
  link : ∀ w, m.Frames [] (ControlInstructions.link w m).2
  rts : ∀ w, m.Frames [] (ControlInstructions.rts w m).2
  rte : m.regs.status.s = true → ∀ w, m.Frames [] (ControlInstructions.rte w m).2
  setRegister : ∀ q v, m.Frames [] (m.setRegister q v)
  setRegisters : ∀ r, ∃ sps, m.Frames sps (m.setRegisters r)

theorem framesKnown (m : Machine β σ) : m.FramesKnown where
  execute h _ n hT := Execution.execute_kept Watches.kept hT ⟨m, h⟩ n
  executeControl h n := Execution.execute_kept Frames.kept
    (ControlInstructions.dispatch_kept Frames.kept.toKeptByInstructions) ⟨m, h⟩ n
  exception := takeException_frames m
  interrupt := Frames.kept.takeInterrupt m
  busError _ _ _ := Frames.kept.raiseFault m _
  addressError _ _ _ := Frames.kept.raiseFault m _
  reset hardware := by
    obtain ⟨sps, h⟩ := Frames.kept.reset m hardware
    exact ⟨sps, h.shown, fun before => .trans (.reset before m) (h.watched [])⟩
  jsrAbsolute := ControlInstructions.jsrAbsolute_kept Frames.unframed m
  jsrIndirect := ControlInstructions.jsrIndirect_kept Frames.unframed m
  link := ControlInstructions.link_kept Frames.unframed m
  rts := ControlInstructions.rts_kept Frames.unframed m
  rte hs := ControlInstructions.rte_kept_of_supervisor Frames.unframed hs
  setRegister _ _ := Frames.unframed.of_scene rfl
  setRegisters := Frames.kept.setRegisters m

/-- From a guard that has seen no overflow on, it has seen one if and only if a frame since it was
last told to forget is below its bound. -/
theorem overflowed_iff_frame_below (h : Watched [] m sps m₁) (hm : m.guard.overflowed = false) :
    (m₁.guard.overflowed = true ↔ m₁.guard.low ≠ 0 ∧ ∃ sp ∈ sps, sp < m₁.guard.low) ∧
      ∀ n : Machine β σ, n.FramesKnown :=
  ⟨h.latches (StackGuard.latches_nil hm), framesKnown⟩

def shallow : Machine Ram Unit :=
  let ram := (((Ram.ofSize 256).pokeLong 0x80 0xB0).loadWords 0xA0 [0x4E40]).loadWords 0xB0
    [0x4E71]
  ((ofSettings Settings.default ram ()).setRegister .sp 0x100).setRegister .pc 0xA0

def shallowRun : Machine Ram Unit :=
  (execute ControlInstructions.table 2
    ⟨shallow.setStackBounds 0 0x100, ({} : Host.Stuck)⟩).state.machine

theorem overflowed_iff_frame_below_shallow :
    Watched [] shallow [0xFA] shallowRun ∧ shallow.guard.overflowed = false ∧
      shallowRun.guard.overflowed = true := by
  have hfresh : shallow.guard.overflowed = false := rfl
  obtain ⟨sps, hrun⟩ := (framesKnown (shallow.setStackBounds 0 0x100)).executeControl
    ({} : Host.Stuck) 2
  have hsps : sps = [0xFA] :=
    (hrun.shown.unique (.of_take Event.frame? (Execution.execute_continues _ 2).grows)).trans
      (by decide +kernel)
  have hwatched : Watched [] shallow [0xFA] shallowRun :=
    .trans (.bounds [] shallow 0 0x100) (hsps ▸ hrun.watched [])
  have hlow : shallowRun.guard.low = 0x100 := by decide +kernel
  refine ⟨hwatched, hfresh, (overflowed_iff_frame_below hwatched hfresh).1.mpr ?_⟩
  rw [hlow]
  decide

end Machine
end Mc68000
