import Mc68000.Proofs.Entry
import Mc68000.Proofs.Instruction

/-!
# What instructions and exceptions add to the journal

Event by event: bytes from the instruction stream, hooks in the order of their registration, and
the program counters that memory is told.
-/

namespace Mc68000
variable {β σ : Type}

namespace Registry

def calls (r : Registry β σ) (call : HookCall) : List Event :=
  (r.listeners call).map fun l => .hook l.handle call

/-- A new program counter: the hooks are told first, then memory. -/
def announcement (r : Registry β σ) (pc : UInt32) : List Event := r.calls (.newPc pc) ++ [.newPc pc]

end Registry

def Event.ofGuard : Event → Bool
  | .frame _ | .stackLow .. | .stackOverflow .. => true
  | _ => false

namespace Machine
variable {m m₁ m₂ : Machine β σ} {es fs : List Event}

/-- The journal has these events more, oldest first, and the hooks are as before. -/
structure Adds (m m' : Machine β σ) (es : List Event) : Prop where
  hooks : m'.hooks = m.hooks
  journal : m'.journal = es.reverse ++ m.journal

namespace Adds

theorem trans (h : Adds m m₁ es) (h₁ : Adds m₁ m₂ fs) : Adds m m₂ (es ++ fs) :=
  ⟨h₁.hooks.trans h.hooks, by rw [h₁.journal, h.journal, List.reverse_append, List.append_assoc]⟩

theorem of_parts (hhooks : m₁.hooks = m.hooks) (hjournal : m₁.journal = m.journal) :
    Adds m m₁ [] := ⟨hhooks, hjournal⟩

theorem of_event {e : Event} (hhooks : m₁.hooks = m.hooks)
    (hjournal : m₁.journal = e :: m.journal) : Adds m m₁ [e] := ⟨hhooks, hjournal⟩

theorem refl (m : Machine β σ) : Adds m m [] := .of_parts rfl rfl

theorem log (m : Machine β σ) (e : Event) : Adds m (m.log e) [e] := .of_event rfl rfl

theorem mapRegs (m : Machine β σ) (f : Registers → Registers) : Adds m (m.mapRegs f) [] :=
  .of_parts rfl rfl

theorem shows {α : Type} (h : Adds m m₁ es) (p : Event → Option α) :
    Shows p m m₁ (es.filterMap p) :=
  ⟨es.reverse, h.journal, by rw [List.reverse_reverse]⟩

theorem of_evolves {P : Event → Prop} {R : Registers → Registers → Prop} (h : Evolves P R m m₁) :
    ∃ es, Adds m m₁ es ∧ ∀ e ∈ es, P e := by
  obtain ⟨es, hj, hes⟩ := h.journal
  refine ⟨es.reverse, ⟨h.hooks, by rw [List.reverse_reverse]; exact hj⟩, fun e he => ?_⟩
  exact hes e (List.mem_reverse.mp he)

end Adds

theorem foldl_callHook_adds (call : HookCall) (ls : List (Registry.Listener β σ))
    (before : Bool × Machine β σ) :
    Adds before.2 (ls.foldl (callHook call) before).2 (ls.map fun l => .hook l.handle call) := by
  induction ls generalizing before with
  | nil => exact .refl _
  | cons l ls ih =>
    have hcalled : Adds before.2 (callHook call before l).2 [.hook l.handle call] :=
      .of_event rfl rfl
    exact hcalled.trans (ih _)

theorem callHooks_adds (m : Machine β σ) (call : HookCall) :
    Adds m (m.callHooks call).2 (m.hooks.calls call) :=
  foldl_callHook_adds call _ (false, m)

theorem notify_adds (m : Machine β σ) (call : HookCall) :
    Adds m (m.notify call) (m.hooks.calls call) :=
  m.callHooks_adds call

theorem Adds.notify (h : Adds m m₁ es) (call : HookCall) :
    Adds m (m₁.notify call) (es ++ m.hooks.calls call) := by
  rw [← h.hooks]
  exact h.trans (m₁.notify_adds call)

theorem Adds.jump [Bus β] (h : Adds m m₁ es) (pc : UInt32) :
    Adds m (m₁.jump pc) (es ++ m.hooks.announcement pc) := by
  rw [Registry.announcement, ← List.append_assoc]
  exact (h.notify (.newPc pc)).trans (.of_event rfl rfl)

theorem checkStack_adds (m : Machine β σ) :
    ∃ es, Adds m m.checkStack es ∧ ∀ e ∈ es, e.ofGuard = true := by
  let low : Event := .stackLow m.regs.sp m.guard.lowWarn
  let overflow : Event := .stackOverflow m.regs.sp m.guard.low
  simp only [checkStack]
  split <;> split
  · exact ⟨[.frame m.regs.sp, low, overflow], ⟨rfl, rfl⟩, by simp [Event.ofGuard, low, overflow]⟩
  · exact ⟨[.frame m.regs.sp, low], ⟨rfl, rfl⟩, by simp [Event.ofGuard, low]⟩
  · exact ⟨[.frame m.regs.sp, overflow], ⟨rfl, rfl⟩, by simp [Event.ofGuard, overflow]⟩
  · exact ⟨[.frame m.regs.sp], ⟨rfl, rfl⟩, by simp [Event.ofGuard]⟩

variable [Bus β]

theorem withFrame_adds (m : Machine β σ) (v : ExceptionVector) :
    ∃ es, Adds m (m.withFrame v) (.exceptionTaken v m.regs.pc :: es) ∧
      ∀ e ∈ es, e.ofGuard = true := by
  have hpushed : Adds m (((m.log (.exceptionTaken v m.regs.pc)).mapRegs
      Registers.enterSupervisor).pushFrame v m.regs.sr m.regs.pc)
        [.exceptionTaken v m.regs.pc] := by
    simp only [pushFrame]
    split <;> exact .of_event rfl rfl
  obtain ⟨es, hes, hguard⟩ := checkStack_adds (((m.log (.exceptionTaken v m.regs.pc)).mapRegs
    Registers.enterSupervisor).pushFrame v m.regs.sr m.regs.pc)
  exact ⟨es, hpushed.trans hes, hguard⟩

theorem enterHandler_adds (m : Machine β σ) (v : ExceptionVector) :
    Adds m (m.enterHandler v) (m.hooks.announcement (m.enterHandler v).regs.pc) := by
  let a := ExceptionVector.entryAddress m.regs.vbr v
  have hread : Adds m (m.readVector a).2 [] := .of_parts rfl rfl
  have hpc : (m.enterHandler v).regs.pc = (m.readVector a).1 := by
    rw [regs_enterHandler]
    rfl
  rw [hpc]
  simp only [enterHandler]
  generalize m.readVector a = p at hread ⊢
  obtain ⟨handler, n⟩ := p
  have hjump := hread.jump handler
  exact ⟨hjump.hooks, hjump.journal⟩

theorem enterException_adds (m : Machine β σ) (v : ExceptionVector) :
    ∃ es, Adds m (m.enterException v) (.exceptionTaken v m.regs.pc :: es ++
        m.hooks.announcement (m.enterException v).regs.pc) ∧ ∀ e ∈ es, e.ofGuard = true := by
  obtain ⟨es, hes, hguard⟩ := m.withFrame_adds v
  have hhandler := (m.withFrame v).enterHandler_adds v
  rw [hes.hooks] at hhandler
  exact ⟨es, hes.trans hhandler, hguard⟩

omit [Bus β] in
theorem interceptException_adds (m : Machine β σ) (v : ExceptionVector) :
    Adds m (m.interceptException v).2
      (.exception ⟨v, m.regs.pc, m.regs.sp⟩ :: m.hooks.calls (.exception v)) := by
  have hrecord : Adds m ((m.mapRegs Registers.packStatus).recordException v)
      [.exception ⟨v, m.regs.pc, m.regs.sp⟩] := .of_event rfl rfl
  exact hrecord.trans (callHooks_adds _ _)

end Machine

namespace ControlInstructions
open Machine (Adds)
variable [Bus β] (m : Machine β σ) (w : UInt16)

theorem rts_adds : Adds m (rts w m).2 (m.hooks.calls (.newSp .incremented) ++
    m.hooks.calls (.rts m.popLong.1) ++ m.hooks.announcement m.popLong.1) := by
  have hpop : Adds m m.popLong.2 [] := .of_parts rfl rfl
  simp only [rts]
  generalize m.popLong = p at hpop ⊢
  obtain ⟨dest, n⟩ := p
  exact ((hpop.notify (.newSp .incremented)).notify (.rts dest)).jump dest

theorem rte_adds (hs : m.regs.status.s = true) :
    Adds m (rte w m).2 (m.hooks.calls (.newSp .incremented) ++
      m.hooks.calls (.rte m.popWord.2.popLong.1) ++
        m.hooks.announcement m.popWord.2.popLong.1) := by
  simp only [rte, privileged, hs, if_true]
  have hword : Adds m m.popWord.2 [] := .of_parts rfl rfl
  generalize m.popWord = p at hword ⊢
  obtain ⟨sr, m₁⟩ := p
  have hpop : Adds m m₁.popLong.2 [] := hword.trans (.of_parts rfl rfl)
  dsimp only
  generalize m₁.popLong = q at hpop ⊢
  obtain ⟨dest, n⟩ := q
  have hload := hpop.trans (.mapRegs n fun r => r.loadStatus sr)
  exact ((hload.notify (.newSp .incremented)).notify (.rte dest)).jump dest

theorem call_adds (ret dest : UInt32) : Adds m (call m ret dest)
    (m.hooks.calls (.newSp .decremented) ++ m.hooks.announcement dest) := by
  have hpush : Adds m (m.pushLong ret) [] := .of_parts rfl rfl
  exact (hpush.notify (.newSp .decremented)).jump dest

theorem jsrAbsolute_adds : Adds m (jsrAbsolute w m).2
    (.stream m.regs.pc 4 :: m.hooks.calls (.jsr (m.regs.pc + 4) m.fetchLong.1) ++
      (m.hooks.calls (.newSp .decremented) ++ m.hooks.announcement m.fetchLong.1)) := by
  have hfetch : Adds m m.fetchLong.2 [.stream m.regs.pc 4] := .of_event rfl rfl
  have hpc : m.fetchLong.2.regs.pc = m.regs.pc + 4 := rfl
  simp only [jsrAbsolute]
  generalize m.fetchLong = p at hfetch hpc ⊢
  obtain ⟨dest, n⟩ := p
  have hjsr := hfetch.notify (.jsr n.regs.pc dest)
  have hcall := call_adds (n.notify (.jsr n.regs.pc dest)) n.regs.pc dest
  rw [hjsr.hooks] at hcall
  rw [← hpc]
  exact hjsr.trans hcall

theorem jsrIndirect_adds {dest : UInt32} (hdest : (m.regs.read (.address w.toUInt8)).1 = dest) :
    Adds m (jsrIndirect w m).2 (m.hooks.calls (.jsrIndirect m.regs.pc dest) ++
      (m.hooks.calls (.newSp .decremented) ++ m.hooks.announcement dest)) := by
  have haddress : m.regs.a[Register.place w.toUInt8] = dest := hdest
  simp only [jsrIndirect, haddress]
  have hjsr := m.notify_adds (.jsrIndirect m.regs.pc dest)
  have hcall := call_adds (m.notify (.jsrIndirect m.regs.pc dest)) m.regs.pc dest
  rw [hjsr.hooks] at hcall
  exact hjsr.trans hcall

theorem link_adds : Adds m (link w m).2
    (.stream m.regs.pc 2 :: m.hooks.calls (.link m.fetchWord.1.toInt16.toInt32) ++
      m.hooks.calls (.newSp .decremented)) := by
  have hfetch : Adds m m.fetchWord.2 [.stream m.regs.pc 2] := .of_event rfl rfl
  simp only [link]
  generalize m.fetchWord = p at hfetch ⊢
  obtain ⟨d, n⟩ := p
  have hwrite : ∀ k : Machine β σ, Adds k
      ((k.writeLong k.regs.sp k.regs.a[Register.place w.toUInt8]).mapRegs fun r =>
        linkFrame r (Register.place w.toUInt8) d.toInt16.toInt32) [] := fun _ => .of_parts rfl rfl
  have hframe := (hfetch.trans (.mapRegs n fun r => r.reserve 4)).trans (hwrite _)
  exact (hframe.notify (.link d.toInt16.toInt32)).notify (.newSp .decremented)

theorem stop_adds (hs : m.regs.status.s = true) :
    Adds m (stop w m).2 [.stream m.regs.pc 2] := by
  simp only [stop, privileged, hs, if_true]
  exact .of_event rfl rfl

theorem moveToSr_adds (hs : m.regs.status.s = true) :
    Adds m (moveToSr w m).2 [.stream m.regs.pc 2] := by
  simp only [moveToSr, privileged, hs, if_true]
  exact .of_event rfl rfl

end ControlInstructions
end Mc68000
