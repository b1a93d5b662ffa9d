import Mc68000.Memory.Ram
import Mc68000.Proofs.Loop
import Mc68000.Session.Transfer

/-!
# Two records of being stopped

That the processor is stopped is recorded twice: as a mark, which is saved with the registers, and
as the pending condition STOP, which the execution loop looks at. STOP sets both and waking up
clears both. The rest of a pass clears the mark alone when it delivers an interrupt, but it is only
reached with STOP clear.
-/

namespace Mc68000

namespace Registers

def Agree (r : Registers) : Prop := r.stopped = r.pending.stop

def Awake (r : Registers) : Prop := r.stopped = false ∧ r.pending.stop = false

def KeepsRecords (r r' : Registers) : Prop :=
  r'.stopped = r.stopped ∧ r'.pending.stop = r.pending.stop

def KeepsAgreement (r r' : Registers) : Prop := r.Agree → r'.Agree

def StaysAwake (r r' : Registers) : Prop := r.Awake → r'.Awake

theorem Agree.awake {r : Registers} (h : r.Agree) (hstop : r.pending.stop = false) : r.Awake :=
  ⟨h.trans hstop, hstop⟩

theorem Awake.agree {r : Registers} (h : r.Awake) : r.Agree := h.1.trans h.2.symm

theorem KeepsRecords.agreement {r r' : Registers} (h : r.KeepsRecords r') : r.KeepsAgreement r' :=
  fun hagree => h.1.trans (hagree.trans h.2.symm)

theorem KeepsRecords.staysAwake {r r' : Registers} (h : r.KeepsRecords r') : r.StaysAwake r' :=
  fun hawake => ⟨h.1.trans hawake.1, h.2.trans hawake.2⟩

theorem swapStacks_keepsRecords (r : Registers) (was : Bool) :
    r.KeepsRecords (r.swapStacks was) := by
  cases was <;> exact ⟨rfl, rfl⟩

theorem unpackStatus_keepsRecords (r : Registers) : r.KeepsRecords r.unpackStatus := by
  refine ⟨?_, stop_unpackStatus r⟩
  simp only [unpackStatus, followStatus]
  split
  · rfl
  · exact (swapStacks_keepsRecords _ _).1

theorem kept_records : Registers.Kept KeepsRecords where
  refl _ := ⟨rfl, rfl⟩
  trans hab hbc := ⟨hbc.1.trans hab.1, hbc.2.trans hab.2⟩
  pc _ _ := ⟨rfl, rfl⟩
  address _ _ _ _ := ⟨rfl, rfl⟩
  pack _ := ⟨rfl, rfl⟩
  supervisor r := by
    unfold enterSupervisor
    split
    · exact ⟨rfl, rfl⟩
    · exact swapStacks_keepsRecords r false
  dropTrace _ := ⟨rfl, rfl⟩
  load r w := unpackStatus_keepsRecords { r with sr := w }
  mask _ _ := ⟨rfl, rfl⟩
  breakRequest _ := ⟨rfl, rfl⟩
  interruptCheck _ := ⟨rfl, rfl⟩
  endOfCycle _ _ := ⟨rfl, rfl⟩
  interruptDue _ := ⟨rfl, rfl⟩

theorem Kept.mono {R S : Registers → Registers → Prop} (hK : Kept R)
    (hRS : ∀ r r', R r r' → S r r') (htrans : ∀ {a b c}, S a b → S b c → S a c) : Kept S where
  refl r := hRS _ _ (hK.refl r)
  trans := htrans
  pc r v := hRS _ _ (hK.pc r v)
  address r i h v := hRS _ _ (hK.address r i h v)
  pack r := hRS _ _ (hK.pack r)
  supervisor r := hRS _ _ (hK.supervisor r)
  dropTrace r := hRS _ _ (hK.dropTrace r)
  load r w := hRS _ _ (hK.load r w)
  mask r level := hRS _ _ (hK.mask r level)
  breakRequest r := hRS _ _ (hK.breakRequest r)
  interruptCheck r := hRS _ _ (hK.interruptCheck r)
  endOfCycle r b := hRS _ _ (hK.endOfCycle r b)
  interruptDue r := hRS _ _ (hK.interruptDue r)

theorem kept_agreement : Kept KeepsAgreement :=
  kept_records.mono (fun _ _ => KeepsRecords.agreement) fun hab hbc h => hbc (hab h)

theorem kept_awake : Kept StaysAwake :=
  kept_records.mono (fun _ _ => KeepsRecords.staysAwake) fun hab hbc h => hbc (hab h)

theorem write_keepsRecords (r : Registers) (q : Register) (v : UInt32) :
    r.KeepsRecords (r.write q v) := by
  cases q with
  | usp =>
    simp only [write, setUserSp]
    split <;> exact ⟨rfl, rfl⟩
  | ssp =>
    simp only [write, setSupervisorSp]
    split <;> exact ⟨rfl, rfl⟩
  | sr => exact kept_records.load r v.toUInt16
  | data n | address n | sp | pc => exact ⟨rfl, rfl⟩

theorem ofImage_agree {bytes : List UInt8} {r : Registers} (h : ofImage bytes = .ok r) :
    r.Agree := by
  simp only [ofImage] at h
  split at h
  · cases h
    rfl
  · cases h

end Registers

namespace Machine
variable {β σ : Type} {P : Event → Prop} {m m₁ : Machine β σ}

/-- The records of this machine agree, and its hooks leave them alone. -/
structure InStep (m : Machine β σ) : Prop where
  agree : m.regs.Agree
  hooks : m.hooks.Respects Registers.KeepsRecords

namespace InStep

theorem hooks_agree (h : m.InStep) : m.hooks.Respects Registers.KeepsAgreement :=
  h.hooks.mono fun _ _ => Registers.KeepsRecords.agreement

theorem evolves (h : m.InStep) (hm : Evolves P Registers.KeepsAgreement m m₁) : m₁.InStep :=
  ⟨hm.regs h.agree, hm.respects h.hooks⟩

theorem mapRegs (h : m.InStep) {f : Registers → Registers}
    (hf : Registers.KeepsAgreement m.regs (f m.regs)) : (m.mapRegs f).InStep :=
  ⟨hf h.agree, h.hooks⟩

variable [Bus β]

theorem deliverFault (h : m.InStep) : m.deliverFault.InStep :=
  h.evolves (deliverFault_evolves (P := fun _ => True) Registers.kept_agreement
    (fun _ _ => trivial) h.hooks_agree)

theorem reset (h : m.InStep) (hardware : Bool) : (m.reset hardware).InStep := by
  have hcleared : m.clearBookkeeping.InStep := ⟨h.agree, h.hooks⟩
  have hloaded : m.clearBookkeeping.loadReset.InStep := ⟨rfl, h.hooks⟩
  cases hardware with
  | false => exact deliverFault ⟨hcleared.agree, h.hooks⟩
  | true => exact deliverFault ⟨hloaded.agree, h.hooks⟩

theorem setRegisters (hooks : m.hooks.Respects Registers.KeepsRecords) {r : Registers}
    (hr : r.Agree) : (m.setRegisters r).InStep := by
  let unpacked : Machine β σ := { m with regs := r.unpackStatus }
  let announced := unpacked.announcePc r.unpackStatus.pc
  have hunpacked : unpacked.InStep :=
    ⟨(Registers.unpackStatus_keepsRecords r).agreement hr, hooks⟩
  have hannounced : announced.InStep := hunpacked.evolves (announcePc_evolves (P := fun _ => True)
    Registers.kept_agreement (fun _ _ => trivial) unpacked r.unpackStatus.pc)
  have hsp : (announced.notify (.newSp .changed)).InStep := hannounced.evolves
    (notify_evolves (P := fun _ => True) Registers.kept_agreement (fun _ _ => trivial) announced
      rfl)
  exact hsp.deliverFault

theorem load {φ : Type} [SessionFile φ] {file : φ} (h : m.InStep) (hm : m.load file = .ok m₁) :
    m₁.InStep := by
  simp only [Machine.load, readRegisters] at hm
  split at hm
  · cases hm
  · cases hm
  · rename_i bytes _
    cases hr : Registers.ofImage bytes with
    | error e => rw [hr] at hm; cases hm
    | ok r =>
      rw [hr] at hm
      cases hm
      refine setRegisters ?_ (Registers.ofImage_agree hr)
      exact h.hooks

end InStep
end Machine

namespace Hosted
variable {β σ η : Type} [Host η] [Bus β] {s : Hosted β σ η}

theorem finishPass_inStep (h : s.machine.InStep) (hstop : s.machine.regs.pending.stop = false) :
    s.finishPass.2.machine.InStep := by
  have hooks : s.machine.hooks.Respects Registers.StaysAwake :=
    h.hooks.mono fun _ _ => Registers.KeepsRecords.staysAwake
  have harmed : Machine.Evolves (fun _ => True) Registers.StaysAwake s.machine
      s.machine.armTrace :=
    Machine.armTrace_evolves Registers.kept_awake (fun _ => trivial) fun _ => id
  have hpass := finishPass_evolves (P := fun _ => True) (R := Registers.StaysAwake) (s := s)
    Registers.kept_awake (fun _ _ => trivial) (fun _ => trivial) (fun _ => id) (fun _ => id)
    fun t ht => dueInterrupt_evolves Registers.kept_awake (fun _ _ => trivial)
      (fun _ _ => trivial) (fun _ => id) (fun _ hawake => ⟨rfl, hawake.2⟩)
      (ht ▸ harmed.respects hooks)
  exact ⟨(hpass.regs (h.agree.awake hstop)).agree, hpass.respects h.hooks⟩

omit [Bus β] in
theorem checkForBreak_inStep (h : s.machine.InStep) : s.checkForBreak.2.machine.InStep :=
  h.evolves (checkForBreak_evolves (P := fun _ => True) Registers.kept_agreement
    (fun _ _ => trivial) (fun _ => id) s)

end Hosted

namespace Execution
variable {β σ η : Type} [Host η] [Bus β] {e : Execution β σ η}

theorem opcodeStep_inStep (h : e.state.machine.InStep) :
    (e.opcodeStep ControlInstructions.table).state.machine.InStep :=
  h.evolves (opcodeStep_evolves (P := fun _ => True) Registers.kept_agreement (fun _ _ => trivial)
    (fun _ _ => trivial) h.hooks_agree fun _ _ _ => rfl)

theorem specialStep_inStep (h : e.state.machine.InStep) : e.specialStep.state.machine.InStep := by
  have hK := Registers.kept_agreement
  have hP : ∀ e : Event, e.ofHost = true → True := fun _ _ => trivial
  have hprobed : e.probed.2.machine.InStep :=
    h.evolves ((probed_talks (Event.of_talk hP) e).1.evolves hK)
  have htraced : e.traced.machine.InStep :=
    h.evolves (traced_evolves (P := fun _ => True) hK (fun _ _ => trivial) h.hooks_agree)
  rw [specialStep_eq]
  split
  · exact Hosted.checkForBreak_inStep ⟨h.agree, h.hooks⟩
  split
  · exact hprobed
  split
  · exact htraced.evolves ((Hosted.enterIdle_talks (Event.of_aside hP) e.traced).1.evolves hK)
  · exact Hosted.finishPass_inStep htraced (Bool.eq_false_iff.mpr ‹_›)

theorem idleStep_inStep (h : e.state.machine.InStep) (watch : Watchdog) :
    (e.idleStep watch).state.machine.InStep := by
  have hK := Registers.kept_agreement
  have hticked : (e.ticked watch).2.machine.InStep :=
    h.evolves (ticked_evolves (P := fun _ => True) hK (fun _ _ => trivial) trivial watch e)
  have hidle : (e.ticked watch).2.idleInterrupt.machine.InStep :=
    hticked.evolves (Hosted.idleInterrupt_evolves (P := fun _ => True) hK (fun _ _ => trivial)
      (fun _ _ => trivial) (fun _ => id) (fun _ _ => rfl) hticked.hooks_agree)
  have hwoken := Hosted.checkForBreak_inStep hidle
  rw [idleStep_eq]
  dsimp only
  split
  · exact ⟨hwoken.agree, hwoken.hooks⟩
  split
  · exact hwoken
  · exact Hosted.finishPass_inStep hwoken (Bool.eq_false_iff.mpr ‹_›)

theorem step_inStep (h : e.state.machine.InStep) :
    (e.step ControlInstructions.table).state.machine.InStep := by
  simp only [step]
  split
  · exact opcodeStep_inStep h
  · exact specialStep_inStep h
  · exact idleStep_inStep h _
  · exact h

theorem execute_inStep {s : Hosted β σ η} (h : s.machine.InStep) (fuel : Nat) :
    (execute ControlInstructions.table fuel s).state.machine.InStep := by
  have hstarted : (start s).state.machine.InStep :=
    h.evolves ((start_talks (P := fun _ => True) (fun _ _ => trivial) s).1.evolves
      Registers.kept_agreement)
  exact run_keeps ControlInstructions.table (I := fun e => e.state.machine.InStep)
    (fun _ => step_inStep) hstarted fuel

end Execution

namespace Machine
variable {β σ : Type} [Bus β] {m : Machine β σ}

/-- What can become of a machine from its configuration on. Hooks that leave both records alone come
and go, and memory and what the hooks share change in between. -/
inductive Reachable : Machine β σ → Prop
  | configured (settings : Settings) (bus : β) (observers : σ) {m : Machine β σ}
    (hm : ofSettings? settings bus observers = .ok m) : Reachable m
  | execute {m : Machine β σ} (hm : Reachable m) {η : Type} [Host η] (host : η) (fuel : Nat) :
    Reachable (execute ControlInstructions.table fuel ⟨m, host⟩).state.machine
  | reset {m : Machine β σ} (hm : Reachable m) (hardware : Bool) : Reachable (m.reset hardware)
  | setRegister {m : Machine β σ} (hm : Reachable m) (q : Register) (v : UInt32) :
    Reachable (m.setRegister q v)
  | setRegisters {m : Machine β σ} (hm : Reachable m) (r : Registers)
    (hr : r.stopped = true ↔ r.pending.stop = true) : Reachable (m.setRegisters r)
  | save {m : Machine β σ} (hm : Reachable m) {φ : Type} [SessionFile φ] (file : φ) :
    Reachable (m.save file).2
  | load {m m' : Machine β σ} (hm : Reachable m) {φ : Type} [SessionFile φ] (file : φ)
    (hm' : m.load file = .ok m') : Reachable m'
  | takeException {m : Machine β σ} (hm : Reachable m) (v : ExceptionVector) :
    Reachable (m.takeException v)
  | takeInterrupt {m : Machine β σ} (hm : Reachable m) (base level : UInt8) :
    Reachable (m.takeInterrupt base level)
  | busError {m : Machine β σ} (hm : Reachable m) (address : UInt32) (size : UInt8)
    (forRead : Bool) : Reachable (m.busError address size forRead)
  | addressError {m : Machine β σ} (hm : Reachable m) (address : UInt32) (size : UInt8)
    (forRead : Bool) : Reachable (m.addressError address size forRead)
  | requestBreak {m : Machine β σ} (hm : Reachable m) : Reachable m.requestBreak
  | interruptsChanged {m : Machine β σ} (hm : Reachable m) : Reachable m.interruptsChanged
  | checkAfterCycle {m : Machine β σ} (hm : Reachable m) : Reachable m.checkAfterCycle
  | hooked {m : Machine β σ} (hm : Reachable m) (hooks : Registry β σ)
    (hooks' : hooks.Respects Registers.KeepsRecords) : Reachable { m with hooks := hooks }
  | surroundings {m : Machine β σ} (hm : Reachable m) (bus : β) (observers : σ) :
    Reachable { m with bus := bus, observers := observers }

theorem InStep.of_reachable (h : m.Reachable) : m.InStep := by
  have hK := Registers.kept_agreement
  induction h with
  | configured settings bus observers hm =>
    simp only [ofSettings?, Except.map] at hm
    split at hm
    · cases hm
    · cases hm
      exact ⟨rfl, Registry.NoInterceptors.respects (fun _ => rfl) _⟩
  | execute hm host fuel ih => exact Execution.execute_inStep ih fuel
  | reset hm hardware ih => exact ih.reset hardware
  | setRegister hm q v ih => exact ih.mapRegs (Registers.write_keepsRecords _ q v).agreement
  | setRegisters hm r hr ih => exact setRegisters ih.hooks (Bool.eq_iff_iff.mpr hr)
  | save hm file ih => exact ⟨ih.agree, ih.hooks⟩
  | load hm file hm' ih => exact ih.load hm'
  | takeException hm v ih =>
    exact ih.evolves (takeException_evolves (P := fun _ => True) hK (fun _ _ => trivial)
      ih.hooks_agree v)
  | takeInterrupt hm base level ih =>
    exact ih.evolves (takeInterrupt_evolves (P := fun _ => True) hK (fun _ _ => trivial)
      (fun _ _ _ => trivial) (fun _ => trivial) ih.hooks_agree base level)
  | busError hm address size forRead ih | addressError hm address size forRead ih =>
    exact ih.evolves (raiseFault_evolves (P := fun _ => True) hK (fun _ _ => trivial)
      ih.hooks_agree _)
  | requestBreak hm ih | interruptsChanged hm ih | checkAfterCycle hm ih =>
    exact ⟨ih.agree, ih.hooks⟩
  | hooked hm hooks hooks' ih => exact ⟨ih.agree, hooks'⟩
  | surroundings hm bus observers ih => exact ⟨ih.agree, ih.hooks⟩

/-- Whatever was done to a machine, it is marked as stopped if and only if STOP is pending. -/
theorem stopped_iff (h : m.Reachable) : m.regs.stopped = true ↔ m.regs.pending.stop = true := by
  rw [(InStep.of_reachable h).agree]

def halted : Machine Ram Unit :=
  let m := ofSettings Settings.default ((Ram.ofSize 256).loadWords 0 [0x4E72, 0x2000]) ()
  (execute ControlInstructions.table 2 ⟨m, ({} : Host.Stuck)⟩).state.machine

theorem halted_reachable : halted.Reachable := by
  have hmask : Settings.isLowMask Settings.default.slowCycleMask = true := by decide +kernel
  have hvalid : Settings.default.validate = .ok () := by
    simp only [Settings.validate, hmask]
    rfl
  unfold halted
  refine .execute (.configured Settings.default
    ((Ram.ofSize 256).loadWords 0 [0x4E72, 0x2000]) () ?_) _ 2
  rw [ofSettings?, hvalid]
  rfl

theorem stopped_iff_halted :
    halted.Reachable ∧ halted.regs.stopped = true ∧ halted.regs.pending.stop = true := by
  have hstopped : halted.regs.stopped = true := by decide +kernel
  exact ⟨halted_reachable, hstopped, (stopped_iff halted_reachable).mp hstopped⟩

end Machine
end Mc68000
