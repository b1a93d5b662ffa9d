import Mc68000.Memory.Ram
import Mc68000.Proofs.Loop
import Mc68000.Session.Transfer

/-!
# No pending interrupt is forgotten

A host tells once that its pending interrupt has changed; from then on the processor has to remember
to look. It looks in two places, and uses up what it remembers in both. What it cannot deliver there
it may forget only while the mask holds it off, so whatever lowers the mask has to remember again.
-/

namespace Mc68000

/-- The next time it is asked, the host will say that the interrupt level has changed. -/
def Host.Unreported {η : Type} [Host η] (h : η) : Prop := (Host.takeInterruptChange h).1 = true

/-- A host that changes its pending interrupt only in a callback that has it say so the next time it
is asked. -/
structure Host.Announces (η : Type) [Host η] : Prop where
  callback : ∀ h h' : η, Host.Callback h h' → Host.pending h' = Host.pending h ∨ Host.Unreported h'
  waits : ∀ h h' : η, Host.Callback h h' → Host.Unreported h → Host.Unreported h'
  asked : ∀ h : η, Host.pending (Host.takeInterruptChange h).2 = Host.pending h ∨
    Host.Unreported (Host.takeInterruptChange h).2

theorem Host.Announces.calls {η : Type} [Host η] (hη : Host.Announces η) {h h' : η}
    (hcalls : Host.Calls h h') :
    (Host.pending h' = Host.pending h ∨ Host.Unreported h') ∧
      (Host.Unreported h → Host.Unreported h') := by
  induction hcalls with
  | refl => exact ⟨.inl rfl, id⟩
  | tail _ hlast ih =>
    refine ⟨?_, fun hu => hη.waits _ _ hlast (ih.2 hu)⟩
    rcases hη.callback _ _ hlast with hsame | hu
    · rcases ih.1 with hpending | hu
      · exact .inl (hsame.trans hpending)
      · exact .inr (hη.waits _ _ hlast hu)
    · exact .inr hu

/-- Exception hooks that neither lower the interrupt mask nor have the processor forget to look for
an interrupt. -/
def Registry.Unobtrusive {β σ : Type} (r : Registry β σ) : Prop :=
  ∀ v, ∀ e ∈ (r.exception v).entries, ∀ s : Scene β σ,
    let r' := (e.value v s).2.registers
    s.registers.status.mask ≤ r'.status.mask ∧
      (s.registers.pending.interruptCheck = true → r'.pending.interruptCheck = true) ∧
      (s.registers.pending.interruptDue = true → r'.pending.interruptDue = true)

namespace Registers

def Attentive (r : Registers) : Prop :=
  r.pending.interruptCheck = true ∨ r.pending.interruptDue = true

/-- Who was to read the level still is, and so is who lowered the mask. -/
def Heeds (r r' : Registers) : Prop :=
  (r.Attentive → r'.Attentive) ∧ (r.status.mask ≤ r'.status.mask ∨ r'.Attentive)

theorem heeds_of_attentive {r r' : Registers} (h : r'.Attentive) : Heeds r r' :=
  ⟨fun _ => h, .inr h⟩

theorem heeds_of_eq {r r' : Registers} (hstatus : r'.status.mask = r.status.mask)
    (hcheck : r'.pending.interruptCheck = r.pending.interruptCheck)
    (hdue : r'.pending.interruptDue = r.pending.interruptDue) : Heeds r r' := by
  refine ⟨fun h => ?_, .inl (by rw [hstatus]; exact UInt8.le_refl _)⟩
  simp only [Attentive]
  rw [hcheck, hdue]
  exact h

theorem Heeds.trans {a b c : Registers} (hab : Heeds a b) (hbc : Heeds b c) : Heeds a c := by
  refine ⟨fun h => hbc.1 (hab.1 h), ?_⟩
  rcases hbc.2 with hmask | hc
  · rcases hab.2 with hmask' | hb
    · exact .inl (UInt8.le_trans hmask' hmask)
    · exact .inr (hbc.1 hb)
  · exact .inr hc

theorem unpackStatus_attentive (r : Registers) : r.unpackStatus.Attentive :=
  .inl (interruptCheck_unpackStatus r)

theorem kept_heeds : Registers.Kept Heeds where
  refl _ := heeds_of_eq rfl rfl rfl
  trans := Heeds.trans
  pc _ _ := heeds_of_eq rfl rfl rfl
  address _ _ _ _ := heeds_of_eq rfl rfl rfl
  pack _ := heeds_of_eq rfl rfl rfl
  supervisor r := by
    simp only [enterSupervisor, swapStacks]
    split <;> exact heeds_of_eq rfl rfl rfl
  dropTrace _ := heeds_of_eq rfl rfl rfl
  load _ _ := heeds_of_attentive (unpackStatus_attentive _)
  mask _ _ := heeds_of_attentive (.inl rfl)
  breakRequest _ := heeds_of_eq rfl rfl rfl
  interruptCheck _ := heeds_of_attentive (.inl rfl)
  endOfCycle _ _ := heeds_of_eq rfl rfl rfl
  interruptDue _ := heeds_of_attentive (.inr rfl)

theorem write_heeds (r : Registers) (q : Register) (v : UInt32) : Heeds r (r.write q v) := by
  cases q with
  | sr => exact heeds_of_attentive (unpackStatus_attentive _)
  | data n | address n | sp | pc => exact heeds_of_eq rfl rfl rfl
  | usp =>
    simp only [write, setUserSp]
    split <;> exact heeds_of_eq rfl rfl rfl
  | ssp =>
    simp only [write, setSupervisorSp]
    split <;> exact heeds_of_eq rfl rfl rfl

end Registers

theorem Registry.Unobtrusive.respects {β σ : Type} {r : Registry β σ} (h : r.Unobtrusive) :
    r.Respects Registers.Heeds := by
  intro v e he s
  obtain ⟨hmask, hcheck, hdue⟩ := h v e he s
  exact ⟨Or.imp hcheck hdue, .inl hmask⟩

namespace Hosted
variable {β σ η : Type} [Host η] {s : Hosted β σ η}

def Attentive (s : Hosted β σ η) : Prop :=
  s.AboveMask → s.machine.regs.Attentive ∨ Host.Unreported s.host

structure Heedful (s : Hosted β σ η) : Prop where
  hooks : s.machine.hooks.Respects Registers.Heeds
  attentive : s.Attentive

namespace Heedful

theorem of_attentive (hooks : s.machine.hooks.Respects Registers.Heeds)
    (h : s.machine.regs.Attentive) : Heedful s :=
  ⟨hooks, fun _ => .inl h⟩

theorem heeds (h : Heedful s) {m : Machine β σ} (hhooks : m.hooks = s.machine.hooks)
    (hregs : Registers.Heeds s.machine.regs m.regs) : Heedful ⟨m, s.host⟩ := by
  refine ⟨hhooks ▸ h.hooks, fun habove => ?_⟩
  obtain ⟨level, hl, hlevel⟩ := habove
  rcases hregs.2 with hmask | hattentive
  · rcases h.attentive ⟨level, hl, UInt8.lt_of_le_of_lt hmask hlevel⟩ with hr | hu
    · exact .inl (hregs.1 hr)
    · exact .inr hu
  · exact .inl hattentive

theorem evolves (h : Heedful s) {m : Machine β σ}
    (hm : Machine.Evolves (fun _ => True) Registers.Heeds s.machine m) : Heedful ⟨m, s.host⟩ :=
  h.heeds hm.hooks hm.regs

theorem talks (h : Heedful s) (hη : Host.Announces η) {s' : Hosted β σ η}
    (ht : Talks (fun _ => True) s s') : Heedful s' := by
  have hregs : s'.machine.regs = s.machine.regs := ht.1.regs
  have hm := ht.1.evolves Registers.kept_heeds.toKeptByException
  refine ⟨hm.respects h.hooks, fun habove => ?_⟩
  obtain ⟨level, hl, hlevel⟩ := habove
  obtain ⟨hpending, hwaits⟩ := hη.calls ht.2
  rcases hpending with hsame | hu
  · rw [hregs] at hlevel ⊢
    exact (h.attentive ⟨level, hsame ▸ hl, hlevel⟩).imp_right hwaits
  · exact .inr hu

theorem pollInterrupts (h : Heedful s) (hη : Host.Announces η) : Heedful s.pollInterrupts := by
  simp only [Hosted.pollInterrupts]
  rw [consult_eq]
  dsimp only
  split
  · exact of_attentive h.hooks (.inl rfl)
  · rename_i hno
    refine ⟨h.hooks, fun habove => ?_⟩
    obtain ⟨level, hl, hlevel⟩ := habove
    rcases hη.asked s.host with hsame | hu
    · have hknown := h.attentive ⟨level, hsame ▸ hl, hlevel⟩
      exact .inl (hknown.resolve_right hno)
    · exact .inr hu

theorem cycleSlowly (h : Heedful s) (hη : Host.Announces η) (sleeping : Bool) :
    Heedful (s.cycleSlowly sleeping) := by
  have hslow : Talks (fun _ => True) s
      (s.request (fun h => Host.cycleSlowly h sleeping) (.cycleSlowly sleeping)) :=
    .request s _ _ (.cycleSlowly sleeping) trivial
  have hasked := h.talks hη (hslow.trans
    (.ask _ Host.suspendRequested .suspendRequested trivial))
  rw [cycleSlowly_eq]
  dsimp only
  split
  · exact hasked.evolves (Machine.checkAfterCycle_evolves Registers.kept_heeds _)
  · exact hasked

theorem cycle (h : Heedful s) (hη : Host.Announces η) (sleeping : Bool) :
    Heedful (s.cycle sleeping) := by
  have hnested : Talks (fun _ => True) s s.isNested.2 := .ask s Host.isNested .isNested trivial
  have hticked := h.talks hη (hnested.trans (.request _ (fun h => Host.cycle h sleeping)
    (.cycle sleeping) (.cycle sleeping) trivial))
  have hcounted : Heedful ((s.isNested.2.request (fun h => Host.cycle h sleeping)
      (.cycle sleeping)).pollInterrupts.countTick) :=
    (hticked.pollInterrupts hη).evolves
      (.of_parts (Registers.kept_heeds.refl _) rfl rfl rfl rfl rfl)
  rw [cycle_eq]
  dsimp only
  split
  · exact h.talks hη hnested
  split
  · exact hcounted.cycleSlowly hη sleeping
  · exact hcounted

theorem checkForBreak (h : Heedful s) (hη : Host.Announces η) : Heedful s.checkForBreak.2 := by
  rw [checkForBreak_eq]
  split
  · exact h.evolves (.mapPending _ (Registers.heeds_of_eq rfl rfl rfl))
  · exact h.talks hη (.consult s _ _ .checkForBreak trivial)

theorem lateEndOfCycle (h : Heedful s) (hη : Host.Announces η) : Heedful s.lateEndOfCycle.2 := by
  simp only [Hosted.lateEndOfCycle]
  split
  · have hused : Heedful (s.map fun m => m.mapPending fun p => { p with endOfCycle := false }) :=
      h.evolves (.mapPending _ (Registers.heeds_of_eq rfl rfl rfl))
    exact hused.talks hη (.consult _ _ _ (.endOfCycle false) trivial)
  · exact h

variable [Bus β]

theorem acceptInterrupt_attentive {wake : Registers → Registers}
    (hwake : ∀ r, Registers.Heeds r (wake { r with stopped := false })) {m : Machine β σ}
    (hooks : m.hooks.Respects Registers.Heeds) (base : UInt8) {level : UInt8}
    (hlevel : Machine.isInterruptLevel level = true) :
    (acceptInterrupt wake base level m).regs.Attentive := by
  have htaken : Machine.Evolves (fun _ => True) Registers.Heeds m (m.takeInterrupt base level) :=
    Machine.takeInterrupt_evolves Registers.kept_heeds (fun _ _ => trivial)
      (fun _ _ _ => trivial) (fun _ => trivial) hooks base level
  have hraised : (m.takeInterrupt base level).regs.Attentive := by
    simp only [Machine.takeInterrupt]
    rw [if_pos hlevel]
    exact .inl rfl
  have hwoken := (hwake (m.takeInterrupt base level).regs).1 hraised
  have hfault : Machine.Evolves (fun _ => True) Registers.Heeds
      ((m.takeInterrupt base level).mapRegs fun r => wake { r with stopped := false })
      (acceptInterrupt wake base level m) :=
    Machine.deliverFault_evolves Registers.kept_heeds (fun _ _ => trivial) (htaken.respects hooks)
  exact hfault.regs.1 hwoken

theorem answerInterrupt (hooks : s.machine.hooks.Respects Registers.Heeds)
    (hη : Host.Announces η) (use : Pending → Pending) {wake : Registers → Registers}
    (hwake : ∀ r, Registers.Heeds r (wake { r with stopped := false })) :
    Heedful (s.answerInterrupt use wake) := by
  have hkept : (s.answerInterrupt use wake).machine.hooks = s.machine.hooks :=
    (answerInterrupt_evolves (P := fun _ => True) Registers.kept_true (fun _ _ => trivial)
      (fun _ _ => trivial) (fun _ => trivial) (fun _ => trivial) (Registry.respects_true _)).hooks
  by_cases habove : s.AboveMask
  · refine of_attentive (by rw [hkept]; exact hooks) ?_
    obtain ⟨level, hl, hm⟩ := habove
    rw [answerInterrupt_of_above hl hm]
    refine acceptInterrupt_attentive hwake ?_ _ (isInterruptLevel_of_pending hl)
    exact hooks
  · rw [answerInterrupt_of_not_above habove]
    refine ⟨hooks, fun habove' => ?_⟩
    obtain ⟨level, hl, hlevel⟩ := habove'
    rcases hη.callback _ _ (.interruptLevel (h := s.host)) with hsame | hu
    · exact absurd ⟨level, hsame ▸ hl, hlevel⟩ habove
    · exact .inr hu

theorem dueInterrupt (h : Heedful s) (hη : Host.Announces η) : Heedful s.dueInterrupt := by
  rw [dueInterrupt_eq]
  split
  · exact answerInterrupt h.hooks hη dueUsed fun _ => Registers.heeds_of_eq rfl rfl rfl
  · exact h

theorem idleInterrupt (h : Heedful s) (hη : Host.Announces η) : Heedful s.idleInterrupt := by
  rw [idleInterrupt_eq]
  split
  · exact answerInterrupt h.hooks hη Pending.withoutInterrupt fun _ =>
      Registers.heeds_of_eq rfl rfl rfl
  · exact h

theorem finishPass (h : Heedful s) (hη : Host.Announces η) : Heedful s.finishPass.2 := by
  have harmed : Heedful (s.map Machine.armTrace) :=
    h.evolves (Machine.armTrace_evolves Registers.kept_heeds (fun _ => trivial)
      fun _ => Registers.heeds_of_eq rfl rfl rfl)
  have hinterrupted : Heedful s.interrupted :=
    (harmed.dueInterrupt hη).evolves (Machine.promoteInterrupt_evolves
      Registers.kept_heeds Registers.kept_heeds.interruptDue _)
  have hlate := hinterrupted.lateEndOfCycle hη
  rw [finishPass_eq]
  split
  · exact hlate
  · exact hlate.checkForBreak hη

end Heedful
end Hosted

namespace Execution
variable {β σ η : Type} [Host η] [Bus β] {e : Execution β σ η}
open Hosted (Heedful)

theorem opcodeStep_heedful (hη : Host.Announces η) (h : Heedful e.state) :
    Heedful (e.opcodeStep ControlInstructions.table).state := by
  have hbreakpoint := h.talks hη (Hosted.breakpoint_talks (fun _ _ => trivial) e.state)
  have hrecorded : Heedful (e.state.breakpoint.map Machine.recordRegisters) :=
    hbreakpoint.evolves (Machine.recordRegisters_evolves Registers.kept_heeds _)
  have hready : Heedful e.ready.2 :=
    hrecorded.talks hη (Hosted.watchdog_check_talks (fun _ _ => trivial) e.watch _)
  have hdone : Heedful (e.ready.2.map (Machine.executeOpcode ControlInstructions.table)) :=
    hready.evolves (Machine.executeOpcode_evolves Registers.kept_heeds (fun _ _ => trivial)
      hready.hooks fun _ _ => Registers.heeds_of_eq rfl rfl rfl)
  rw [opcodeStep_eq]
  exact hdone.cycle hη false

theorem specialStep_heedful (hη : Host.Announces η) (h : Heedful e.state) :
    Heedful e.specialStep.state := by
  have hnested : Heedful e.state.isNested.2 :=
    h.talks hη (.ask e.state Host.isNested .isNested trivial)
  have hprobed : Heedful e.probed.2 := h.talks hη (probed_talks (fun _ _ => trivial) e)
  have htraced : Heedful e.traced :=
    hprobed.evolves (Machine.traceIfDue_evolves Registers.kept_heeds trivial (fun _ _ => trivial)
      hprobed.hooks)
  rw [specialStep_eq]
  split
  · exact hnested.checkForBreak hη
  split
  · exact hprobed
  split
  · exact htraced.talks hη (Hosted.enterIdle_talks (fun _ _ => trivial) _)
  · exact htraced.finishPass hη

theorem idleStep_heedful (hη : Host.Announces η) (h : Heedful e.state) (watch : Watchdog) :
    Heedful (e.idleStep watch).state := by
  have hchecked : Heedful (watch.check e.state).2 :=
    h.talks hη (Hosted.watchdog_check_talks (fun _ _ => trivial) watch _)
  have hdelayed : Heedful ((watch.check e.state).2.request Host.delay .delay) :=
    hchecked.talks hη (.request _ _ _ .delay trivial)
  have hcharged := hdelayed.evolves (Machine.charge_evolves Registers.kept_heeds _
    (watch.check e.state).2.machine.settings.idleTickCycles)
  have hwoken : Heedful (e.ticked watch).2.idleInterrupt.checkForBreak.2 :=
    ((hcharged.cycle hη true).idleInterrupt hη).checkForBreak hη
  rw [idleStep_eq]
  dsimp only
  split
  · exact hwoken.evolves (.mapPending _ (Registers.heeds_of_eq rfl rfl rfl))
  split
  · exact hwoken
  · exact hwoken.finishPass hη

theorem step_heedful (hη : Host.Announces η) (h : Heedful e.state) :
    Heedful (e.step ControlInstructions.table).state := by
  simp only [step]
  split
  · exact opcodeStep_heedful hη h
  · exact specialStep_heedful hη h
  · exact idleStep_heedful hη h _
  · exact h

theorem run_heedful (hη : Host.Announces η) (h : Heedful e.state) (n : Nat) :
    Heedful (e.run ControlInstructions.table n).state :=
  run_keeps ControlInstructions.table (I := fun e => Heedful e.state)
    (fun _ => step_heedful hη) h n

end Execution

namespace Hosted
variable {β σ η : Type} [Host η] [Bus β] {s : Hosted β σ η}

/-- What can become of a machine and its host from a hardware reset on. A call of the loop may be
looked at in the middle: the fuel is arbitrary. -/
inductive Reachable : Hosted β σ η → Prop
  | hardwareReset (m : Machine β σ) (h : η) (hooks : m.hooks.Unobtrusive) :
    Reachable ⟨m.reset true, h⟩
  | reset {s : Hosted β σ η} (hs : Reachable s) (hardware : Bool) :
    Reachable (s.map fun m => m.reset hardware)
  | execute {s : Hosted β σ η} (hs : Reachable s) (fuel : Nat) :
    Reachable (execute ControlInstructions.table fuel s).state
  | setRegister {s : Hosted β σ η} (hs : Reachable s) (q : Register) (v : UInt32) :
    Reachable (s.map fun m => m.setRegister q v)
  | setRegisters {s : Hosted β σ η} (hs : Reachable s) (r : Registers) :
    Reachable (s.map fun m => m.setRegisters r)
  | load {s : Hosted β σ η} (hs : Reachable s) {φ : Type} [SessionFile φ] (file : φ)
    {m : Machine β σ} (hm : s.machine.load file = .ok m) : Reachable ⟨m, s.host⟩
  | interruptsChanged {s : Hosted β σ η} (hs : Reachable s) :
    Reachable (s.map Machine.interruptsChanged)
  | requestBreak {s : Hosted β σ η} (hs : Reachable s) : Reachable (s.map Machine.requestBreak)
  | checkAfterCycle {s : Hosted β σ η} (hs : Reachable s) :
    Reachable (s.map Machine.checkAfterCycle)
  | setStackBounds {s : Hosted β σ η} (hs : Reachable s) (lowWarn low : UInt32) :
    Reachable (s.map fun m => m.setStackBounds lowWarn low)
  | clearStackOverflow {s : Hosted β σ η} (hs : Reachable s) :
    Reachable (s.map Machine.clearStackOverflow)

namespace Heedful

theorem deliverFault (h : Heedful s) : Heedful (s.map Machine.deliverFault) :=
  h.evolves (Machine.deliverFault_evolves Registers.kept_heeds (fun _ _ => trivial) h.hooks)

theorem hardwareReset {m : Machine β σ} (hooks : m.hooks.Respects Registers.Heeds) (h : η) :
    Heedful ⟨m.reset true, h⟩ := by
  let m' := m.clearBookkeeping.loadReset
  have hloaded : Heedful (⟨m'.announcePcToBus m'.regs.pc, h⟩ : Hosted β σ η) := by
    refine ⟨hooks, fun habove => ?_⟩
    obtain ⟨level, hl, hlevel⟩ := habove
    have hseven : level ≤ 7 := by
      have hrange := isInterruptLevel_of_pending hl
      simp only [Machine.isInterruptLevel, Bool.and_eq_true, decide_eq_true_eq] at hrange
      exact hrange.2
    exact absurd hlevel (UInt8.not_lt.mpr hseven)
  exact hloaded.deliverFault

theorem reset (h : Heedful s) (hardware : Bool) : Heedful (s.map fun m => m.reset hardware) := by
  cases hardware with
  | true => exact hardwareReset h.hooks s.host
  | false =>
    let m' := s.machine.clearBookkeeping
    have hannounced : Heedful (⟨m'.announcePcToBus m'.regs.pc, s.host⟩ : Hosted β σ η) :=
      h.heeds rfl (Registers.heeds_of_eq rfl rfl rfl)
    exact hannounced.deliverFault

theorem setRegisters {m : Machine β σ} (hooks : m.hooks.Respects Registers.Heeds) (h : η)
    (r : Registers) : Heedful ⟨m.setRegisters r, h⟩ := by
  let m' := { m with regs := r.unpackStatus }.announcePc r.unpackStatus.pc
  have hunpacked : Heedful (⟨{ m with regs := r.unpackStatus }, h⟩ : Hosted β σ η) :=
    of_attentive hooks (Registers.unpackStatus_attentive r)
  have hpc : Heedful (⟨m', h⟩ : Hosted β σ η) := hunpacked.evolves
    (Machine.announcePc_evolves Registers.kept_heeds (fun _ _ => trivial) _ r.unpackStatus.pc)
  have hsp : Heedful (⟨m'.notify (.newSp .changed), h⟩ : Hosted β σ η) := hpc.evolves
    (Machine.notify_evolves Registers.kept_heeds (fun _ _ => trivial) m' rfl)
  exact hsp.deliverFault

theorem of_reachable (hη : Host.Announces η) (h : s.Reachable) : Heedful s := by
  induction h with
  | hardwareReset m h hooks => exact hardwareReset hooks.respects h
  | reset hs hardware ih => exact ih.reset hardware
  | execute hs fuel ih =>
    have hstarted := ih.talks hη (Execution.start_talks (fun _ _ => trivial) _)
    exact Execution.run_heedful hη hstarted fuel
  | setRegister hs q v ih => exact ih.heeds rfl (Registers.write_heeds _ q v)
  | setRegisters hs r ih => exact setRegisters ih.hooks _ r
  | load hs file hm ih =>
    simp only [Machine.load] at hm
    cases hr : Machine.readRegisters file with
    | error e => rw [hr] at hm; cases hm
    | ok r =>
      rw [hr] at hm
      cases hm
      refine setRegisters ?_ _ r
      exact ih.hooks
  | interruptsChanged hs ih => exact of_attentive ih.hooks (.inl rfl)
  | requestBreak hs ih | checkAfterCycle hs ih | setStackBounds hs lowWarn low ih
  | clearStackOverflow hs ih => exact ih.heeds rfl (Registers.heeds_of_eq rfl rfl rfl)

end Heedful

/-- Whatever was done since the hardware reset, and whatever the hooks did short of lowering the
mask or clearing conditions: an interrupt above the mask is going to be looked for, or the host has
still to say that there is a change. -/
theorem interrupt_not_forgotten (hη : Host.Announces η) (h : s.Reachable) {level : UInt8}
    (hpending : Host.pending s.host = some level)
    (habove : s.machine.regs.status.mask < level) :
    s.machine.regs.pending.interruptCheck = true ∨ s.machine.regs.pending.interruptDue = true ∨
      (Host.takeInterruptChange s.host).1 = true :=
  or_assoc.mp ((Heedful.of_reachable hη h).attentive ⟨level, hpending, habove⟩)

theorem stuck_announces : Host.Announces Host.Stuck where
  callback _ _ hcall := by cases hcall <;> exact .inl rfl
  waits h h' hcall hu := by
    have hreached : h.limit ≤ h.ticks := of_decide_eq_true hu
    cases hcall with
    | cycle sleeping => exact decide_eq_true (Nat.le_succ_of_le hreached)
    | _ => exact hu
  asked _ := .inl rfl

def unmasked : Hosted Ram Unit Host.Stuck :=
  (⟨(Machine.ofSettings .default (.ofSize 16) ()).reset true, { level := some 6 }⟩ :
    Hosted Ram Unit Host.Stuck).map fun m => m.setRegister .sr 0x2000

theorem unmasked_reachable : unmasked.Reachable := by
  let m : Machine Ram Unit := Machine.ofSettings .default (.ofSize 16) ()
  have hooks : m.hooks.Unobtrusive := fun _ _ he => absurd he List.not_mem_nil
  exact .setRegister (.hardwareReset _ _ hooks) .sr 0x2000

theorem interrupt_not_forgotten_unmasked :
    let s := (execute ControlInstructions.table 2 unmasked).state
    Host.pending s.host = some 6 ∧ s.machine.regs.status.mask < 6 ∧
      (s.machine.regs.pending.interruptCheck = true ∨ s.machine.regs.pending.interruptDue = true ∨
        (Host.takeInterruptChange s.host).1 = true) := by
  have hpending :
      Host.pending (execute ControlInstructions.table 2 unmasked).state.host = some 6 := by
    decide +kernel
  have habove :
      (execute ControlInstructions.table 2 unmasked).state.machine.regs.status.mask < 6 := by
    decide +kernel
  exact ⟨hpending, habove,
    interrupt_not_forgotten stuck_announces (.execute unmasked_reachable 2) hpending habove⟩

end Hosted
end Mc68000
