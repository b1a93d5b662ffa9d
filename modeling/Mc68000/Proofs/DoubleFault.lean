import Mc68000.Machine.Control
import Mc68000.Memory.Ram
import Mc68000.Proofs.Loop

/-!
# After a double fault

A double fault asks for a break and is meant to halt the processor. The break is looked at last,
after everything else that a pass does, so the processor halts at once if the pass has nothing to
deliver, and otherwise takes one more exception first.
-/

namespace Mc68000

namespace Event

def goesOn (e : Event) : Bool := e.isException || e.isFetch

/-- Neither a double fault nor a sign that the processor goes on after one. -/
def Settled (e : Event) : Prop := e.goesOn = false ∧ e.isDoubleFault = false

def InOrder (newer older : Event) : Prop := older.isDoubleFault = true → newer.goesOn = false

theorem settled_of_ofHost {e : Event} (h : e.ofHost = true) : e.Settled := by
  cases e <;> simp_all [ofHost, Settled, goesOn, isException, isFetch, isDoubleFault]

theorem single_of_ofException {e : Event} (h : e.ofException = true) :
    e.isDoubleFault = false := by
  cases e <;> simp_all [ofException, isDoubleFault]

theorem single_of_ofInstruction {e : Event} (h : e.ofInstruction = true) :
    e.isDoubleFault = false := by
  cases e <;> simp_all [ofInstruction, ofException, isDoubleFault]

end Event

/-- The break that was asked for still is. Hooks are not held to it: none runs between a double
fault and the look at the break. -/
def Registers.KeepsBreak (r r' : Registers) : Prop :=
  r.pending.breakRequest = true → r'.pending.breakRequest = true

theorem Registers.kept_break : Registers.Kept Registers.KeepsBreak where
  refl _ := id
  trans hab hbc h := hbc (hab h)
  pc _ _ := id
  address _ _ _ _ := id
  pack _ := id
  supervisor r h := by rwa [pending_enterSupervisor]
  dropTrace _ := id
  load r w h := by rwa [loadStatus, breakRequest_unpackStatus]
  mask _ _ := id
  breakRequest _ _ := rfl
  interruptCheck _ := id
  endOfCycle _ _ := id
  interruptDue _ := id

namespace Machine
variable {β σ : Type} {R : Registers → Registers → Prop} {m m₁ m₂ : Machine β σ} {C C' : Prop}

/-- The events of a stretch are in order, and if there was a double fault, then `C`. -/
def Halts (m m' : Machine β σ) (C : Prop) : Prop :=
  ∃ es, m'.journal = es ++ m.journal ∧ es.Pairwise Event.InOrder ∧
    ((∃ d ∈ es, d.isDoubleFault = true) → C)

namespace Halts

theorem mono (h : Halts m m₁ C) (hC : C → C') : Halts m m₁ C' := by
  obtain ⟨es, hj, hes, hdouble⟩ := h
  exact ⟨es, hj, hes, fun hd => hC (hdouble hd)⟩

theorem of_single (h : Evolves (fun e => e.isDoubleFault = false) R m m₁) : Halts m m₁ C := by
  obtain ⟨es, hj, hes⟩ := h.journal
  refine ⟨es, hj, ?_, ?_⟩
  · refine List.Pairwise.imp_of_mem (R := fun _ _ => True) ?_
      (List.pairwise_of_forall fun _ _ => trivial)
    intro newer older _ hold _ hdouble
    rw [hes older hold] at hdouble
    cases hdouble
  · rintro ⟨d, hd, hdouble⟩
    rw [hes d hd] at hdouble
    cases hdouble

theorem bind (h : Halts m m₁ C) (hafter : C → Evolves (fun e => e.goesOn = false) R m₁ m₂ ∧ C')
    (hrest : Halts m₁ m₂ C') : Halts m m₂ C' := by
  obtain ⟨es, hj, hes, hdouble⟩ := h
  obtain ⟨fs, hj₁, hfs, hdouble₁⟩ := hrest
  refine ⟨fs ++ es, by simp [hj₁, hj], ?_, ?_⟩
  · rw [List.pairwise_append]
    refine ⟨hfs, hes, fun newer hnew older hold hd => ?_⟩
    exact (hafter (hdouble ⟨older, hold, hd⟩)).1.of_append hj₁ newer hnew
  · rintro ⟨d, hd, hdf⟩
    rcases List.mem_append.mp hd with hd | hd
    · exact hdouble₁ ⟨d, hd, hdf⟩
    · exact (hafter (hdouble ⟨d, hd, hdf⟩)).2

theorem after (h : Evolves (fun e => e.isDoubleFault = false) R m m₁) (hrest : Halts m₁ m₂ C) :
    Halts m m₂ C :=
  bind (R := R) (of_single (C := False) h) False.elim hrest

theorem settled (h : Halts m m₁ (m₁.regs.pending.breakRequest = true))
    (hrest : Evolves Event.Settled Registers.KeepsBreak m₁ m₂) :
    Halts m m₂ (m₂.regs.pending.breakRequest = true) :=
  h.bind (fun hbreak => ⟨hrest.mono fun _ he => he.1, hrest.regs hbreak⟩)
    (of_single (hrest.mono fun _ he => he.2))

end Halts

theorem not_halts (hm : Grows m m₁) {m₃ : Machine β σ}
    (hdouble : Logged (fun e => e.isDoubleFault = true) m₁ m₂)
    (hgoes : Logged (fun e => e.goesOn = true) m₂ m₃) : ¬ Halts m m₃ C := by
  rintro ⟨es, hj, hes, -⟩
  obtain ⟨as, hjm⟩ := hm
  obtain ⟨ds, hjd, d, hd, hdf⟩ := hdouble
  obtain ⟨gs, hjg, g, hg, hgo⟩ := hgoes
  have hsplit : es = gs ++ (ds ++ as) := by
    rw [hjg, hjd, hjm, ← List.append_assoc, ← List.append_assoc] at hj
    simpa using (List.append_cancel_right hj).symm
  rw [hsplit, List.pairwise_append] at hes
  have hquiet := hes.2.2 g hg d (by simp [hd]) hdf
  exact absurd (hgo.symm.trans hquiet) (by decide)

variable [Bus β]

theorem raiseFault_halts (m : Machine β σ) (f : Fault) :
    Halts m (m.raiseFault f) ((m.raiseFault f).regs.pending.breakRequest = true) := by
  have hentered : Evolves (fun e => e.isDoubleFault = false) (fun _ _ => True) m
      (m.enterFault f).takeFault.2 :=
    (enterFault_evolves Registers.kept_true (fun _ => Event.single_of_ofException) (fun _ => rfl)
      (Registry.respects_true _) f).trans Registers.kept_true
        (takeFault_evolves Registers.kept_true _)
  refine .after hentered ?_
  rw [raiseFault_eq]
  split
  · exact .of_single (R := fun _ _ => True) (.refl Registers.kept_true _)
  · exact ⟨[_], rfl, List.pairwise_singleton _ _, fun _ => rfl⟩

theorem deliverFault_halts (m : Machine β σ) :
    Halts m m.deliverFault (m.deliverFault.regs.pending.breakRequest = true) := by
  have htaken : Evolves (fun e => e.isDoubleFault = false) (fun _ _ => True) m m.takeFault.2 :=
    takeFault_evolves Registers.kept_true m
  rw [deliverFault_eq]
  split
  · exact .of_single htaken
  · exact .after htaken (raiseFault_halts _ _)

theorem traceIfDue_halts (m : Machine β σ) :
    Halts m m.traceIfDue (m.traceIfDue.regs.pending.breakRequest = true) := by
  simp only [traceIfDue]
  split
  · have hlog : Evolves (fun e => e.isDoubleFault = false) (fun _ _ => True) m (m.log .trace) :=
      .log Registers.kept_true m rfl
    exact .after (hlog.trans Registers.kept_true (takeException_evolves Registers.kept_true
      (fun _ => Event.single_of_ofException) (Registry.respects_true _) ExceptionVector.trace))
      (deliverFault_halts _)
  · exact .of_single (R := fun _ _ => True) (.refl Registers.kept_true m)

theorem traceIfDue_vectors {m : Machine β σ}
    (h : (m.regs.pending.traceDue && !m.regs.pending.stop) = true) :
    Logged (fun e => e.isException) m m.traceIfDue := by
  simp only [traceIfDue]
  rw [if_pos h]
  exact (Logged.grows_trans ⟨[_], rfl⟩ (takeException_logged (m.log .trace) _)).trans_grows
    (deliverFault_continues _).grows

theorem executeOpcode_halts (m : Machine β σ) :
    Halts m (m.executeOpcode ControlInstructions.table)
      ((m.executeOpcode ControlInstructions.table).regs.pending.breakRequest = true) := by
  have htaken : Evolves (fun e => e.isDoubleFault = false) (fun _ _ => True) m
      m.fetchOpcode.2.takeFault.2 :=
    (fetchOpcode_evolves Registers.kept_true (fun _ => Event.single_of_ofInstruction)
      (fun _ => rfl) m).trans Registers.kept_true (takeFault_evolves Registers.kept_true _)
  rw [executeOpcode_eq]
  split
  · exact .after (htaken.trans Registers.kept_true (.mapRegs _ trivial)) (raiseFault_halts _ _)
  · have hdone : Evolves (fun e => e.isDoubleFault = false) (fun _ _ => True)
        m.fetchOpcode.2.takeFault.2
        (dispatched ControlInstructions.table m.fetchOpcode.1 m.fetchOpcode.2.takeFault.2) :=
      dispatched_evolves Registers.kept_true (fun _ => Event.single_of_ofInstruction)
        (fun _ _ => rfl) (Registry.respects_true _) _ fun _ _ _ => trivial
    exact .after (htaken.trans Registers.kept_true hdone) (deliverFault_halts _)

end Machine

namespace Hosted
variable {β σ η : Type} [Host η] {s : Hosted β σ η}
open Machine (Halts)

theorem checkForBreak_of_break (h : s.machine.regs.pending.breakRequest = true) :
    s.checkForBreak.1 = true := by
  rw [checkForBreak_eq, if_pos h]

theorem checkForBreak_halts {m : Machine β σ}
    (h : Halts m s.machine (s.machine.regs.pending.breakRequest = true)) :
    Halts m s.checkForBreak.2.machine (s.checkForBreak.1 = true) := by
  have hsettled : Machine.Evolves Event.Settled (fun _ _ => True) s.machine
      s.checkForBreak.2.machine :=
    checkForBreak_evolves Registers.kept_true (Event.of_talk fun _ => Event.settled_of_ofHost)
      (fun _ => trivial) s
  exact h.bind (fun hbreak => ⟨hsettled.mono fun _ he => he.1, checkForBreak_of_break hbreak⟩)
    (.of_single (hsettled.mono fun _ he => he.2))

variable [Bus β]

theorem acceptInterrupt_halts (wake : Registers → Registers) (base level : UInt8)
    (m : Machine β σ) :
    Halts m (acceptInterrupt wake base level m)
      ((acceptInterrupt wake base level m).regs.pending.breakRequest = true) := by
  have htaken : Machine.Evolves (fun e => e.isDoubleFault = false) (fun _ _ => True) m
      (m.takeInterrupt base level) :=
    Machine.takeInterrupt_evolves Registers.kept_true (fun _ => Event.single_of_ofException)
      (fun _ _ _ => rfl) (fun _ => rfl) (Registry.respects_true _) base level
  exact .after (htaken.trans Registers.kept_true (.mapRegs _ trivial))
    (Machine.deliverFault_halts _)

theorem answerInterrupt_halts (use : Pending → Pending) (wake : Registers → Registers)
    (s : Hosted β σ η) :
    Halts s.machine (s.answerInterrupt use wake).machine
      ((s.answerInterrupt use wake).machine.regs.pending.breakRequest = true) := by
  have hused : Machine.Evolves (fun e => e.isDoubleFault = false) (fun _ _ => True) s.machine
      (s.pendingLevel.2.map fun m => m.mapPending use).machine :=
    ((pendingLevel_talks (Event.of_talk fun _ he => (Event.settled_of_ofHost he).2) s).1.evolves
      Registers.kept_true).trans Registers.kept_true (.mapPending _ trivial)
  by_cases habove : s.AboveMask
  · obtain ⟨level, hl, hm⟩ := habove
    rw [answerInterrupt_of_above hl hm]
    exact .after (hused.trans Registers.kept_true (.log Registers.kept_true _ rfl))
      (acceptInterrupt_halts wake _ level _)
  · rw [answerInterrupt_of_not_above habove]
    exact .of_single hused

theorem dueInterrupt_halts (s : Hosted β σ η) :
    Halts s.machine s.dueInterrupt.machine
      (s.dueInterrupt.machine.regs.pending.breakRequest = true) := by
  rw [dueInterrupt_eq]
  split
  · exact answerInterrupt_halts dueUsed id s
  · exact .of_single (.refl Registers.kept_true.toKeptByException s.machine)

theorem idleInterrupt_halts (s : Hosted β σ η) :
    Halts s.machine s.idleInterrupt.machine
      (s.idleInterrupt.machine.regs.pending.breakRequest = true) := by
  rw [idleInterrupt_eq]
  split
  · exact answerInterrupt_halts Pending.withoutInterrupt wakened s
  · exact .of_single (.refl Registers.kept_true.toKeptByException s.machine)

theorem interrupted_halts (s : Hosted β σ η) :
    Halts s.machine s.interrupted.machine
      (s.interrupted.machine.regs.pending.breakRequest = true) := by
  have harmed : Machine.Evolves (fun e => e.isDoubleFault = false) (fun _ _ => True) s.machine
      s.machine.armTrace :=
    Machine.armTrace_evolves Registers.kept_true (fun _ => rfl) fun _ => trivial
  have hdue := Halts.after harmed (dueInterrupt_halts (s.map Machine.armTrace))
  exact hdue.settled (Machine.promoteInterrupt_evolves Registers.kept_break (fun _ => id) _)

theorem finishPass_halts (s : Hosted β σ η) :
    Halts s.machine s.finishPass.2.machine (s.finishPass.1 = true) := by
  have hlate := (interrupted_halts s).settled (lateEndOfCycle_evolves Registers.kept_break
    (Event.of_talk fun _ => Event.settled_of_ofHost) _)
  rw [finishPass_eq]
  split
  · exact hlate.mono fun _ => rfl
  · exact checkForBreak_halts hlate

def RestVectors (s : Hosted β σ η) : Prop :=
  if s.machine.regs.pending.stop then (s.enterIdle.1.check s.enterIdle.2).2.tick.WakeDue
  else s.InterruptDue

theorem finishPass_quiet (hbreak : s.machine.regs.pending.breakRequest = true)
    (hdue : ¬ s.InterruptDue) :
    Machine.Evolves (fun e => e.goesOn = false) (fun _ _ => True) s.machine
        s.finishPass.2.machine ∧ s.finishPass.1 = true := by
  have hP : ∀ e : Event, e.ofTalk → e.Settled := Event.of_talk fun _ => Event.settled_of_ofHost
  have hquiet : ∀ {R : Registers → Registers → Prop}, Registers.Kept R →
      (∀ r : Registers, R r (r.mapPending dueUsed)) → Machine.Evolves Event.Settled R
        (s.map Machine.armTrace).machine (s.map Machine.armTrace).dueInterrupt.machine :=
    fun hK hused => dueInterrupt_evolves_of_not_due hK hP hused
      fun h => hdue (interruptDue_armTrace.mp h)
  constructor
  · have hpass := finishPass_evolves Registers.kept_true hP
      (fun _ => ⟨rfl, rfl⟩) (fun _ => trivial) (fun _ => trivial)
      fun t (ht : t = s.map Machine.armTrace) => ht ▸ hquiet Registers.kept_true fun _ => trivial
    exact hpass.mono fun _ he => he.1
  · have hinterrupted := interrupted_evolves Registers.kept_break (fun _ => ⟨rfl, rfl⟩)
      (fun _ => id)
      fun t (ht : t = s.map Machine.armTrace) => ht ▸ hquiet Registers.kept_break fun _ => id
    have hlate := hinterrupted.trans Registers.kept_break
      (lateEndOfCycle_evolves Registers.kept_break hP _)
    rw [finishPass_eq]
    split
    · rfl
    · exact checkForBreak_of_break (hlate.regs hbreak)

end Hosted

namespace Execution
variable {β σ η : Type} [Host η] [Bus β] {e : Execution β σ η}
open Machine (Halts)

def PassVectors (e : Execution β σ η) : Prop :=
  Host.isNested e.state.host = false ∧ e.probed.1 = false ∧
    ((e.probed.2.machine.regs.pending.traceDue && !e.probed.2.machine.regs.pending.stop) = true ∨
      e.probed.2.RestVectors)

/-- A double fault comes up in the next step, and an exception is taken after it. This can be so for
an opcode and for the trace exception of a pass. -/
def VectorsAgain (e : Execution β σ η) : Prop :=
  match e.phase with
  | .opcode =>
    Machine.Logged (fun e => e.isDoubleFault) e.state.machine
      (e.opcodeStep ControlInstructions.table).state.machine ∧
        (e.opcodeStep ControlInstructions.table).PassVectors
  | .special =>
    Host.isNested e.state.host = false ∧ e.probed.1 = false ∧
      Machine.Logged (fun e => e.isDoubleFault) e.probed.2.machine e.traced.machine ∧
        e.traced.RestVectors
  | _ => False

def Ending (e : Execution β σ η) : Prop :=
  match e.phase with
  | .opcode => False
  | .special => e.state.machine.regs.pending.breakRequest = true ∧ ¬ e.PassVectors
  | .idle watch =>
    e.state.machine.regs.pending.breakRequest = true ∧ ¬ (e.ticked watch).2.WakeDue
  | .returned => True

omit [Bus β] in
theorem ending_of_returned (h : e.phase = .returned) : e.Ending := by
  simp only [Ending]
  rw [h]
  trivial

omit [Host η] [Bus β] in
theorem endPass_of_leave (watch : Watchdog) {outcome : Bool × Hosted β σ η}
    (h : outcome.1 = true) : (endPass watch outcome).phase = .returned := by
  simp only [endPass]
  rw [if_pos h]

theorem specialStep_ending (hbreak : e.state.machine.regs.pending.breakRequest = true)
    (hpass : ¬ e.PassVectors) :
    Machine.Evolves (fun e => e.goesOn = false) (fun _ _ => True) e.state.machine
        e.specialStep.state.machine ∧
      (e.specialStep.phase = .returned ∨ ∃ watch, e.specialStep.phase = .idle watch ∧
        e.specialStep.state.machine.regs.pending.breakRequest = true ∧
          ¬ (e.specialStep.ticked watch).2.WakeDue) := by
  have hP : ∀ e : Event, e.ofHost = true → e.goesOn = false :=
    fun _ he => (Event.settled_of_ofHost he).1
  have hnested : Machine.Evolves (fun e => e.goesOn = false) (fun _ _ => True) e.state.machine
      e.state.isNested.2.machine := .log Registers.kept_true _ rfl
  have hprobed := probed_talks (Event.of_talk hP) e
  have hbreak' : e.probed.2.machine.regs.pending.breakRequest = true := by
    rw [hprobed.1.regs]
    exact hbreak
  rw [specialStep_eq]
  split
  · exact ⟨hnested.trans Registers.kept_true (Hosted.checkForBreak_evolves Registers.kept_true
      (Event.of_talk hP) (fun _ => trivial) _),
      .inl (endPass_of_leave _ (Hosted.checkForBreak_of_break hbreak))⟩
  rename_i hno
  split
  · exact ⟨hprobed.1.evolves Registers.kept_true, .inl rfl⟩
  rename_i hstay
  have hvectors : ¬ ((e.probed.2.machine.regs.pending.traceDue &&
      !e.probed.2.machine.regs.pending.stop) = true ∨ e.probed.2.RestVectors) :=
    fun h => hpass ⟨Bool.eq_false_iff.mpr hno, Bool.eq_false_iff.mpr hstay, h⟩
  have htraced : e.traced = e.probed.2 := by
    simp only [traced, Hosted.map, Machine.traceIfDue]
    rw [if_neg fun h => hvectors (.inl h)]
  have hrest : ¬ e.probed.2.RestVectors := fun h => hvectors (.inr h)
  rw [htraced]
  simp only [Hosted.RestVectors] at hrest
  split
  · rename_i hstop
    rw [if_pos hstop] at hrest
    have hidle := Hosted.enterIdle_talks (Event.of_aside hP) e.probed.2
    refine ⟨(hprobed.trans hidle).1.evolves Registers.kept_true, .inr ⟨_, rfl, ?_, hrest⟩⟩
    rw [hidle.1.regs]
    exact hbreak'
  · rename_i hstop
    rw [if_neg hstop] at hrest
    obtain ⟨hquiet, hleave⟩ := Hosted.finishPass_quiet hbreak' hrest
    exact ⟨(hprobed.1.evolves Registers.kept_true).trans Registers.kept_true hquiet,
      .inl (endPass_of_leave _ hleave)⟩

theorem idleStep_ending (hbreak : e.state.machine.regs.pending.breakRequest = true)
    {watch : Watchdog} (hwake : ¬ (e.ticked watch).2.WakeDue) :
    Machine.Evolves (fun e => e.goesOn = false) (fun _ _ => True) e.state.machine
        (e.idleStep watch).state.machine ∧ (e.idleStep watch).phase = .returned := by
  have hP : ∀ e : Event, e.ofHost = true → e.goesOn = false :=
    fun _ he => (Event.settled_of_ofHost he).1
  have hquiet : ∀ {R : Registers → Registers → Prop}, Registers.Kept R →
      (∀ r : Registers, R r (r.mapPending Pending.withoutInterrupt)) →
        Machine.Evolves (fun e => e.goesOn = false) R e.state.machine
          (e.ticked watch).2.idleInterrupt.machine :=
    fun hK hused => (ticked_evolves hK hP rfl watch e).trans hK
      (Hosted.idleInterrupt_evolves_of_not_due hK (Event.of_talk hP) hused hwake)
  have hleave := Hosted.checkForBreak_of_break
    ((hquiet Registers.kept_break fun _ => id).regs hbreak)
  have hbroken := (hquiet Registers.kept_true fun _ => trivial).trans Registers.kept_true
    (Hosted.checkForBreak_evolves Registers.kept_true (Event.of_talk hP) (fun _ => trivial) _)
  rw [idleStep_eq]
  dsimp only
  rw [if_pos hleave]
  exact ⟨hbroken.trans Registers.kept_true (.mapPending _ trivial), rfl⟩

theorem ending_step (h : e.Ending) :
    Machine.Evolves (fun e => e.goesOn = false) (fun _ _ => True) e.state.machine
        (e.step ControlInstructions.table).state.machine ∧
      (e.step ControlInstructions.table).Ending := by
  simp only [Ending] at h
  simp only [step]
  cases hphase : e.phase with
  | opcode => rw [hphase] at h; exact h.elim
  | special =>
    rw [hphase] at h
    obtain ⟨hquiet, hreturned | ⟨watch, hidle, hbreak, hwake⟩⟩ := specialStep_ending h.1 h.2
    · exact ⟨hquiet, ending_of_returned hreturned⟩
    · refine ⟨hquiet, ?_⟩
      dsimp only
      simp only [Ending]
      rw [hidle]
      exact ⟨hbreak, hwake⟩
  | idle watch =>
    rw [hphase] at h
    obtain ⟨hquiet, hreturned⟩ := idleStep_ending h.1 h.2
    exact ⟨hquiet, ending_of_returned hreturned⟩
  | returned => exact ⟨.refl Registers.kept_true _, ending_of_returned hphase⟩

theorem ending_returns (h : e.Ending) :
    (e.run ControlInstructions.table 2).phase = .returned := by
  have hstay : ∀ {x : Execution β σ η}, x.phase = .returned →
      (x.step ControlInstructions.table).phase = .returned := fun hx => by
    rw [step_of_returned ControlInstructions.table hx, hx]
  rw [run_step, run_step, run]
  simp only [Ending] at h
  cases hphase : e.phase with
  | opcode => rw [hphase] at h; exact h.elim
  | special =>
    rw [hphase] at h
    rw [step_special _ hphase]
    obtain ⟨-, hdone | ⟨watch, hidle, hbreak, hwake⟩⟩ := specialStep_ending h.1 h.2
    · exact hstay hdone
    · rw [step_idle _ hidle]
      exact (idleStep_ending hbreak hwake).2
  | idle watch =>
    rw [hphase] at h
    rw [step_idle _ hphase]
    exact hstay (idleStep_ending h.1 h.2).2
  | returned => exact hstay (hstay hphase)

theorem opcodeStep_halts (e : Execution β σ η) :
    Halts e.state.machine (e.opcodeStep ControlInstructions.table).state.machine
      ((e.opcodeStep ControlInstructions.table).state.machine.regs.pending.breakRequest =
        true) := by
  have hready := ready_evolves (R := fun _ _ => True) Registers.kept_true
    (fun _ he => (Event.settled_of_ofHost he).2) e
  have hdone := Halts.after hready (Machine.executeOpcode_halts e.ready.2.machine)
  rw [opcodeStep_eq]
  exact hdone.settled (Hosted.cycle_evolves Registers.kept_break
    (Event.of_talk fun _ => Event.settled_of_ofHost)
    (e.ready.2.map (Machine.executeOpcode ControlInstructions.table)) false)

theorem opcodeStep_special_of_break
    (h : (e.opcodeStep ControlInstructions.table).state.machine.regs.pending.breakRequest = true) :
    (e.opcodeStep ControlInstructions.table).phase = .special :=
  opcodeStep_special (by simp [Pending.isEmpty, h])

theorem specialStep_halts
    (h : Host.isNested e.state.host = false → e.probed.1 = false →
      Machine.Logged (fun e => e.isDoubleFault) e.probed.2.machine e.traced.machine →
        ¬ e.traced.RestVectors) :
    Halts e.state.machine e.specialStep.state.machine e.specialStep.Ending := by
  have hP : ∀ e : Event, e.ofHost = true → e.isDoubleFault = false :=
    fun _ he => (Event.settled_of_ofHost he).2
  have hnested : Machine.Evolves (fun e => e.isDoubleFault = false) (fun _ _ => True)
      e.state.machine e.state.isNested.2.machine := .log Registers.kept_true _ rfl
  have hprobed : Machine.Evolves (fun e => e.isDoubleFault = false) (fun _ _ => True)
      e.state.machine e.probed.2.machine :=
    (probed_talks (Event.of_talk hP) e).1.evolves Registers.kept_true
  rw [specialStep_eq]
  split
  · exact .of_single (hnested.trans Registers.kept_true (Hosted.checkForBreak_evolves
      Registers.kept_true (Event.of_talk hP) (fun _ => trivial) _))
  rename_i hno
  split
  · exact .of_single hprobed
  rename_i hstay
  -- The trace exception may have ended in a double fault: then nothing is left to deliver.
  obtain ⟨es, hj, hes, hbreak⟩ := Machine.traceIfDue_halts e.probed.2.machine
  have hquiet : (∃ d ∈ es, d.isDoubleFault = true) →
      e.traced.machine.regs.pending.breakRequest = true ∧ ¬ e.traced.RestVectors :=
    fun hd => ⟨hbreak hd, h (Bool.eq_false_iff.mpr hno) (Bool.eq_false_iff.mpr hstay) ⟨es, hj, hd⟩⟩
  refine .after hprobed (Halts.bind (R := fun _ _ => True) ⟨es, hj, hes, hquiet⟩ ?_ ?_)
  · rintro ⟨hbreak, hrest⟩
    simp only [Hosted.RestVectors] at hrest
    split
    · rename_i hstop
      rw [if_pos hstop] at hrest
      have hidle := Hosted.enterIdle_talks
        (Event.of_aside fun _ he => (Event.settled_of_ofHost he).1) e.traced
      refine ⟨hidle.1.evolves Registers.kept_true, ?_, hrest⟩
      rw [hidle.1.regs]
      exact hbreak
    · rename_i hstop
      rw [if_neg hstop] at hrest
      obtain ⟨hpass, hleave⟩ := Hosted.finishPass_quiet hbreak hrest
      exact ⟨hpass, ending_of_returned (endPass_of_leave _ hleave)⟩
  · split
    · exact .of_single ((Hosted.enterIdle_talks (Event.of_aside hP) e.traced).1.evolves
      Registers.kept_true.toKeptByException)
    · exact (Hosted.finishPass_halts e.traced).mono fun hleave =>
        ending_of_returned (endPass_of_leave _ hleave)

theorem idleStep_halts (watch : Watchdog) (e : Execution β σ η) :
    Halts e.state.machine (e.idleStep watch).state.machine (e.idleStep watch).Ending := by
  have hP : ∀ e : Event, e.ofHost = true → e.isDoubleFault = false :=
    fun _ he => (Event.settled_of_ofHost he).2
  have hticked := ticked_evolves (R := fun _ _ => True) Registers.kept_true hP rfl watch e
  have hwoken := Hosted.checkForBreak_halts
    (Halts.after hticked (Hosted.idleInterrupt_halts (e.ticked watch).2))
  rw [idleStep_eq]
  dsimp only
  split
  · exact hwoken.bind (R := fun _ _ => True) (fun _ => ⟨.mapPending _ trivial, trivial⟩)
      (.of_single (R := fun _ _ => True) (.mapPending _ trivial))
  rename_i hstay
  split
  · exact hwoken.mono fun hleave => absurd hleave hstay
  · exact hwoken.bind (R := fun _ _ => True) (fun hleave => absurd hleave hstay)
      ((Hosted.finishPass_halts _).mono fun hleave =>
        ending_of_returned (endPass_of_leave _ hleave))

theorem step_halts (h : ¬ e.VectorsAgain) :
    Halts e.state.machine (e.step ControlInstructions.table).state.machine
      (e.step ControlInstructions.table).Ending := by
  simp only [VectorsAgain] at h
  simp only [step]
  cases hphase : e.phase with
  | opcode =>
    rw [hphase] at h
    obtain ⟨es, hj, hes, hbreak⟩ := opcodeStep_halts e
    refine ⟨es, hj, hes, fun hd => ?_⟩
    dsimp only
    simp only [Ending]
    rw [opcodeStep_special_of_break (hbreak hd)]
    exact ⟨hbreak hd, fun hpass => h ⟨⟨es, hj, hd⟩, hpass⟩⟩
  | special =>
    rw [hphase] at h
    exact specialStep_halts fun hnested hstay hdouble hrest => h ⟨hnested, hstay, hdouble, hrest⟩
  | idle watch => exact idleStep_halts watch e
  | returned => exact .of_single (.refl Registers.kept_true.toKeptByException _)

theorem specialStep_rest_grows (hnested : Host.isNested e.state.host = false)
    (hstay : e.probed.1 = false) : Machine.Grows e.traced.machine e.specialStep.state.machine := by
  rw [specialStep_of_stay hnested hstay]
  split
  · exact (Hosted.enterIdle_talks (P := fun _ => True) (fun _ _ => trivial) _).continues.grows
  · exact (Hosted.finishPass_continues e.traced).grows

theorem rest_vectors (hnested : Host.isNested e.state.host = false)
    (hstay : e.probed.1 = false) (hrest : e.traced.RestVectors) :
    ∃ k, Machine.Logged (fun e => e.isException) e.traced.machine
      (e.specialStep.run ControlInstructions.table k).state.machine := by
  rw [specialStep_of_stay hnested hstay]
  simp only [Hosted.RestVectors] at hrest
  split
  · rename_i hstop
    rw [if_pos hstop] at hrest
    have hidle := (Hosted.enterIdle_talks (P := fun _ => True) (fun _ _ => trivial)
      e.traced).continues.grows
    let idling : Execution β σ η :=
      ⟨e.traced.enterIdle.2, e.watch, .idle e.traced.enterIdle.1⟩
    have hwake : (idling.ticked e.traced.enterIdle.1).2.WakeDue := hrest
    refine ⟨1, .grows_trans hidle ?_⟩
    rw [run_step, run, step_idle _ rfl]
    exact (idleStep_logged hwake).2
  · rename_i hstop
    rw [if_neg hstop] at hrest
    exact ⟨0, (Hosted.finishPass_logged hrest).2⟩

theorem pass_vectors (hphase : e.phase = .special) (h : e.PassVectors) :
    ∃ k, Machine.Logged (fun e => e.isException) e.state.machine
      (e.run ControlInstructions.table k).state.machine := by
  obtain ⟨hnested, hstay, hvectors⟩ := h
  by_cases htrace : (e.probed.2.machine.regs.pending.traceDue &&
      !e.probed.2.machine.regs.pending.stop) = true
  · have hlogged : Machine.Logged (fun e => e.isException) e.probed.2.machine e.traced.machine :=
      Machine.traceIfDue_vectors htrace
    refine ⟨1, ?_⟩
    rw [run_step, run, step_special _ hphase]
    exact (Machine.Logged.grows_trans (probed_continues e).grows hlogged).trans_grows
      (specialStep_rest_grows hnested hstay)
  · have hsame : e.traced = e.probed.2 := by
      simp only [traced, Hosted.map, Machine.traceIfDue]
      rw [if_neg htrace]
    obtain ⟨k, hlogged⟩ := rest_vectors hnested hstay (hsame ▸ hvectors.resolve_left htrace)
    refine ⟨k + 1, ?_⟩
    rw [run_step, step_special _ hphase]
    exact .grows_trans (traced_continues e).grows hlogged

theorem vectorsAgain_goesOn (h : e.VectorsAgain) :
    ∃ k m₁ m₂, Machine.Grows e.state.machine m₁ ∧
      Machine.Logged (fun e => e.isDoubleFault = true) m₁ m₂ ∧
        Machine.Logged (fun e => e.goesOn = true) m₂
          (e.run ControlInstructions.table k).state.machine := by
  have hgoes : ∀ e : Event, e.isException = true → e.goesOn = true :=
    fun e he => by simp [Event.goesOn, he]
  simp only [VectorsAgain] at h
  cases hphase : e.phase with
  | opcode =>
    rw [hphase] at h
    obtain ⟨hdouble, hpass⟩ := h
    obtain ⟨es, hj, -, hbreak⟩ := opcodeStep_halts e
    have hspecial := opcodeStep_special_of_break (hbreak (hdouble.of_append hj))
    obtain ⟨k, hlogged⟩ := pass_vectors hspecial hpass
    refine ⟨k + 1, _, _, ⟨[], rfl⟩, hdouble, ?_⟩
    rw [run_step, step_opcode _ hphase]
    exact hlogged.mono hgoes
  | special =>
    rw [hphase] at h
    obtain ⟨hnested, hstay, hdouble, hrest⟩ := h
    obtain ⟨k, hlogged⟩ := rest_vectors hnested hstay hrest
    refine ⟨k + 1, _, _, (probed_continues e).grows, hdouble, ?_⟩
    rw [run_step, step_special _ hphase]
    exact hlogged.mono hgoes
  | idle watch => rw [hphase] at h; exact h.elim
  | returned => rw [hphase] at h; exact h.elim

theorem execute_halts {s : Hosted β σ η}
    (h : ∀ n, ¬ (execute ControlInstructions.table n s).VectorsAgain) (n : Nat) :
    Halts s.machine (execute ControlInstructions.table n s).state.machine
      (execute ControlInstructions.table n s).Ending := by
  simp only [execute] at h ⊢
  induction n with
  | zero =>
    exact .of_single ((start_talks (fun _ he => (Event.settled_of_ofHost he).2) s).1.evolves
      Registers.kept_true.toKeptByException)
  | succ n ih =>
    rw [run_succ]
    exact ih.bind ending_step (step_halts (h n))

/-- After a double fault a call takes no exception, fetches nothing and returns within two steps, as
long as no double fault comes up ahead of an exception that is due in the same pass. -/
theorem halts_on_double_fault_iff (s : Hosted β σ η) :
    (∀ n, Halts s.machine (execute ControlInstructions.table n s).state.machine
        ((execute ControlInstructions.table (n + 2) s).phase = .returned)) ↔
      ∀ n, ¬ (execute ControlInstructions.table n s).VectorsAgain := by
  have hmore : ∀ n k, execute ControlInstructions.table (n + k) s =
      (execute ControlInstructions.table n s).run ControlInstructions.table k :=
    fun n k => run_add ControlInstructions.table n k (start s)
  constructor
  · intro h n hvectors
    obtain ⟨k, m₁, m₂, hgrows, hdouble, hgoes⟩ := vectorsAgain_goesOn hvectors
    rw [← hmore] at hgoes
    exact Machine.not_halts ((execute_continues s n).grows.trans hgrows) hdouble hgoes (h (n + k))
  · intro h n
    refine (execute_halts h n).mono fun hending => ?_
    rw [hmore]
    exact ending_returns hending

/-- The mask has just been lowered below the level of a line that is stuck, and the frame of a trap
goes to a place where there is no memory. So does part of the frame of the fault. -/
def doubled : Hosted Ram Unit Host.Stuck :=
  let ram := (((((Ram.ofSize 256).unmappedFrom 256).pokeLong 0x08 0xC0).pokeLong 0x78 0xB0).pokeLong
    0x80 0xD0).loadWords 0xA0 [0x46FC, 0x2000, 0x4E40]
  let m := Machine.ofSettings { Settings.default with exceptionHistory := 8 } ram ()
  ⟨(m.setRegister .sp 0x110).setRegister .pc 0xA0, { level := some 6 }⟩

theorem double_fault_vectors_again :
    Host.isNested doubled.host = false ∧
      Machine.Logged (fun e => e.isDoubleFault)
        (execute ControlInstructions.table 2 doubled).state.machine
        (execute ControlInstructions.table 3 doubled).state.machine ∧
      Machine.Logged (fun e => e.isException)
        (execute ControlInstructions.table 3 doubled).state.machine
        (execute ControlInstructions.table 4 doubled).state.machine ∧
      ¬ Halts doubled.machine (execute ControlInstructions.table 4 doubled).state.machine
        ((execute ControlInstructions.table 6 doubled).phase = .returned) := by
  have hdouble : Machine.Logged (fun e => e.isDoubleFault)
      (execute ControlInstructions.table 2 doubled).state.machine
      (execute ControlInstructions.table 3 doubled).state.machine := by
    rw [Machine.Logged.iff_any (execute_succ_continues doubled 2).grows]
    decide +kernel
  have hvectors : Machine.Logged (fun e => e.isException)
      (execute ControlInstructions.table 3 doubled).state.machine
      (execute ControlInstructions.table 4 doubled).state.machine := by
    rw [Machine.Logged.iff_any (execute_succ_continues doubled 3).grows]
    decide +kernel
  refine ⟨rfl, hdouble, hvectors, Machine.not_halts (execute_continues doubled 2).grows hdouble ?_⟩
  exact hvectors.mono fun e he => by simp [Event.goesOn, he]

end Execution
end Mc68000
