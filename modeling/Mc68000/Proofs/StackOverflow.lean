import Mc68000.Machine.Control
import Mc68000.Memory.Ram
import Mc68000.Proofs.Loop

/-!
# Interrupts after an overflow of the kernel stack

A pass over the pending conditions delivers nothing while the guard remembers an overflow. Idling
after a STOP does not look at the guard: there an interrupt above the mask is delivered all the
same. Once a call has begun with an overflow, this is the only way to an interrupt.
-/

namespace Mc68000.Execution
variable {β σ η : Type} [Host η] [Bus β] {e : Execution β σ η}

def WakesUp (e : Execution β σ η) : Prop :=
  ∃ watch, e.phase = .idle watch ∧ (e.ticked watch).2.WakeDue

def uninterrupted (e : Event) : Prop := ¬ e.isInterrupt = true

theorem uninterrupted_of_ofOpcode {e : Event} (h : e.ofOpcode = true) : uninterrupted e := by
  cases e <;> simp_all [uninterrupted, Event.isInterrupt, Event.ofOpcode, Event.ofInstruction,
    Event.ofFault, Event.ofException]

theorem uninterrupted_of_ofPass {e : Event} (h : e.ofPass = true) : uninterrupted e := by
  cases e <;> simp_all [uninterrupted, Event.isInterrupt, Event.ofPass, Event.ofHost,
    Event.ofFault, Event.ofException]

theorem uninterrupted_of_ofHost {e : Event} (h : e.ofHost = true) : uninterrupted e :=
  uninterrupted_of_ofPass (Event.ofPass_of_ofHost h)

theorem dueInterrupt_uninterrupted {s t : Hosted β σ η}
    (h : s.machine.guard.overflowed = true)
    (hst : Machine.Continues s.machine t.machine) :
    ∀ u : Hosted β σ η, u = t.map Machine.armTrace →
      Machine.Evolves uninterrupted (fun _ _ => True) u.machine u.dueInterrupt.machine := by
  rintro u rfl
  have harmed : Machine.Continues t.machine t.machine.armTrace :=
    Machine.armTrace_evolves Registers.kept_true (fun _ => trivial) fun _ => trivial
  refine Hosted.dueInterrupt_evolves_of_not_due Registers.kept_true
    (Event.of_talk fun _ => uninterrupted_of_ofHost) (fun _ => trivial) fun hdue => ?_
  have hoverflowed := harmed.overflowed (hst.overflowed h)
  exact absurd (hoverflowed.symm.trans hdue.2.1) (by decide)

theorem opcodeStep_uninterrupted (e : Execution β σ η) :
    Machine.Evolves uninterrupted (fun _ _ => True) e.state.machine
      (e.opcodeStep ControlInstructions.table).state.machine :=
  opcodeStep_evolves Registers.kept_true (fun _ => uninterrupted_of_ofHost)
    (fun _ => uninterrupted_of_ofOpcode) (Registry.respects_true _) fun _ _ => trivial

theorem specialStep_uninterrupted (h : e.state.machine.guard.overflowed = true) :
    Machine.Evolves uninterrupted (fun _ _ => True) e.state.machine
      e.specialStep.state.machine :=
  specialStep_evolves Registers.kept_true (fun _ => uninterrupted_of_ofPass) (fun _ => trivial)
    (fun _ => trivial) (Registry.respects_true _)
    (dueInterrupt_uninterrupted h (traced_continues e))

theorem idleStep_uninterrupted (h : e.state.machine.guard.overflowed = true) {watch : Watchdog}
    (hwake : ¬ (e.ticked watch).2.WakeDue) :
    Machine.Evolves uninterrupted (fun _ _ => True) e.state.machine
      (e.idleStep watch).state.machine := by
  refine idleStep_evolves Registers.kept_true (fun _ => uninterrupted_of_ofHost)
    (fun _ => uninterrupted_of_ofPass rfl) (by simp [uninterrupted, Event.isInterrupt])
    (fun _ => trivial) (fun _ _ => trivial) ?_ ?_
  · exact Hosted.idleInterrupt_evolves_of_not_due Registers.kept_true
      (Event.of_talk fun _ => uninterrupted_of_ofHost) (fun _ => trivial) hwake
  · exact dueInterrupt_uninterrupted h (woken_continues watch e)

theorem step_interrupts_iff (h : e.state.machine.guard.overflowed = true) :
    Machine.Logged (fun e => e.isInterrupt) e.state.machine
      (e.step ControlInstructions.table).state.machine ↔ e.WakesUp := by
  have hnone : ∀ {m m' : Machine β σ}, Machine.Evolves uninterrupted (fun _ _ => True) m m' →
      ¬ Machine.Logged (fun e => e.isInterrupt) m m' :=
    fun hm => hm.not_logged fun _ he => he
  simp only [step, WakesUp]
  cases hphase : e.phase with
  | opcode => simpa using hnone (opcodeStep_uninterrupted e)
  | special => simpa using hnone (specialStep_uninterrupted h)
  | idle watch =>
    simp only [Phase.idle.injEq, exists_eq_left']
    refine ⟨fun hlogged => ?_, fun hwake => (idleStep_logged hwake).1⟩
    exact Classical.byContradiction fun hwake => hnone (idleStep_uninterrupted h hwake) hlogged
  | returned => simpa using Machine.Logged.irrefl

theorem run_interrupts_iff (h : e.state.machine.guard.overflowed = true) (n : Nat) :
    Machine.Logged (fun e => e.isInterrupt) e.state.machine
        (e.run ControlInstructions.table n).state.machine ↔
      ∃ k < n, (e.run ControlInstructions.table k).WakesUp := by
  induction n with
  | zero => simpa [run] using Machine.Logged.irrefl
  | succ n ih =>
    have hrun := run_continues e n
    have hstep := (step_continues (e.run ControlInstructions.table n)).grows
    rw [run_succ, Machine.Logged.iff_of_grows hrun.grows hstep, ih,
      step_interrupts_iff (hrun.overflowed h)]
    simp only [Nat.lt_succ_iff_lt_or_eq, or_and_right, exists_or, exists_eq_left]

/-- A call that begins with an overflow ends with one, and delivers an interrupt if and only if at
some point of it an interrupt is due while the processor idles. -/
theorem overflow_holds_off_iff {s : Hosted β σ η} (h : s.machine.guard.overflowed = true)
    (n : Nat) :
    (execute ControlInstructions.table n s).state.machine.guard.overflowed = true ∧
      (Machine.Logged (fun e => e.isInterrupt) s.machine
          (execute ControlInstructions.table n s).state.machine ↔
        ∃ k < n, (execute ControlInstructions.table k s).WakesUp) := by
  have hstarted := (start_talks (P := uninterrupted) (fun _ => uninterrupted_of_ofHost) s).1.evolves
    Registers.kept_true.toKeptByException
  have hoverflowed := hstarted.overflowed h
  have hnone : ¬ Machine.Logged (fun e => e.isInterrupt) s.machine (start s).state.machine :=
    hstarted.not_logged fun _ he => he
  have hrun := run_continues (start s) n
  simp only [execute]
  refine ⟨hrun.overflowed hoverflowed, ?_⟩
  rw [Machine.Logged.iff_of_grows hstarted.grows hrun.grows, or_iff_right hnone,
    run_interrupts_iff hoverflowed]

/-- A machine whose kernel stack has overflowed in the frame of a trap. The handler stops with the
mask at zero, and a line is stuck at level 6. -/
def overflowing : Hosted Ram Unit Host.Stuck :=
  let ram := ((((Ram.ofSize 256).pokeLong 0x78 0xB0).pokeLong 0x80 0xA0).loadWords 0xA0
    [0x4E72, 0x2000]).loadWords 0xB0 [0x4E71]
  let m := Machine.ofSettings { Settings.default with exceptionHistory := 8 } ram ()
  let m := (m.setRegister .sp 0x100).setStackBounds 0 0x100
  ⟨m.takeException ExceptionVector.trapBase, { level := some 6, limit := 1 }⟩

theorem overflowing_overflowed : overflowing.machine.guard.overflowed = true := by decide +kernel

theorem overflowing_interrupts :
    Machine.Logged (fun e => e.isInterrupt) overflowing.machine
      (execute ControlInstructions.table 3 overflowing).state.machine := by
  rw [Machine.Logged.iff_any (execute_continues overflowing 3).grows]
  decide +kernel

theorem overflow_holds_off_overflowing :
    overflowing.machine.guard.overflowed = true ∧
      (execute ControlInstructions.table 3 overflowing).state.machine.guard.overflowed = true ∧
      ∃ k < 3, (execute ControlInstructions.table k overflowing).WakesUp := by
  obtain ⟨hkept, hiff⟩ := overflow_holds_off_iff overflowing_overflowed 3
  exact ⟨overflowing_overflowed, hkept, hiff.mp overflowing_interrupts⟩

theorem overflow_lets_interrupt_through :
    overflowing.machine.guard.overflowed = true ∧ Host.isNested overflowing.host = false ∧
      (execute ControlInstructions.table 3 overflowing).phase = .returned ∧
      Machine.Logged (fun e => e.isInterrupt) overflowing.machine
        (execute ControlInstructions.table 3 overflowing).state.machine :=
  ⟨overflowing_overflowed, rfl, by decide +kernel, overflowing_interrupts⟩

end Mc68000.Execution
