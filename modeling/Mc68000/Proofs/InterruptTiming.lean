import Mc68000.Proofs.Calls
import Mc68000.Proofs.StackOverflow
import Mc68000.Proofs.Stopping

/-!
# When an interrupt is delivered

A pass first delivers what an earlier pass found to be due, and then turns a request to look for an
interrupt into one that is due. So an interrupt comes one opcode after the pass that notices it.
-/

namespace Mc68000

namespace Registers

def LeavesInterrupts (r r' : Registers) : Prop :=
  r'.pending = r.pending ∧ r'.status.mask = r.status.mask

def KeepsInterrupts (r r' : Registers) : Prop :=
  r'.pending.interruptCheck = r.pending.interruptCheck ∧
    r'.pending.interruptDue = r.pending.interruptDue ∧ r'.status.mask = r.status.mask

def KeepsInterruptDue (r r' : Registers) : Prop :=
  r'.pending.interruptDue = r.pending.interruptDue

theorem kept_interrupts : KeptByException KeepsInterrupts where
  refl _ := ⟨rfl, rfl, rfl⟩
  trans hab hbc := ⟨hbc.1.trans hab.1, hbc.2.1.trans hab.2.1, hbc.2.2.trans hab.2.2⟩
  pc _ _ := ⟨rfl, rfl, rfl⟩
  address _ _ _ _ := ⟨rfl, rfl, rfl⟩
  pack _ := ⟨rfl, rfl, rfl⟩
  supervisor r := by
    refine ⟨by rw [pending_enterSupervisor], by rw [pending_enterSupervisor], ?_⟩
    unfold enterSupervisor swapStacks
    split <;> rfl
  dropTrace _ := ⟨rfl, rfl, rfl⟩
  breakRequest _ := ⟨rfl, rfl, rfl⟩

theorem kept_interruptDue : KeptByOpcode KeepsInterruptDue where
  refl _ := rfl
  trans hab hbc := hbc.trans hab
  pc _ _ := rfl
  address _ _ _ _ := rfl
  pack _ := rfl
  supervisor r := by rw [KeepsInterruptDue, pending_enterSupervisor]
  dropTrace _ := rfl
  breakRequest _ := rfl
  interruptCheck _ := rfl
  endOfCycle _ _ := rfl
  load := interruptDue_loadStatus

end Registers

namespace Registry.Respects
variable {β σ : Type} {r : Registry β σ} (h : r.Respects Registers.LeavesInterrupts)
include h

theorem keepsInterrupts : r.Respects Registers.KeepsInterrupts :=
  h.mono fun _ _ hleaves => ⟨congrArg Pending.interruptCheck hleaves.1,
    congrArg Pending.interruptDue hleaves.1, hleaves.2⟩

theorem keepsInterruptDue : r.Respects Registers.KeepsInterruptDue :=
  h.mono fun _ _ hleaves => congrArg Pending.interruptDue hleaves.1

theorem keepsStop : r.Respects Registers.KeepsStop :=
  h.mono fun _ _ hleaves => congrArg Pending.stop hleaves.1

end Registry.Respects

def Event.level? : Event → Option UInt8
  | .interrupt _ level _ => some level
  | _ => none

theorem Event.level?_of_uninterrupted {e : Event} (h : Execution.uninterrupted e) :
    e.level? = none := by
  cases e <;> simp_all [Execution.uninterrupted, isInterrupt, level?]

theorem Event.level?_of_ofHost {e : Event} (h : e.ofHost = true) : e.level? = none :=
  level?_of_uninterrupted (Execution.uninterrupted_of_ofHost h)

theorem Event.level?_of_ofPass {e : Event} (h : e.ofPass = true) : e.level? = none :=
  level?_of_uninterrupted (Execution.uninterrupted_of_ofPass h)

theorem Event.level?_of_ofFault {e : Event} (h : e.ofFault = true) : e.level? = none :=
  level?_of_ofPass (ofPass_of_ofFault h)

namespace Hosted
variable {β σ η : Type} [Host η] [Bus β] {s : Hosted β σ η}
open Machine (Evolves Shows)

theorem acceptInterrupt_shows_level (wake : Registers → Registers) (base : UInt8) {level : UInt8}
    (hlevel : Machine.isInterruptLevel level = true) (m : Machine β σ) :
    Shows Event.level? m (acceptInterrupt wake base level m) [level] := by
  have hK := Registers.kept_true.toKeptByException
  have hfault : ∀ n : Machine β σ, Evolves (fun e => e.level? = none) (fun _ _ => True) n
      n.deliverFault := fun n =>
    Machine.deliverFault_evolves hK (fun _ => Event.level?_of_ofFault) (Registry.respects_true _)
  have htaken : ∀ n : Machine β σ, Evolves (fun e => e.level? = none) (fun _ _ => True) n
      (n.takeException (base + level)) := fun n =>
    Machine.takeException_evolves hK (fun _ he => Event.level?_of_ofFault
      (Event.ofFault_of_ofException he)) (Registry.respects_true _) (base + level)
  have hlogged : Shows Event.level? m (m.log (.interrupt base level m.regs.status.mask))
      [level] := ⟨[_], rfl, rfl⟩
  rw [acceptInterrupt_eq wake base hlevel]
  exact hlogged.trans (.of_evolves (((htaken _).trans hK (interruptTaken_evolves trivial)).trans hK
    (hfault _)))

theorem answerInterrupt_shows_level {level : UInt8} (hl : Host.pending s.host = some level)
    (hm : s.machine.regs.status.mask < level) (use : Pending → Pending)
    (wake : Registers → Registers) :
    Shows Event.level? s.machine (s.answerInterrupt use wake).machine [level] := by
  rw [answerInterrupt_of_above hl hm]
  have hasked : Shows Event.level? s.machine (s.askBase use).2.machine [] := ⟨[_, _], rfl, rfl⟩
  exact hasked.trans (acceptInterrupt_shows_level wake _ (isInterruptLevel_of_pending hl) _)

theorem acceptInterrupt_requests {m : Machine β σ}
    (hH : m.hooks.Respects Registers.KeepsInterrupts) (base : UInt8) {level : UInt8}
    (hlevel : Machine.isInterruptLevel level = true) :
    (acceptInterrupt id base level m).regs.pending.interruptCheck = true ∧
      (acceptInterrupt id base level m).regs.pending.interruptDue =
        m.regs.pending.interruptDue := by
  have hK := Registers.kept_interrupts
  have htaken := Machine.takeException_evolves (P := fun _ => True)
    (m := m.log (.interrupt base level m.regs.status.mask)) hK (fun _ _ => trivial) hH
    (base + level)
  rw [acceptInterrupt_eq id base hlevel]
  generalize (m.log (.interrupt base level m.regs.status.mask)).takeException (base + level) = taken
    at htaken ⊢
  have hfault : Evolves (fun _ => True) Registers.KeepsInterrupts (interruptTaken id level taken)
      (interruptTaken id level taken).deliverFault :=
    Machine.deliverFault_evolves hK (fun _ _ => trivial) (htaken.respects hH)
  exact ⟨hfault.regs.1, hfault.regs.2.1.trans htaken.regs.2.1⟩

theorem dueInterrupt_requests (hH : s.machine.hooks.Respects Registers.KeepsInterrupts)
    (hroom : s.machine.guard.overflowed = false) :
    s.dueInterrupt.machine.regs.pending.interruptDue = false ∧
      (s.dueInterrupt.machine.regs.pending.interruptCheck = true ↔
        s.machine.regs.pending.interruptCheck = true ∨ s.InterruptDue) := by
  rw [dueInterrupt_eq, hroom]
  cases hdue : s.machine.regs.pending.interruptDue with
  | false =>
    have hnone : ¬ s.InterruptDue := fun h => by
      rw [h.1] at hdue
      cases hdue
    exact ⟨hdue, (or_iff_left hnone).symm⟩
  | true =>
    rw [Bool.not_false, Bool.and_true, if_pos rfl]
    by_cases habove : s.AboveMask
    · have hinterrupt : s.InterruptDue := ⟨hdue, hroom, habove⟩
      obtain ⟨level, hl, hm⟩ := habove
      have hasked : (s.askBase dueUsed).2.machine.hooks.Respects Registers.KeepsInterrupts := hH
      obtain ⟨hcheck, hdue'⟩ := acceptInterrupt_requests hasked (s.askBase dueUsed).1
        (isInterruptLevel_of_pending hl)
      rw [answerInterrupt_of_above hl hm]
      exact ⟨hdue', iff_of_true hcheck (.inr hinterrupt)⟩
    · have hnone : ¬ s.InterruptDue := fun h => habove h.2.2
      rw [answerInterrupt_of_not_above habove]
      exact ⟨rfl, (or_iff_left hnone).symm⟩

theorem finishPass_shows_level {levels : List UInt8}
    (h : Shows Event.level? (s.map Machine.armTrace).machine
      (s.map Machine.armTrace).dueInterrupt.machine levels) :
    Shows Event.level? s.machine s.finishPass.2.machine levels := by
  have hK := Registers.kept_true
  have harmed : Evolves (fun e => e.level? = none) (fun _ _ => True) s.machine
      (s.map Machine.armTrace).machine :=
    Machine.armTrace_evolves hK.toKeptByException (fun _ => rfl) fun _ => trivial
  have hpromoted : Evolves (fun e => e.level? = none) (fun _ _ => True)
      (s.map Machine.armTrace).dueInterrupt.machine s.interrupted.machine :=
    Machine.promoteInterrupt_evolves hK (fun _ => trivial) _
  have hlate := hpromoted.trans hK.toKeptByException (lateEndOfCycle_evolves hK.toKeptByHousekeeping
    (Event.of_talk fun _ => Event.level?_of_ofHost) s.interrupted)
  have hrest : Evolves (fun e => e.level? = none) (fun _ _ => True)
      (s.map Machine.armTrace).dueInterrupt.machine s.finishPass.2.machine := by
    rw [finishPass_eq]
    split
    · exact hlate
    · exact hlate.trans hK.toKeptByException (checkForBreak_evolves hK.toKeptByException
        (Event.of_talk fun _ => Event.level?_of_ofHost) (fun _ => trivial) _)
  simpa using ((Shows.of_evolves harmed).trans h).trans (.of_evolves hrest)

theorem finishPass_shows_level_of_due (h : s.InterruptDue) {level : UInt8}
    (hl : Host.pending s.host = some level) :
    Shows Event.level? s.machine s.finishPass.2.machine [level] := by
  obtain ⟨hdue, hroom, level', hl', hm⟩ := interruptDue_armTrace.mpr h
  obtain rfl : level' = level := Option.some.inj (hl'.symm.trans hl)
  refine finishPass_shows_level ?_
  rw [dueInterrupt_eq, if_pos (by simp [hdue, hroom])]
  exact answerInterrupt_shows_level hl' hm _ _

theorem finishPass_shows_level_of_not_due (h : ¬ s.InterruptDue) :
    Shows Event.level? s.machine s.finishPass.2.machine [] :=
  finishPass_shows_level (.of_evolves (dueInterrupt_evolves_of_not_due
    Registers.kept_true.toKeptByException (Event.of_talk fun _ => Event.level?_of_ofHost)
    (fun _ => trivial) (mt interruptDue_armTrace.mp h)))

theorem finishPass_interruptDue (hH : s.machine.hooks.Respects Registers.KeepsInterrupts)
    (hroom : s.machine.guard.overflowed = false) :
    s.finishPass.2.machine.regs.pending.interruptDue = true ↔
      s.machine.regs.pending.interruptCheck = true ∨ s.InterruptDue := by
  have hK := Registers.kept_interruptDue
  let armed := s.map Machine.armTrace
  have harmed : Evolves (fun _ => True) Registers.KeepsInterrupts s.machine armed.machine :=
    Machine.armTrace_evolves Registers.kept_interrupts (fun _ => trivial) fun _ => ⟨rfl, rfl, rfl⟩
  have hguard : armed.machine.guard = s.machine.guard := by
    simp only [armed, map, Machine.armTrace]
    split <;> rfl
  obtain ⟨hused, hcheck⟩ := dueInterrupt_requests (harmed.respects hH) (hguard ▸ hroom)
  have hpromoted : s.interrupted.machine.regs.pending.interruptDue = true ↔
      s.machine.regs.pending.interruptCheck = true ∨ s.InterruptDue := by
    rw [← harmed.regs.1, ← interruptDue_armTrace, ← hcheck]
    show (Machine.promoteInterrupt armed.dueInterrupt.machine).regs.pending.interruptDue = true ↔ _
    simp only [Machine.promoteInterrupt]
    split
    · exact iff_of_true rfl ‹_›
    · rw [hused]
      exact iff_of_false Bool.false_ne_true ‹_›
  have hlate := lateEndOfCycle_evolves (P := fun _ => True) hK.toKeptByHousekeeping
    (fun _ _ => trivial) s.interrupted
  have hchecked := checkForBreak_evolves (P := fun _ => True) hK.toKeptByException
    (fun _ _ => trivial) (fun _ => rfl) s.interrupted.lateEndOfCycle.2
  rw [← hpromoted, finishPass_eq]
  split
  · rw [hlate.regs]
  · rw [hchecked.regs, hlate.regs]

end Hosted

namespace Execution
variable {β σ η : Type} [Host η] [Bus β] {e : Execution β σ η}
open Machine (Shows)

/-- A pass that is not nested, that the host does not end early, and that finds the processor
running with room on the kernel stack. -/
structure Regular (e : Execution β σ η) : Prop where
  nested : Host.isNested e.state.host = false
  stays : e.probed.1 = false
  runs : e.state.machine.regs.pending.stop = false
  room : e.traced.machine.guard.overflowed = false

def Delivers (e : Execution β σ η) (level : UInt8) : Prop :=
  Shows Event.level? e.state.machine (e.step ControlInstructions.table).state.machine [level]

/-- The host, asked at the point where a pass looks for an interrupt, has one of this level pending,
and the mask lets it through. -/
structure Admits (e : Execution β σ η) (level : UInt8) : Prop where
  pending : (Host.interruptLevel e.traced.host).1 = some level
  inRange : 1 ≤ level ∧ level ≤ 7
  above : e.traced.machine.regs.status.mask < level

theorem admits_iff (e : Execution β σ η) (level : UInt8) :
    e.Admits level ↔ Host.pending e.traced.host = some level ∧
      e.traced.machine.regs.status.mask < level := by
  simp only [Host.pending, Option.filter_eq_some_iff, Machine.isInterruptLevel, Bool.and_eq_true,
    decide_eq_true_eq]
  exact ⟨fun h => ⟨⟨h.pending, h.inRange⟩, h.above⟩, fun h => ⟨h.1.1, h.1.2, h.2⟩⟩

theorem exists_admits_iff (e : Execution β σ η) : (∃ level, e.Admits level) ↔ e.traced.AboveMask :=
  exists_congr e.admits_iff

theorem traced_interrupts (hooks : e.state.machine.hooks.Respects Registers.LeavesInterrupts) :
    Machine.Evolves (fun e => e.level? = none) Registers.KeepsInterrupts e.state.machine
      e.traced.machine :=
  traced_evolves Registers.kept_interrupts (fun _ => Event.level?_of_ofPass) hooks.keepsInterrupts

namespace Regular
variable (h : e.Regular) (hooks : e.state.machine.hooks.Respects Registers.LeavesInterrupts)
include h hooks

theorem specialStep : e.specialStep = endPass e.watch e.traced.finishPass := by
  rw [specialStep_of_stay h.nested h.stays, traced_stop hooks.keepsStop, h.runs,
    if_neg Bool.false_ne_true]

theorem interruptDue_iff : e.traced.InterruptDue ↔
    e.state.machine.regs.pending.interruptDue = true ∧ ∃ level, e.Admits level := by
  rw [exists_admits_iff, ← (traced_interrupts hooks).regs.2.1]
  exact ⟨fun hdue => ⟨hdue.1, hdue.2.2⟩, fun hdue => ⟨hdue.1, h.room, hdue.2⟩⟩

theorem delivers_iff (hphase : e.phase = .special) (level : UInt8) :
    e.Delivers level ↔
      e.state.machine.regs.pending.interruptDue = true ∧ e.Admits level := by
  have htraced := Shows.of_evolves (traced_interrupts hooks)
  rw [Delivers, step_special _ hphase, h.specialStep hooks]
  by_cases hdue : e.traced.InterruptDue
  · obtain ⟨hbefore, level', hadmits⟩ := (h.interruptDue_iff hooks).mp hdue
    have hshows := htraced.trans
      (Hosted.finishPass_shows_level_of_due hdue ((e.admits_iff level').mp hadmits).1)
    constructor
    · intro hlevel
      obtain rfl : level' = level := by simpa using hshows.unique hlevel
      exact ⟨hbefore, hadmits⟩
    · rintro ⟨-, hlevel⟩
      obtain rfl : level' = level := Option.some.inj (hadmits.pending.symm.trans hlevel.pending)
      exact hshows
  · have hshows := htraced.trans (Hosted.finishPass_shows_level_of_not_due hdue)
    refine iff_of_false (fun hlevel => ?_) fun hlevel => ?_
    · simpa using hshows.unique hlevel
    · exact hdue ((h.interruptDue_iff hooks).mpr ⟨hlevel.1, level, hlevel.2⟩)

theorem due_after_iff (hphase : e.phase = .special) :
    (e.step ControlInstructions.table).state.machine.regs.pending.interruptDue = true ↔
      e.state.machine.regs.pending.interruptCheck = true ∨ ∃ level, e.Delivers level := by
  have htraced := traced_interrupts hooks
  have hfinish := Hosted.finishPass_interruptDue (s := e.traced)
    (htraced.respects hooks.keepsInterrupts) h.room
  simp only [h.delivers_iff hooks hphase, exists_and_left]
  rw [← h.interruptDue_iff hooks, ← htraced.regs.1, ← hfinish, step_special _ hphase,
    h.specialStep hooks]
  rfl

theorem endsPass (hphase : e.phase = .special) : e.EndsPass := by
  refine ⟨by simp [hphase], by simp [hphase], ?_⟩
  rw [step_special _ hphase, h.specialStep hooks]
  exact endPass_phase _ _

theorem runs_after (hphase : e.phase = .special) :
    (e.step ControlInstructions.table).state.machine.regs.pending.stop = false := by
  have hfinish := Hosted.finishPass_stop (s := e.traced)
    ((traced_interrupts hooks).respects hooks.keepsStop)
  rw [step_special _ hphase, h.specialStep hooks]
  exact hfinish.trans ((traced_stop hooks.keepsStop).trans h.runs)

end Regular

theorem opcodeStep_interruptDue
    (hooks : e.state.machine.hooks.Respects Registers.LeavesInterrupts) :
    (e.opcodeStep ControlInstructions.table).state.machine.regs.pending.interruptDue =
      e.state.machine.regs.pending.interruptDue :=
  (opcodeStep_evolves (P := fun _ => True) Registers.kept_interruptDue (fun _ _ => trivial)
    (fun _ _ => trivial) hooks.keepsInterruptDue fun _ _ => rfl).regs

namespace IsRun
variable {e : Nat → Execution β σ η} (run : IsRun e)
include run

theorem opcode_after {k : Nat} (hends : (e k).EndsPass)
    (hstop : (e (k + 1)).state.machine.regs.pending.stop = false) : ∃ m, FollowsPass e k m := by
  have hstep := run.step hends.2.1
  rcases hends.2.2 with hphase | hphase <;> rw [← hstep] at hphase
  · exact ⟨k + 1, hends, hphase, .inl rfl⟩
  · obtain ⟨s, hwaits, hs⟩ := run.call hphase
    have hstart := start_talks (P := fun _ => True) (fun _ _ => trivial) s
    have hrests := hwaits.rests.trans hstart.rests
    have hopcode : (e (k + 2)).phase = .opcode := by
      rw [hs, start_phase, hrests.stop, hstop]
      rfl
    exact ⟨k + 2, hends, hopcode, .inr ⟨rfl, hphase⟩⟩

theorem follows_interruptDue {k m : Nat} (h : FollowsPass e k m) :
    (e m).state.machine.regs.pending.interruptDue =
      (e (k + 1)).state.machine.regs.pending.interruptDue :=
  (run.follows_evolves (P := fun _ => True) Registers.kept_interruptDue.toKeptByException
    (fun _ _ => trivial) h).regs

theorem follows_shows {k m : Nat} (h : FollowsPass e k m) :
    ∃ r, Shows Event.fetch? (e (k + 1)).state.machine (e (m + 1)).state.machine [r] := by
  have hwaits := Shows.of_evolves (run.follows_evolves (P := fun e => e.fetch? = none)
    Registers.kept_true.toKeptByException (fun _ => Event.fetch?_of_ofHost) h)
  have hopcode := step_shows (e m)
  rw [if_pos h.opcode, ← run.step (by simp [h.opcode])] at hopcode
  exact ⟨_, hwaits.trans hopcode⟩

variable (hooks : (e 0).state.machine.hooks.Respects Registers.LeavesInterrupts) {n : Nat}
  (hpasses : ∀ k ≤ n, (e k).phase = .special → (e k).Regular)
include hooks hpasses

theorem not_idle {k : Nat} (hk : k ≤ n + 1) (watch : Watchdog) : (e k).phase ≠ .idle watch := by
  induction k generalizing watch with
  | zero =>
    obtain ⟨s, hs⟩ := run.starts
    rw [hs, start_phase]
    split <;> exact Phase.noConfusion
  | succ k ih =>
    have hooks' := run.hooks k ▸ hooks
    cases hphase : (e k).phase with
    | opcode =>
      rw [run.opcode hphase, opcodeStep_phase]
      split <;> exact Phase.noConfusion
    | special =>
      have hends := (hpasses k (by omega) hphase).endsPass hooks' hphase
      intro hidle
      rcases hends.2.2 with hphase' | hphase' <;>
        rw [← run.step hends.2.1, hidle] at hphase' <;> cases hphase'
    | idle watch' => exact absurd hphase (ih (by omega) watch')
    | returned =>
      obtain ⟨s, -, hs⟩ := run.call hphase
      rw [hs, start_phase]
      split <;> exact Phase.noConfusion

theorem special_of_follows {k m : Nat} (h : FollowsPass e k m) (hk : k ≤ n) :
    (e k).phase = .special := by
  cases hphase : (e k).phase with
  | opcode => exact absurd hphase h.ends.1
  | special => rfl
  | idle watch => exact absurd hphase (run.not_idle hooks hpasses (by omega) watch)
  | returned => exact absurd hphase h.ends.2.1

end IsRun

/-- When the pass of step `n` delivers an interrupt, and what becomes of a request to look for
one. -/
structure InterruptTiming (e : Nat → Execution β σ η) (n : Nat) : Prop where
  delivers : ∀ level, (e n).Delivers level ↔
    (e n).state.machine.regs.pending.interruptDue = true ∧ (e n).Admits level
  /-- It was due from the start, or an earlier pass found it to be due: the pass before the last
  opcode was asked to look for one, or delivered one itself. -/
  due : (e n).state.machine.regs.pending.interruptDue = true ↔
    (n = 1 ∧ (e 0).state.machine.regs.pending.interruptDue = true) ∨
      ∃ k m, n = m + 1 ∧ FollowsPass e k m ∧ (e k).phase = .special ∧
        ((e k).state.machine.regs.pending.interruptCheck = true ∨ ∃ level, (e k).Delivers level)
  notAtOnce : (e n).state.machine.regs.pending.interruptDue = false →
    ∀ level, ¬ (e n).Delivers level
  announced : (e n).state.machine.regs.pending.interruptCheck = true →
    ∃ m, FollowsPass e n m ∧ (e (m + 1)).phase = .special ∧
      (∃ r, Shows Event.fetch? (e (n + 1)).state.machine (e (m + 1)).state.machine [r]) ∧
      ((e (m + 1)).Regular → ∀ level, (e (m + 1)).Delivers level ↔ (e (m + 1)).Admits level)

/-- In calls that are not nested, that the host does not end early and that find the processor
running, with room on the kernel stack and hooks that leave interrupts alone, an interrupt comes one
opcode after the pass that was asked to look for it. -/
theorem interrupt_one_opcode_late {e : Nat → Execution β σ η} (run : IsRun e)
    (hooks : (e 0).state.machine.hooks.Respects Registers.LeavesInterrupts) {n : Nat}
    (hphase : (e n).phase = .special)
    (hpasses : ∀ k ≤ n, (e k).phase = .special → (e k).Regular) : InterruptTiming e n := by
  have hooks' : ∀ k, (e k).state.machine.hooks.Respects Registers.LeavesInterrupts := fun k =>
    run.hooks k ▸ hooks
  have hreg := hpasses n (Nat.le_refl n) hphase
  have hdelivers := hreg.delivers_iff (hooks' n) hphase
  have hafter : ∀ k ≤ n, (e k).phase = .special →
      ((e (k + 1)).state.machine.regs.pending.interruptDue = true ↔
        (e k).state.machine.regs.pending.interruptCheck = true ∨ ∃ level, (e k).Delivers level) :=
    fun k hk hspecial => by
      rw [run.step (by simp [hspecial])]
      exact (hpasses k hk hspecial).due_after_iff (hooks' k) hspecial
  have hopcodes : ∀ m, (e m).phase = .opcode →
      (e (m + 1)).state.machine.regs.pending.interruptDue =
        (e m).state.machine.regs.pending.interruptDue := fun m hopcode => by
    rw [run.opcode hopcode]
    exact opcodeStep_interruptDue (hooks' m)
  refine ⟨hdelivers, ?_, ?_, ?_⟩
  -- An opcode does not change whether one is due, so it is as the pass before the opcode left it.
  · obtain ⟨m, rfl, hopcode⟩ := run.opcode_before hphase hreg.runs
    rw [hopcodes m hopcode]
    constructor
    · intro hdue
      obtain rfl | hempty | ⟨k, hfollows⟩ := run.before_opcode hopcode
      · exact .inl ⟨rfl, hdue⟩
      · simp [Pending.isEmpty, hdue] at hempty
      · have hk : k ≤ m + 1 := by
          have := hfollows.next
          omega
        have hspecial := run.special_of_follows hooks hpasses hfollows hk
        rw [run.follows_interruptDue hfollows, hafter k hk hspecial] at hdue
        exact .inr ⟨k, m, rfl, hfollows, hspecial, hdue⟩
    · rintro (⟨hm, hdue⟩ | ⟨k, m', hm, hfollows, hspecial, hasked⟩)
      · obtain rfl : m = 0 := by omega
        exact hdue
      · obtain rfl : m = m' := by omega
        have hk : k ≤ m + 1 := by
          have := hfollows.next
          omega
        rw [run.follows_interruptDue hfollows]
        exact (hafter k hk hspecial).mpr hasked
  · intro hnot level hlevel
    rw [hdelivers, hnot] at hlevel
    cases hlevel.1
  · intro hcheck
    have hstep := run.step (n := n) (by simp [hphase])
    have hdue := (hafter n (Nat.le_refl n) hphase).mpr (.inl hcheck)
    obtain ⟨m, hfollows⟩ := run.opcode_after (hreg.endsPass (hooks' n) hphase)
      (hstep ▸ hreg.runs_after (hooks' n) hphase)
    have hdue' : (e (m + 1)).state.machine.regs.pending.interruptDue = true := by
      rw [hopcodes m hfollows.opcode, run.follows_interruptDue hfollows, hdue]
    have hspecial : (e (m + 1)).phase = .special := by
      rw [run.opcode hfollows.opcode] at hdue' ⊢
      exact opcodeStep_special (by simp [Pending.isEmpty, hdue'])
    refine ⟨m, hfollows, hspecial, run.follows_shows hfollows, fun hnext level => ?_⟩
    rw [hnext.delivers_iff (hooks' _) hspecial, hdue']
    exact and_iff_right rfl

def announcing : Hosted Ram Unit Host.Stuck :=
  let ram := (((Ram.ofSize 256).pokeLong 0x78 0xB0).loadWords 0xA0 [0x4E71, 0x4E71]).loadWords 0xB0
    [0x4E71]
  let m := Machine.ofSettings Settings.default ram ()
  ⟨((m.setRegister .sp 0x100).setRegister .pc 0xA0).setRegister .sr 0x2000, { level := some 6 }⟩

theorem interrupt_one_opcode_late_announcing :
    (calls announcing 0).state.machine.hooks.Respects Registers.LeavesInterrupts ∧
      (calls announcing 1).phase = .special ∧
      (∀ k ≤ 1, (calls announcing k).phase = .special → (calls announcing k).Regular) ∧
      (∀ level, ¬ (calls announcing 1).Delivers level) ∧ (calls announcing 3).Delivers 6 := by
  have hooks : (calls announcing 0).state.machine.hooks.Respects Registers.LeavesInterrupts :=
    fun _ _ he => absurd he List.not_mem_nil
  have hphase : (calls announcing 1).phase = .special := by decide +kernel
  have hroom : ∀ k ≤ 3, (calls announcing k).state.machine.regs.pending.stop = false ∧
      (calls announcing k).traced.machine.guard.overflowed = false := by decide +kernel
  have hregular : ∀ k ≤ 3, (calls announcing k).phase = .special →
      (calls announcing k).Regular := fun k hk hspecial =>
    ⟨rfl, (unhindered_stuck _ hspecial).2, (hroom k hk).1, (hroom k hk).2⟩
  have hpasses : ∀ k ≤ 1, (calls announcing k).phase = .special →
      (calls announcing k).Regular := fun k hk => hregular k (by omega)
  have htiming := interrupt_one_opcode_late (calls_isRun announcing) hooks hphase hpasses
  obtain ⟨m, hfollows, hspecial, -, hnext⟩ := htiming.announced (by decide +kernel)
  obtain rfl : m = 2 := by
    rcases hfollows.next with hm | ⟨-, hreturned⟩
    · exact hm
    · exact absurd hreturned (by decide +kernel)
  refine ⟨hooks, hphase, hpasses, htiming.notAtOnce (by decide +kernel), ?_⟩
  refine (hnext (hregular 3 (Nat.le_refl 3) hspecial) 6).mpr ?_
  exact ⟨by decide +kernel, by decide, by decide +kernel⟩

end Execution
end Mc68000
