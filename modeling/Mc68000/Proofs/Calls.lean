import Mc68000.Proofs.FaultedStop

/-!
# Calls of the loop, one after the other

The loop returns and is called again. In between a break may be asked for; memory, the host and the
state that hooks share are not the machine's own and may be anything. A run goes through the steps
of as many calls as it takes.
-/

namespace Mc68000
variable {β σ η : Type}

namespace Machine

/-- The machine was left alone, but for a break that was asked for. -/
inductive Waits (m : Machine β σ) : Machine β σ → Prop
  | rest (bus : β) (observers : σ) : Waits m { m with bus := bus, observers := observers }
  | breakRequest (bus : β) (observers : σ) :
    Waits m ({ m with bus := bus, observers := observers } : Machine β σ).requestBreak

theorem Waits.evolves {P : Event → Prop} {R : Registers → Registers → Prop}
    (hK : Registers.KeptByException R) {m m' : Machine β σ} (h : Waits m m') :
    Evolves P R m m' := by
  cases h with
  | rest bus observers => exact .of_parts (hK.refl _) rfl rfl rfl rfl rfl
  | breakRequest bus observers => exact .of_parts (hK.breakRequest _) rfl rfl rfl rfl rfl

theorem Waits.rests {m m' : Machine β σ} (h : Waits m m') : m.regs.Rests m'.regs := by
  cases h with
  | rest bus observers => exact .refl _
  | breakRequest bus observers => exact ⟨_, _, _, _, rfl⟩

end Machine

namespace Execution
variable [Host η] {P : Event → Prop} {R : Registers → Registers → Prop} {e : Execution β σ η}

theorem start_evolves (hK : Registers.KeptByException R) (hP : ∀ e : Event, e.ofHost → P e)
    (s : Hosted β σ η) : Machine.Evolves P R s.machine (start s).state.machine :=
  (start_talks hP s).1.evolves hK

theorem start_phase (s : Hosted β σ η) :
    (start s).phase = if (start s).state.machine.regs.pending.stop then .special else .opcode :=
  rfl

variable [Bus β]

inductive Next (e : Execution β σ η) : Execution β σ η → Prop
  | step (h : e.phase ≠ .returned) : Next e (e.step ControlInstructions.table)
  | call (h : e.phase = .returned) {s : Hosted β σ η} (hs : e.state.machine.Waits s.machine) :
    Next e (start s)

structure IsRun (e : Nat → Execution β σ η) : Prop where
  starts : ∃ s, e 0 = start s
  next : ∀ n, Next (e n) (e (n + 1))

/-- With the next step a pass ends. -/
def EndsPass (e : Execution β σ η) : Prop :=
  e.phase ≠ .opcode ∧ e.phase ≠ .returned ∧
    ((e.step ControlInstructions.table).phase = .opcode ∨
      (e.step ControlInstructions.table).phase = .returned)

/-- If a pass begins with the next step, nothing cuts it short: the call is not nested, and the host
does not end it at the early call at the end of a cycle. -/
def Unhindered (e : Execution β σ η) : Prop :=
  e.phase = .special → Host.isNested e.state.host = false ∧ e.probed.1 = false

/-- Step `m` executes the opcode that comes first after the pass that ends with step `k`, in the
same call or in the next one. -/
structure FollowsPass (e : Nat → Execution β σ η) (k m : Nat) : Prop where
  ends : (e k).EndsPass
  opcode : (e m).phase = .opcode
  next : m = k + 1 ∨ m = k + 2 ∧ (e (k + 1)).phase = .returned

omit [Bus β] [Host η] in
theorem endPass_phase (watch : Watchdog) (outcome : Bool × Hosted β σ η) :
    (endPass watch outcome).phase = .opcode ∨ (endPass watch outcome).phase = .returned := by
  simp only [endPass]
  split
  · exact .inr rfl
  · exact .inl rfl

theorem specialStep_phases (e : Execution β σ η) :
    e.specialStep.phase = .opcode ∨ e.specialStep.phase = .returned ∨
      ∃ watch, e.specialStep.phase = .idle watch := by
  rw [specialStep_eq]
  split
  · exact (endPass_phase _ _).imp_right .inl
  split
  · exact .inr (.inl rfl)
  split
  · exact .inr (.inr ⟨_, rfl⟩)
  · exact (endPass_phase _ _).imp_right .inl

theorem idleStep_phases (watch : Watchdog) (e : Execution β σ η) :
    (e.idleStep watch).phase = .opcode ∨ (e.idleStep watch).phase = .returned ∨
      ∃ watch', (e.idleStep watch).phase = .idle watch' := by
  rw [idleStep_eq]
  dsimp only
  split
  · exact .inr (.inl rfl)
  split
  · exact .inr (.inr ⟨_, rfl⟩)
  · exact (endPass_phase _ _).imp_right .inl

theorem opcode_of_step_special (h : (e.step ControlInstructions.table).phase = .special) :
    e.phase = .opcode := by
  simp only [step] at h
  cases hphase : e.phase with
  | opcode => rfl
  | special =>
    rw [hphase] at h
    obtain hp | hp | ⟨_, hp⟩ := specialStep_phases e <;> rw [hp] at h <;> cases h
  | idle watch =>
    rw [hphase] at h
    obtain hp | hp | ⟨_, hp⟩ := idleStep_phases watch e <;> rw [hp] at h <;> cases h
  | returned =>
    rw [hphase] at h
    dsimp only at h
    rw [hphase] at h
    cases h

theorem opcodeStep_phase_ne_returned (table : OpcodeTable β σ) (e : Execution β σ η) :
    (e.opcodeStep table).phase ≠ .returned := by
  rw [opcodeStep_phase]
  split <;> exact Phase.noConfusion

theorem Next.eq_step {e' : Execution β σ η} (h : Next e e') (hphase : e.phase ≠ .returned) :
    e' = e.step ControlInstructions.table := by
  cases h with
  | step _ => rfl
  | call hreturned _ => exact absurd hreturned hphase

theorem Next.eq_start {e' : Execution β σ η} (h : Next e e') (hphase : e.phase = .returned) :
    ∃ s, e.state.machine.Waits s.machine ∧ e' = start s := by
  cases h with
  | step hno => exact absurd hphase hno
  | call _ hs => exact ⟨_, hs, rfl⟩

theorem Next.evolves {e' : Execution β σ η} (h : Next e e') (hK : Registers.KeptByStep R)
    (hP : ∀ e, P e) (hH : e.state.machine.hooks.Respects R) :
    Machine.Evolves P R e.state.machine e'.state.machine := by
  cases h with
  | step _ => exact step_evolves hK hP hH
  | call _ hs =>
    exact (hs.evolves hK.toKeptByException).trans hK.toKeptByException
      (start_evolves hK.toKeptByException (fun e _ => hP e) _)

theorem Next.awake {e' : Execution β σ η} (h : Next e e')
    (hooks : e.state.machine.hooks.Respects Registers.KeepsStop)
    (hnested : e.phase = .special → Host.isNested e.state.host = false) : e'.Awake := by
  cases h with
  | step _ => exact step_awake hooks hnested
  | call _ _ => exact start_awake _

namespace IsRun
variable {e : Nat → Execution β σ η} (run : IsRun e)
include run

theorem step {n : Nat} (h : (e n).phase ≠ .returned) :
    e (n + 1) = (e n).step ControlInstructions.table :=
  (run.next n).eq_step h

theorem opcode {n : Nat} (h : (e n).phase = .opcode) :
    e (n + 1) = (e n).opcodeStep ControlInstructions.table := by
  rw [run.step (by simp [h]), step_opcode _ h]

theorem call {n : Nat} (h : (e n).phase = .returned) :
    ∃ s, (e n).state.machine.Waits s.machine ∧ e (n + 1) = start s :=
  (run.next n).eq_start h

theorem continues (n : Nat) : Machine.Continues (e n).state.machine (e (n + 1)).state.machine :=
  (run.next n).evolves Registers.keptByStep_true (fun _ => trivial) (Registry.respects_true _)

theorem hooks (n : Nat) : (e n).state.machine.hooks = (e 0).state.machine.hooks := by
  induction n with
  | zero => rfl
  | succ n ih => exact (run.continues n).hooks.trans ih

theorem grows {i j : Nat} (hij : i ≤ j) :
    Machine.Grows (e i).state.machine (e j).state.machine := by
  induction hij with
  | refl => exact ⟨[], rfl⟩
  | step _ ih => exact ih.trans (run.continues _).grows

theorem awake (hooks : (e 0).state.machine.hooks.Respects Registers.KeepsStop) {n : Nat}
    (hpasses : ∀ k < n, (e k).phase = .special → Host.isNested (e k).state.host = false) :
    (e n).Awake := by
  cases n with
  | zero =>
    obtain ⟨s, hs⟩ := run.starts
    rw [hs]
    exact start_awake s
  | succ n =>
    exact (run.next n).awake ((run.hooks n).symm ▸ hooks) (hpasses n (Nat.lt_succ_self n))

theorem opcode_before {n : Nat} (h : (e n).phase = .special)
    (hstop : (e n).state.machine.regs.pending.stop = false) :
    ∃ m, n = m + 1 ∧ (e m).phase = .opcode := by
  have hstart : ∀ s, e n ≠ start s := by
    intro s hs
    rw [hs, start_phase, ← hs, hstop] at h
    cases h
  cases n with
  | zero =>
    obtain ⟨s, hs⟩ := run.starts
    exact absurd hs (hstart s)
  | succ m =>
    cases hphase : (e m).phase with
    | returned =>
      obtain ⟨s, -, hs⟩ := run.call hphase
      exact absurd hs (hstart s)
    | opcode => exact ⟨m, rfl, hphase⟩
    | special | idle watch =>
      rw [run.step (by simp [hphase])] at h
      exact ⟨m, rfl, opcode_of_step_special h⟩

theorem ends_of_returned {n : Nat} (h : (e n).phase = .returned) :
    ∃ k, n = k + 1 ∧ (e k).EndsPass := by
  have hstart : ∀ s, e n ≠ start s := by
    intro s hs
    rw [hs, start_phase] at h
    split at h <;> cases h
  cases n with
  | zero =>
    obtain ⟨s, hs⟩ := run.starts
    exact absurd hs (hstart s)
  | succ k =>
    have hlast : (e k).phase ≠ .returned := fun hphase => by
      obtain ⟨s, -, hs⟩ := run.call hphase
      exact hstart s hs
    have hopcode : (e k).phase ≠ .opcode := fun hphase => by
      rw [run.opcode hphase] at h
      exact opcodeStep_phase_ne_returned _ _ h
    rw [run.step hlast] at h
    exact ⟨k, rfl, hopcode, hlast, .inr h⟩

theorem before_opcode {m : Nat} (h : (e m).phase = .opcode) :
    m = 0 ∨ (e m).state.machine.regs.pending.isEmpty = true ∨ ∃ k, FollowsPass e k m := by
  cases m with
  | zero => exact .inl rfl
  | succ k =>
    cases hphase : (e k).phase with
    | opcode =>
      have hstep := run.opcode hphase
      have hempty := h
      rw [hstep, opcodeStep_phase] at hempty
      rw [hstep]
      refine .inr (.inl (Classical.byContradiction fun hno => ?_))
      rw [if_neg hno] at hempty
      cases hempty
    | special | idle watch =>
      have hstep := h
      rw [run.step (by simp [hphase])] at hstep
      exact .inr (.inr ⟨k, ⟨by simp [hphase], by simp [hphase], .inl hstep⟩, h, .inl rfl⟩)
    | returned =>
      obtain ⟨j, rfl, hends⟩ := run.ends_of_returned hphase
      exact .inr (.inr ⟨j, hends, h, .inr ⟨rfl, hphase⟩⟩)

theorem follows_evolves (hK : Registers.KeptByException R) (hP : ∀ e : Event, e.ofHost → P e)
    {k m : Nat} (h : FollowsPass e k m) :
    Machine.Evolves P R (e (k + 1)).state.machine (e m).state.machine := by
  obtain hm | ⟨hm, hreturned⟩ := h.next
  · rw [hm]
    exact .refl hK _
  · obtain ⟨s, hs, hstart⟩ := run.call hreturned
    rw [hm, hstart]
    exact (hs.evolves hK).trans hK (start_evolves hK hP s)

theorem follows_rests {k m : Nat} (h : FollowsPass e k m) :
    (e (k + 1)).state.machine.regs.Rests (e m).state.machine.regs := by
  obtain hm | ⟨hm, hreturned⟩ := h.next
  · rw [hm]
    exact .refl _
  · obtain ⟨s, hs, hstart⟩ := run.call hreturned
    rw [hm, hstart]
    exact hs.rests.trans (start_talks (P := fun _ => True) (fun _ _ => trivial) s).rests

end IsRun

def advance (e : Execution β σ η) : Execution β σ η :=
  match e.phase with
  | .returned => start e.state
  | _ => e.step ControlInstructions.table

def calls (s : Hosted β σ η) : Nat → Execution β σ η
  | 0 => start s
  | n + 1 => (calls s n).advance

theorem advance_next (e : Execution β σ η) : Next e e.advance := by
  simp only [advance]
  split
  · exact .call ‹_› (.rest _ _)
  · exact .step ‹_›

theorem calls_isRun (s : Hosted β σ η) : IsRun (calls s) :=
  ⟨⟨s, rfl⟩, fun n => advance_next (calls s n)⟩

omit [Bus β] in
theorem unhindered_stuck (e : Execution β σ Host.Stuck) : e.Unhindered := by
  refine fun _ => ⟨rfl, ?_⟩
  simp only [probed, Hosted.earlyEndOfCycle]
  split <;> rfl

end Execution
end Mc68000
