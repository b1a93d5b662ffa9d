import Mc68000.Memory.Ram
import Mc68000.Proofs.Calls
import Mc68000.Proofs.DoubleFault
import Mc68000.Proofs.Stopping

/-!
# No request for a break is lost

A pass looks at requests for a break last. Traces, interrupts, faults and a tick of idling may come
first, and none of them withdraws the request. Only the host can end the call before the look, at
the end of a cycle, and then the request is still there for the next call.
-/

namespace Mc68000

namespace Event

def leaves : Event → Bool
  | .host (.endOfCycle _ true) => true
  | _ => false

def delay? (e : Event) : Option Event := if e.isDelay then some e else none

theorem delay?_of_calm {e : Event} (h : e.Calm) : e.delay? = none := by simp [delay?, h.1]

theorem stays_of_ofInterrupt {e : Event} (h : e.ofInterrupt = true) : e.leaves = false := by
  cases e <;> simp_all [ofInterrupt, ofFault, ofException, leaves]

theorem stays_of_ofFault {e : Event} (h : e.ofFault = true) : e.leaves = false :=
  stays_of_ofInterrupt (ofInterrupt_of_ofFault h)

end Event

namespace Machine
variable {β σ : Type} {R : Registers → Registers → Prop} {m m₁ : Machine β σ}

/-- Nothing has happened since the host ended the call. -/
def LeftByHost (m : Machine β σ) : Prop := m.journal.head?.any Event.leaves = true

abbrev StaysAsked (m m' : Machine β σ) : Prop :=
  Evolves (fun e => e.leaves = false) Registers.KeepsBreak m m'

theorem not_leftByHost_log (m : Machine β σ) {e : Event} (he : e.leaves = false) :
    ¬ (m.log e).LeftByHost := by
  simp [LeftByHost, log, he]

theorem Evolves.not_leftByHost (h : Evolves (fun e => e.leaves = false) R m m₁)
    (hm : ¬ m.LeftByHost) : ¬ m₁.LeftByHost := by
  obtain ⟨es, hj, hes⟩ := h.journal
  simp only [LeftByHost] at hm ⊢
  rw [hj]
  cases es with
  | nil => exact hm
  | cons e es => simp [hes e List.mem_cons_self]

variable [Bus β]

theorem traceIfDue_staysAsked (hooks : m.hooks.Respects Registers.KeepsBreak) :
    StaysAsked m m.traceIfDue := by
  have hK := Registers.kept_break.toKeptByException
  have hlog : StaysAsked m (m.log .trace) := .log hK m rfl
  have htaken : StaysAsked m ((m.log .trace).takeException ExceptionVector.trace) :=
    hlog.trans hK (takeException_evolves hK
      (fun _ he => Event.stays_of_ofFault (Event.ofFault_of_ofException he))
      (hlog.respects hooks) _)
  simp only [traceIfDue]
  split
  · exact htaken.trans hK
      (deliverFault_evolves hK (fun _ => Event.stays_of_ofFault) (htaken.respects hooks))
  · exact .refl hK m

end Machine

namespace Hosted
variable {β σ η : Type} [Host η] {s : Hosted β σ η}
open Machine (StaysAsked LeftByHost)

theorem cycle_not_leftByHost (s : Hosted β σ η) (sleeping : Bool) :
    ¬ (s.cycle sleeping).machine.LeftByHost := by
  let ticked := s.isNested.2.request (fun h => Host.cycle h sleeping) (.cycle sleeping)
  have hcounted : ¬ ticked.pollInterrupts.countTick.machine.LeftByHost := by
    simp only [pollInterrupts]
    split <;> exact Machine.not_leftByHost_log ticked.machine rfl
  have hslow : ∀ t : Hosted β σ η, ¬ (t.cycleSlowly sleeping).machine.LeftByHost := by
    intro t
    rw [cycleSlowly_eq]
    dsimp only
    split <;> exact Machine.not_leftByHost_log
      (t.request (fun h => Host.cycleSlowly h sleeping) (.cycleSlowly sleeping)).machine rfl
  rw [cycle_eq]
  dsimp only
  split
  · exact Machine.not_leftByHost_log s.machine rfl
  split
  · exact hslow _
  · exact hcounted

theorem checkForBreak_of_asked (h : s.machine.regs.pending.breakRequest = true) :
    s.checkForBreak.2.machine.regs.pending.breakRequest = false ∧
      (s.checkForBreak.2.machine.LeftByHost ↔ s.machine.LeftByHost) := by
  rw [checkForBreak_eq, if_pos h]
  exact ⟨rfl, Iff.rfl⟩

theorem endOfCycle_leftByHost (s : Hosted β σ η) (early : Bool) :
    let asked := s.consult (fun h => Host.endOfCycle h early) (.endOfCycle early)
    asked.2.machine.LeftByHost ↔ asked.1 = true := by
  rw [consult_eq]
  generalize Host.endOfCycle s.host early = asked
  obtain ⟨answer, host⟩ := asked
  cases answer <;> simp [LeftByHost, Machine.log, Event.leaves]

theorem earlyEndOfCycle_leftByHost (hs : ¬ s.machine.LeftByHost) :
    s.earlyEndOfCycle.2.machine.LeftByHost ↔ s.earlyEndOfCycle.1 = true := by
  simp only [earlyEndOfCycle]
  split
  · exact endOfCycle_leftByHost s true
  · exact iff_of_false hs (by simp)

theorem lateEndOfCycle_leftByHost (hs : ¬ s.machine.LeftByHost) :
    s.lateEndOfCycle.2.machine.LeftByHost ↔ s.lateEndOfCycle.1 = true := by
  simp only [lateEndOfCycle]
  split
  · exact endOfCycle_leftByHost
      (s.map fun m => m.mapPending fun p => { p with endOfCycle := false }) false
  · exact iff_of_false hs (by simp)

variable [Bus β]

theorem answerInterrupt_staysAsked (hooks : s.machine.hooks.Respects Registers.KeepsBreak)
    (use : Pending → Pending) (huse : ∀ p, (use p).breakRequest = p.breakRequest)
    (wake : Registers → Registers)
    (hwake : ∀ r : Registers, r.KeepsBreak (wake { r with stopped := false })) :
    StaysAsked s.machine (s.answerInterrupt use wake).machine := by
  have hK := Registers.kept_break
  have hread : StaysAsked s.machine s.pendingLevel.2.machine :=
    .log hK.toKeptByException s.machine rfl
  have hused : StaysAsked s.machine (s.pendingLevel.2.map fun m => m.mapPending use).machine :=
    hread.trans hK.toKeptByException (.mapPending _ fun h => (huse _).trans h)
  by_cases habove : s.AboveMask
  · obtain ⟨level, hl, hm⟩ := habove
    rw [answerInterrupt_of_above hl hm]
    have hasked : StaysAsked s.machine (s.askBase use).2.machine :=
      hused.trans hK.toKeptByException (.log hK.toKeptByException _ rfl)
    exact hasked.trans hK.toKeptByException (acceptInterrupt_evolves hK
      (fun _ => Event.stays_of_ofInterrupt) hwake (hasked.respects hooks) _ level)
  · rw [answerInterrupt_of_not_above habove]
    exact hused

theorem dueInterrupt_staysAsked (hooks : s.machine.hooks.Respects Registers.KeepsBreak) :
    StaysAsked s.machine s.dueInterrupt.machine := by
  rw [dueInterrupt_eq]
  split
  · exact answerInterrupt_staysAsked hooks dueUsed (fun _ => rfl) id fun _ => id
  · exact .refl Registers.kept_break.toKeptByException _

theorem idleInterrupt_staysAsked (hooks : s.machine.hooks.Respects Registers.KeepsBreak) :
    StaysAsked s.machine s.idleInterrupt.machine := by
  rw [idleInterrupt_eq]
  split
  · exact answerInterrupt_staysAsked hooks Pending.withoutInterrupt (fun _ => rfl) wakened
      fun _ => id
  · exact .refl Registers.kept_break.toKeptByException _

theorem interrupted_staysAsked (hooks : s.machine.hooks.Respects Registers.KeepsBreak) :
    StaysAsked s.machine s.interrupted.machine := by
  refine interrupted_evolves Registers.kept_break (fun _ => rfl) (fun _ => id) ?_
  rintro t rfl
  have harmed : StaysAsked s.machine (s.map Machine.armTrace).machine :=
    Machine.armTrace_evolves Registers.kept_break.toKeptByException (fun _ => rfl) fun _ => id
  exact dueInterrupt_staysAsked (harmed.respects hooks)

theorem finishPass_of_asked (hooks : s.machine.hooks.Respects Registers.KeepsBreak)
    (hs : ¬ s.machine.LeftByHost) (hasked : s.machine.regs.pending.breakRequest = true) :
    s.finishPass.1 = true ∧ (s.finishPass.2.machine.regs.pending.breakRequest = true ↔
      s.finishPass.2.machine.LeftByHost) := by
  have hstays := interrupted_staysAsked hooks
  have hleft := lateEndOfCycle_leftByHost (hstays.not_leftByHost hs)
  have hlate := lateEndOfCycle_evolves (P := fun _ => True)
    Registers.kept_break.toKeptByHousekeeping (fun _ _ => trivial) s.interrupted
  have hstill := hlate.regs (hstays.regs hasked)
  rw [finishPass_eq]
  split
  · rename_i hleave
    exact ⟨rfl, iff_of_true hstill (hleft.mpr hleave)⟩
  · rename_i hstay
    obtain ⟨hused, hsame⟩ := checkForBreak_of_asked hstill
    refine ⟨checkForBreak_of_break hstill, iff_of_false (by simp [hused]) ?_⟩
    rw [hsame, hleft]
    exact hstay

theorem idleInterrupt_calm (s : Hosted β σ η) :
    Machine.Evolves Event.Calm (fun _ _ => True) s.machine s.idleInterrupt.machine :=
  idleInterrupt_evolves Registers.kept_true (Event.of_talk fun _ => Event.calm_of_ofHost)
    (fun _ => Event.calm_of_ofInterrupt) (fun _ => trivial) (fun _ => trivial)
    (Registry.respects_true _)

omit [Bus β] in
theorem tick_shows_delay (s : Hosted β σ η) :
    s.machine.Shows Event.delay? s.tick.machine [.host .delay] := by
  let delayed := (s.request Host.delay .delay).map fun m => m.charge m.settings.idleTickCycles
  have hdelay : s.machine.Shows Event.delay? delayed.machine [.host .delay] :=
    .of_event (.host .delay) rfl
  have hcycle := cycle_evolves (R := fun _ _ => True)
    Registers.kept_true.toKeptByHousekeeping
    (Event.of_talk fun _ => Event.calm_of_ofHost) delayed true
  exact hdelay.trans (.of_evolves (hcycle.mono fun _ => Event.delay?_of_calm))

end Hosted

namespace Execution
variable {β σ η : Type} [Host η] [Bus β] {e : Execution β σ η}
open Machine (StaysAsked LeftByHost)

theorem specialStep_of_asked (hooks : e.state.machine.hooks.Respects Registers.KeepsBreak)
    (hasked : e.state.machine.regs.pending.breakRequest = true) :
    (e.specialStep.phase = .returned ∧
        (e.specialStep.state.machine.regs.pending.breakRequest = true ↔
          e.specialStep.state.machine.LeftByHost)) ∨
      ∃ watch, e.specialStep.phase = .idle watch ∧
        e.specialStep.state.machine.regs.pending.breakRequest = true := by
  have hfresh : ¬ e.state.isNested.2.machine.LeftByHost :=
    Machine.not_leftByHost_log e.state.machine rfl
  have hprobed : e.probed.2.machine.regs = e.state.machine.regs :=
    (probed_talks (P := fun _ => True) (fun _ _ => trivial) e).1.regs
  have hprobe : e.probed.2.machine.LeftByHost ↔ e.probed.1 = true :=
    Hosted.earlyEndOfCycle_leftByHost hfresh
  rw [specialStep_eq]
  split
  · obtain ⟨hused, hsame⟩ := Hosted.checkForBreak_of_asked (s := e.state.isNested.2) hasked
    refine .inl ⟨endPass_of_leave _ (Hosted.checkForBreak_of_break hasked),
      iff_of_false (by simpa [endPass] using hused) (mt hsame.mp hfresh)⟩
  split
  · rename_i hleave
    exact .inl ⟨rfl, iff_of_true (hprobed ▸ hasked) (hprobe.mpr hleave)⟩
  rename_i hstay
  have hstays : StaysAsked e.probed.2.machine e.traced.machine :=
    Machine.traceIfDue_staysAsked ((probed_continues e).respects hooks)
  have htraced := hstays.regs (hprobed ▸ hasked)
  split
  · have hidle := (Hosted.enterIdle_talks (P := fun _ => True) (fun _ _ => trivial) e.traced).1.regs
    exact .inr ⟨_, rfl, hidle ▸ htraced⟩
  · obtain ⟨hleave, hleft⟩ := Hosted.finishPass_of_asked ((traced_continues e).respects hooks)
      (hstays.not_leftByHost (mt hprobe.mp hstay)) htraced
    exact .inl ⟨endPass_of_leave _ hleave, hleft⟩

theorem idleStep_of_asked (hooks : e.state.machine.hooks.Respects Registers.KeepsBreak)
    (hasked : e.state.machine.regs.pending.breakRequest = true) (watch : Watchdog) :
    (e.idleStep watch).phase = .returned ∧
      (e.idleStep watch).state.machine.regs.pending.breakRequest = false ∧
      ¬ (e.idleStep watch).state.machine.LeftByHost ∧
      e.state.machine.Shows Event.delay? (e.idleStep watch).state.machine [.host .delay] := by
  have hticked := ticked_evolves (P := fun _ => True) Registers.kept_break.toKeptByHousekeeping
    (fun _ _ => trivial) trivial watch e
  have hstays := Hosted.idleInterrupt_staysAsked (s := (e.ticked watch).2) (hticked.respects hooks)
  have hstill := hstays.regs (hticked.regs hasked)
  obtain ⟨-, hsame⟩ := Hosted.checkForBreak_of_asked hstill
  have hleft := hstays.not_leftByHost (Hosted.cycle_not_leftByHost _ true)
  have hchecked := Hosted.watchdog_check_talks (Event.of_aside fun _ => Event.calm_of_ofHost) watch
    e.state
  have hbefore : e.state.machine.Shows Event.delay? (watch.check e.state).2.machine [] :=
    .of_evolves ((hchecked.1.evolves Registers.kept_true.toKeptByException).mono
      fun _ => Event.delay?_of_calm)
  have hshows := (hbefore.trans (Hosted.tick_shows_delay _)).trans
    (.of_evolves ((Hosted.idleInterrupt_calm (e.ticked watch).2).mono
      fun _ => Event.delay?_of_calm))
  rw [idleStep_eq]
  dsimp only
  rw [if_pos (Hosted.checkForBreak_of_break hstill)]
  refine ⟨rfl, rfl, mt hsame.mp hleft, ?_⟩
  rw [Hosted.checkForBreak_eq, if_pos hstill]
  exact hshows

structure HonoursBreak (e : Execution β σ η) : Prop where
  returns : (e.run ControlInstructions.table 2).phase = .returned
  fetches : e.state.machine.Shows Event.fetch?
    (e.run ControlInstructions.table 2).state.machine []
  ticks : ∃ ds, e.state.machine.Shows Event.delay?
    (e.run ControlInstructions.table 2).state.machine ds ∧ ds.length ≤ 1
  request : (e.run ControlInstructions.table 2).state.machine.regs.pending.breakRequest = true ↔
    (e.run ControlInstructions.table 2).state.machine.LeftByHost
  /-- If it is not used up, it ends the next call after one opcode or none. -/
  next : (e.run ControlInstructions.table 2).state.machine.LeftByHost → ∀ host : η,
    let s : Hosted β σ η := ⟨(e.run ControlInstructions.table 2).state.machine, host⟩
    (execute ControlInstructions.table 3 s).phase = .returned ∧
      ∃ rs, s.machine.Shows Event.fetch? (execute ControlInstructions.table 3 s).state.machine rs ∧
        rs.length ≤ 1

theorem run_two_of_asked (hooks : e.state.machine.hooks.Respects Registers.KeepsBreak)
    (hphase : e.phase = .special)
    (hasked : e.state.machine.regs.pending.breakRequest = true) :
    let done := e.run ControlInstructions.table 2
    done.phase = .returned ∧ e.state.machine.Shows Event.fetch? done.state.machine [] ∧
      (∃ ds, e.state.machine.Shows Event.delay? done.state.machine ds ∧ ds.length ≤ 1) ∧
      (done.state.machine.regs.pending.breakRequest = true ↔ done.state.machine.LeftByHost) := by
  have hpass := specialStep_calm e
  have hfetches : e.state.machine.Shows Event.fetch? e.specialStep.state.machine [] :=
    .of_evolves (hpass.mono fun _ he => Event.fetch?_of_isFetch he.2)
  have hdelays : e.state.machine.Shows Event.delay? e.specialStep.state.machine [] :=
    .of_evolves (hpass.mono fun _ => Event.delay?_of_calm)
  have hhooks := (step_continues e).respects hooks
  rw [step_special _ hphase] at hhooks
  -- The first step is the pass. The second one is a tick of idling, or does nothing.
  dsimp only
  rw [run_step, step_special _ hphase, run_step, run]
  rcases specialStep_of_asked hooks hasked with ⟨hreturned, hrequest⟩ | ⟨watch, hidle, hstill⟩
  · rw [step_of_returned _ hreturned]
    exact ⟨hreturned, hfetches, ⟨[], hdelays, Nat.zero_le 1⟩, hrequest⟩
  · obtain ⟨hreturned, hused, hleft, htick⟩ := idleStep_of_asked hhooks hstill watch
    rw [step_idle _ hidle]
    refine ⟨hreturned, ?_, ⟨_, hdelays.trans htick, Nat.le_refl 1⟩,
      iff_of_false (by simp [hused]) hleft⟩
    exact hfetches.trans (.of_evolves ((idleStep_unfetched watch e.specialStep).mono
      fun _ => Event.fetch?_of_isFetch))

theorem execute_of_asked {s : Hosted β σ η} (hooks : s.machine.hooks.Respects Registers.KeepsBreak)
    (hasked : s.machine.regs.pending.breakRequest = true) :
    (execute ControlInstructions.table 3 s).phase = .returned ∧
      ∃ rs, s.machine.Shows Event.fetch? (execute ControlInstructions.table 3 s).state.machine rs ∧
        rs.length ≤ 1 := by
  have hstart := start_talks (P := fun e => e.fetch? = none)
    (fun _ => Event.fetch?_of_ofHost) s
  have hbegun : s.machine.Shows Event.fetch? (start s).state.machine [] :=
    .of_evolves (hstart.1.evolves Registers.kept_true.toKeptByException)
  have hhooks := hstart.continues.respects hooks
  have hstill : (start s).state.machine.regs.pending.breakRequest = true :=
    hstart.1.regs ▸ hasked
  by_cases hspecial : (start s).phase = .special
  · obtain ⟨hreturned, hfetches, -⟩ := run_two_of_asked hhooks hspecial hstill
    have hdone : execute ControlInstructions.table 3 s =
        (start s).run ControlInstructions.table 2 := by
      rw [execute, run_succ, step_of_returned _ hreturned]
    rw [hdone]
    exact ⟨hreturned, [], hbegun.trans hfetches, Nat.zero_le 1⟩
  · have hopcode : (start s).phase = .opcode := by
      rw [start_phase] at hspecial ⊢
      exact if_neg fun hstop => hspecial (if_pos hstop)
    have hkept := opcodeStep_evolves (P := fun _ => True) Registers.kept_break.toKeptByOpcode
      (fun _ _ => trivial) (fun _ _ => trivial) hhooks fun _ _ => id
    have hnext := hkept.regs hstill
    have hfetch := step_shows (start s)
    rw [if_pos hopcode, step_opcode _ hopcode] at hfetch
    obtain ⟨hreturned, hfetches, -⟩ := run_two_of_asked (hkept.respects hhooks)
      (opcodeStep_special_of_break hnext) hnext
    rw [execute, run_step, step_opcode _ hopcode]
    exact ⟨hreturned, _, (hbegun.trans hfetch).trans hfetches, Nat.le_refl 1⟩

/-- A pass that begins with a request for a break ends the call, whatever else is pending and
whatever the host answers, if no exception hook withdraws the request. -/
theorem break_honoured (hooks : e.state.machine.hooks.Respects Registers.KeepsBreak)
    (hphase : e.phase = .special)
    (hasked : e.state.machine.regs.pending.breakRequest = true) : HonoursBreak e := by
  obtain ⟨hreturned, hfetches, hticks, hrequest⟩ := run_two_of_asked hooks hphase hasked
  refine ⟨hreturned, hfetches, hticks, hrequest, fun hleft host => ?_⟩
  exact execute_of_asked ((run_continues e 2).respects hooks) (hrequest.mpr hleft)

def roused : Execution Ram Unit Host.Stuck :=
  let ram := (Ram.ofSize 256).pokeLong 0x78 0xB0
  let m := (Machine.ofSettings Settings.default ram ()).setRegister .sr 0x2000
  ⟨⟨m.mapPending fun p => { p with stop := true, breakRequest := true }, { level := some 6 }⟩, ⟨0⟩,
    .special⟩

theorem break_honoured_roused :
    roused.state.machine.hooks.Respects Registers.KeepsBreak ∧ roused.phase = .special ∧
      roused.state.machine.regs.pending.breakRequest = true ∧
      (roused.run ControlInstructions.table 2).state.machine.regs.pc = 0xB0 ∧
      (roused.run ControlInstructions.table 2).state.machine.regs.pending.breakRequest = false ∧
      HonoursBreak roused := by
  have hooks : roused.state.machine.hooks.Respects Registers.KeepsBreak :=
    fun _ _ he => absurd he List.not_mem_nil
  exact ⟨hooks, rfl, rfl, by decide +kernel, by decide +kernel, break_honoured hooks rfl rfl⟩

end Execution
end Mc68000
