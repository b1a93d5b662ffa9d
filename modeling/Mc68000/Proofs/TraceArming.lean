import Mc68000.Machine.Control
import Mc68000.Memory.Ram
import Mc68000.Proofs.FaultedStop

/-!
# How often the trace exception is taken

A pass arms the trace exception, and the next pass takes it. What takes the condition back is not
the pass that finds it due but the way into a handler: if hooks handle the exceptions of the pass,
the trace exception stays due, and it is taken again without having been armed again.
-/

namespace Mc68000

namespace Event

def isTrace : Event → Bool
  | .trace => true
  | _ => false

def entersHandler : Event → Bool
  | .exceptionTaken .. => true
  | _ => false

theorem entersHandler_of_ofHost {e : Event} (h : e.ofHost = true) : e.entersHandler = false := by
  cases e <;> simp_all [ofHost, entersHandler]

theorem isTrace_of_ofHost {e : Event} (h : e.ofHost = true) : e.isTrace = false := by
  cases e <;> simp_all [ofHost, isTrace]

theorem isTrace_of_ofInterrupt {e : Event} (h : e.ofInterrupt = true) : e.isTrace = false := by
  cases e <;> simp_all [ofInterrupt, ofFault, ofException, isTrace]

theorem isTrace_of_ofOpcode {e : Event} (h : e.ofOpcode = true) : e.isTrace = false := by
  cases e <;> simp_all [ofOpcode, ofInstruction, ofFault, ofException, isTrace]

end Event

namespace Registers

def KeepsPending (r r' : Registers) : Prop := r'.pending = r.pending

def TraceWanes (r r' : Registers) : Prop :=
  r'.pending.traceDue = true → r.pending.traceDue = true

theorem traceWanes_loadStatus (r : Registers) (w : UInt16) : r.TraceWanes (r.loadStatus w) := by
  intro h
  rw [traceDue_loadStatus, Bool.and_eq_true] at h
  exact h.1

theorem kept_traceWanes : Kept TraceWanes where
  refl _ := id
  trans hab hbc h := hab (hbc h)
  pc _ _ := id
  address _ _ _ _ := id
  pack _ := id
  supervisor r h := by
    rw [pending_enterSupervisor] at h
    exact h
  dropTrace _ h := by cases h
  load := traceWanes_loadStatus
  mask _ _ := id
  breakRequest _ := id
  interruptCheck _ := id
  endOfCycle _ _ := id
  interruptDue _ := id

theorem KeepsPending.traceWanes {r r' : Registers} (h : r.KeepsPending r') : r.TraceWanes r' := by
  intro hdue
  rw [← h]
  exact hdue

theorem KeepsPending.keepsStop {r r' : Registers} (h : r.KeepsPending r') : r.KeepsStop r' :=
  congrArg Pending.stop h

end Registers

namespace Machine
variable {β σ : Type} {R : Registers → Registers → Prop} {m m₁ m₂ : Machine β σ}

def traces (m : Machine β σ) : Nat := m.journal.countP Event.isTrace

theorem Evolves.traces (h : Evolves (fun e => e.isTrace = false) R m m₁) :
    m₁.traces = m.traces := by
  obtain ⟨es, hj, hes⟩ := h.journal
  have hnone : es.countP Event.isTrace = 0 :=
    List.countP_eq_zero.mpr fun e he => by simp [hes e he]
  simp only [Machine.traces]
  rw [hj, List.countP_append, hnone, Nat.zero_add]

/-- The trace exception is due in the end if it was due at first and no exception has gone into its
handler in between. -/
structure KeepsTrace (m m' : Machine β σ) : Prop where
  hooks : m'.hooks = m.hooks
  grows : Grows m m'
  due : m'.regs.pending.traceDue = true ↔
    m.regs.pending.traceDue = true ∧ ¬ Logged (fun e => e.entersHandler) m m'

namespace KeepsTrace

theorem of_quiet (h : Evolves (fun e => e.entersHandler = false) (fun _ _ => True) m m₁)
    (hdue : m₁.regs.pending.traceDue = m.regs.pending.traceDue) : KeepsTrace m m₁ where
  hooks := h.hooks
  grows := h.grows
  due := by
    have hnone : ¬ Logged (fun e => e.entersHandler) m m₁ := h.not_logged fun _ he => by simp [he]
    simp [hdue, hnone]

theorem of_entered (h : Continues m m₁) (hlogged : Logged (fun e => e.entersHandler) m m₁)
    (hdue : m₁.regs.pending.traceDue = false) : KeepsTrace m m₁ :=
  ⟨h.hooks, h.grows, by simp [hdue, hlogged]⟩

theorem trans (h : KeepsTrace m m₁) (h₁ : KeepsTrace m₁ m₂) : KeepsTrace m m₂ where
  hooks := h₁.hooks.trans h.hooks
  grows := h.grows.trans h₁.grows
  due := by rw [h₁.due, h.due, Logged.iff_of_grows h.grows h₁.grows, not_or, and_assoc]

theorem respects (h : KeepsTrace m m₁) (hH : m.hooks.Respects R) : m₁.hooks.Respects R := by
  rw [h.hooks]
  exact hH

theorem refl (m : Machine β σ) : KeepsTrace m m := of_quiet (.refl Registers.kept_true m) rfl

theorem log (m : Machine β σ) {e : Event} (he : e.entersHandler = false) :
    KeepsTrace m (m.log e) :=
  of_quiet (.log Registers.kept_true m he) rfl

theorem mapRegs (m : Machine β σ) {f : Registers → Registers}
    (hf : (f m.regs).pending.traceDue = m.regs.pending.traceDue) : KeepsTrace m (m.mapRegs f) :=
  of_quiet (.mapRegs m trivial) hf

theorem mapPending (m : Machine β σ) {f : Pending → Pending}
    (hf : (f m.regs.pending).traceDue = m.regs.pending.traceDue) : KeepsTrace m (m.mapPending f) :=
  of_quiet (.mapPending m trivial) hf

theorem of_rests (h : Evolves (fun e => e.entersHandler = false) (fun _ _ => True) m m₁)
    (hrests : m.regs.Rests m₁.regs) : KeepsTrace m m₁ := of_quiet h hrests.traceDue

end KeepsTrace

theorem foldl_callHook_pending (call : HookCall) (ls : List (Registry.Listener β σ))
    (hls : ∀ l ∈ ls, ∀ s : Scene β σ, s.registers.KeepsPending (l.run s).2.registers)
    (before : Bool × Machine β σ) :
    (ls.foldl (callHook call) before).2.regs.pending = before.2.regs.pending := by
  -- Hooks keep more than the rest of an exception does, so that no `Kept` relation says this.
  induction ls generalizing before with
  | nil => rfl
  | cons l ls ih =>
    exact (ih (fun k hk => hls k (List.mem_cons_of_mem _ hk)) (callHook call before l)).trans
      (hls l (by simp) before.2.scene)

theorem callHooks_exception_pending (hH : m.hooks.Respects Registers.KeepsPending)
    (v : ExceptionVector) : (m.callHooks (.exception v)).2.regs.pending = m.regs.pending := by
  apply foldl_callHook_pending _ _ ?_ (false, m)
  intro l hl s
  simp only [Registry.listeners, Registry.listenersOf, List.mem_map] at hl
  obtain ⟨e, he, rfl⟩ := hl
  exact hH v e he s

variable [Bus β]

theorem enterException_keepsTrace (m : Machine β σ) (v : ExceptionVector) :
    KeepsTrace m (m.enterException v) := by
  have hK := Registers.kept_true
  let taken := m.log (.exceptionTaken v m.regs.pc)
  have hlog : Logged (fun e => e.entersHandler) m taken := .of_log m rfl
  have hframe : Continues taken
      ((taken.mapRegs Registers.enterSupervisor).pushFrame v m.regs.sr m.regs.pc) :=
    Continues.trans (.mapRegs taken trivial) (pushFrame_evolves hK _ v m.regs.sr m.regs.pc)
  have hrest : Continues taken (m.enterException v) :=
    (hframe.trans (checkStack_evolves hK (fun _ _ => trivial) _)).trans
      (enterHandler_evolves hK (fun _ _ => trivial) _ v)
  -- Whether it was due before does not matter: the handler begins with the condition dropped.
  exact .of_entered (Continues.trans (.log hK m trivial) hrest) (hlog.trans_grows hrest.grows) rfl

omit [Bus β] in
theorem interceptException_keepsTrace (hH : m.hooks.Respects Registers.KeepsPending)
    (v : ExceptionVector) : KeepsTrace m (m.interceptException v).2 := by
  have hK := Registers.kept_true
  let recorded := (m.mapRegs Registers.packStatus).recordException v
  have hrecorded : Evolves (fun e => e.entersHandler = false) (fun _ _ => True) m recorded :=
    Evolves.trans hK (.mapRegs m trivial) (recordException_evolves hK (fun _ => rfl) _ v)
  have hcalled := hrecorded.trans hK (callHooks_exception_evolves hK (fun _ _ => rfl)
    (Registry.respects_true recorded.hooks) v)
  have hpending : (recorded.callHooks (.exception v)).2.regs.pending = recorded.regs.pending :=
    callHooks_exception_pending (m := recorded) hH v
  exact .of_quiet hcalled (congrArg (fun p => p.traceDue) hpending)

theorem takeException_keepsTrace (hH : m.hooks.Respects Registers.KeepsPending)
    (v : ExceptionVector) : KeepsTrace m (m.takeException v) := by
  have hhooks := interceptException_keepsTrace hH v
  rw [takeException_eq]
  split
  · exact hhooks.trans (.log _ rfl)
  · exact hhooks.trans (enterException_keepsTrace _ v)

theorem takeFault_keepsTrace (m : Machine β σ) : KeepsTrace m m.takeFault.2 :=
  .of_quiet (takeFault_evolves Registers.kept_true m) rfl

theorem raiseFault_keepsTrace (hH : m.hooks.Respects Registers.KeepsPending) (f : Fault) :
    KeepsTrace m (m.raiseFault f) := by
  have hbreak : ∀ n : Machine β σ, KeepsTrace n n.requestBreak :=
    fun n => .of_quiet (.of_parts trivial rfl rfl rfl rfl rfl) rfl
  let reported := { m.takeFault.2 with lastFault := some f }.log (.fault f)
  have hreported : KeepsTrace m reported :=
    .of_quiet (.of_event (e := .fault f) rfl trivial rfl rfl id rfl rfl) rfl
  have hentered : KeepsTrace m (m.enterFault f) :=
    hreported.trans (takeException_keepsTrace (m := reported) hH f.kind.vector)
  have hasked := hentered.trans (takeFault_keepsTrace _)
  rw [raiseFault_eq]
  split
  · exact hasked
  · exact (hasked.trans (.log _ rfl)).trans (hbreak _)

theorem deliverFault_keepsTrace (hH : m.hooks.Respects Registers.KeepsPending) :
    KeepsTrace m m.deliverFault := by
  have hasked := takeFault_keepsTrace m
  rw [deliverFault_eq]
  split
  · exact hasked
  · exact hasked.trans (raiseFault_keepsTrace (hasked.respects hH) _)

theorem traceIfDue_keepsTrace (hH : m.hooks.Respects Registers.KeepsPending) :
    KeepsTrace m m.traceIfDue := by
  have hlog : KeepsTrace m (m.log .trace) := .log m rfl
  have htaken := hlog.trans (takeException_keepsTrace (m := m.log .trace) hH ExceptionVector.trace)
  simp only [traceIfDue]
  split
  · exact htaken.trans (deliverFault_keepsTrace (htaken.respects hH))
  · exact .refl m

theorem traceIfDue_traces (m : Machine β σ) :
    m.traceIfDue.traces =
      if m.regs.pending.traceDue && !m.regs.pending.stop then m.traces + 1 else m.traces := by
  have hK := Registers.kept_true
  have hfault : ∀ e : Event, e.ofFault → e.isTrace = false := fun _ he =>
    Event.isTrace_of_ofInterrupt (Event.ofInterrupt_of_ofFault he)
  have htaken : Evolves (fun e => e.isTrace = false) (fun _ _ => True) (m.log .trace)
      ((m.log .trace).takeException ExceptionVector.trace).deliverFault :=
    (takeException_evolves hK (fun e he => hfault e (Event.ofFault_of_ofException he))
      (Registry.respects_true _) _).trans hK
        (deliverFault_evolves hK hfault (Registry.respects_true _))
  have hlogged : (m.log .trace).traces = m.traces + 1 := List.countP_cons_of_pos rfl
  simp only [traceIfDue]
  split
  · exact htaken.traces.trans hlogged
  · rfl

theorem takeInterrupt_keepsTrace (hH : m.hooks.Respects Registers.KeepsPending)
    (base level : UInt8) : KeepsTrace m (m.takeInterrupt base level) := by
  have hmask : ∀ n : Machine β σ,
      KeepsTrace n (n.mapRegs fun r => r.setMask level).interruptsChanged :=
    fun n => .of_quiet (.of_parts trivial rfl rfl rfl rfl rfl) rfl
  let logged := m.log (.interrupt base level m.regs.status.mask)
  have hlog : KeepsTrace m logged := .log m rfl
  have htaken := hlog.trans (takeException_keepsTrace (m := logged) hH (base + level))
  simp only [takeInterrupt]
  split
  · exact htaken.trans (hmask _)
  · exact .log m rfl

omit [Bus β] in
theorem promoteInterrupt_keepsTrace (m : Machine β σ) : KeepsTrace m m.promoteInterrupt := by
  simp only [promoteInterrupt]
  split
  · exact .mapRegs m rfl
  · exact .refl m

omit [Bus β] in
theorem armTrace_of_not_arms (h : ¬ m.ArmsTrace) : m.armTrace = m := if_neg h

omit [Bus β] in
theorem armTrace_logs (h : m.ArmsTrace) : Logged (fun e => e.armsTrace) m m.armTrace := by
  refine ⟨[.traceArmed m.regs.pc], ?_, _, List.mem_singleton_self _, rfl⟩
  exact congrArg Machine.journal (if_pos h)

end Machine

namespace Hosted
variable {β σ η : Type} [Host η] {s t : Hosted β σ η}
open Machine (KeepsTrace Logged)

theorem Talks.keepsTrace (h : Talks (fun e => e.ofHost) s t) : KeepsTrace s.machine t.machine :=
  .of_rests ((h.1.evolves Registers.kept_true).mono fun _ => Event.entersHandler_of_ofHost) h.rests

theorem checkForBreak_keepsTrace (s : Hosted β σ η) :
    KeepsTrace s.machine s.checkForBreak.2.machine :=
  .of_rests (checkForBreak_evolves Registers.kept_true
    (Event.of_talk fun _ => Event.entersHandler_of_ofHost) (fun _ => trivial) s)
    (checkForBreak_rests s)

theorem lateEndOfCycle_keepsTrace (s : Hosted β σ η) :
    KeepsTrace s.machine s.lateEndOfCycle.2.machine :=
  .of_rests (lateEndOfCycle_evolves Registers.kept_true
    (Event.of_talk fun _ => Event.entersHandler_of_ofHost) s) (lateEndOfCycle_rests s)

theorem tick_keepsTrace (s : Hosted β σ η) : KeepsTrace s.machine s.tick.machine :=
  .of_rests (tick_evolves Registers.kept_true
    (Event.of_talk fun _ => Event.entersHandler_of_ofHost) rfl s) (tick_rests s)

variable [Bus β]

theorem acceptInterrupt_keepsTrace {m : Machine β σ}
    (hH : m.hooks.Respects Registers.KeepsPending) {wake : Registers → Registers}
    (hwake : ∀ r, (wake r).pending.traceDue = r.pending.traceDue) (base level : UInt8) :
    KeepsTrace m (acceptInterrupt wake base level m) := by
  have htaken := Machine.takeInterrupt_keepsTrace hH base level
  have hwoken := htaken.trans
    (.mapRegs (f := fun r => wake { r with stopped := false }) _ (hwake _))
  exact hwoken.trans (Machine.deliverFault_keepsTrace (hwoken.respects hH))

theorem answerInterrupt_keepsTrace (hH : s.machine.hooks.Respects Registers.KeepsPending)
    (use : Pending → Pending) (huse : ∀ p, (use p).traceDue = p.traceDue)
    (wake : Registers → Registers)
    (hwake : ∀ r, (wake r).pending.traceDue = r.pending.traceDue) :
    KeepsTrace s.machine (s.answerInterrupt use wake).machine := by
  have huses : KeepsTrace s.pendingLevel.2.machine
      (s.pendingLevel.2.map fun m => m.mapPending use).machine :=
    .mapPending _ (huse _)
  have hused := (pendingLevel_talks (fun _ => Event.ofHost_of_ofTalk) s).keepsTrace.trans huses
  by_cases habove : s.AboveMask
  · obtain ⟨level, hl, hm⟩ := habove
    rw [answerInterrupt_of_above hl hm]
    have hasked := hused.trans
      (.log _ (e := .host (.interruptBase (Host.interruptBase s.pendingLevel.2.host))) rfl)
    exact hasked.trans (acceptInterrupt_keepsTrace (hasked.respects hH) hwake _ level)
  · rw [answerInterrupt_of_not_above habove]
    exact hused

theorem dueInterrupt_keepsTrace (hH : s.machine.hooks.Respects Registers.KeepsPending) :
    KeepsTrace s.machine s.dueInterrupt.machine := by
  rw [dueInterrupt_eq]
  split
  · exact answerInterrupt_keepsTrace hH dueUsed (fun _ => rfl) id fun _ => rfl
  · exact .refl _

theorem idleInterrupt_keepsTrace (hH : s.machine.hooks.Respects Registers.KeepsPending) :
    KeepsTrace s.machine s.idleInterrupt.machine := by
  rw [idleInterrupt_eq]
  split
  · exact answerInterrupt_keepsTrace hH Pending.withoutInterrupt (fun _ => rfl) wakened fun _ => rfl
  · exact .refl _

theorem finishPass_arms (h : s.machine.ArmsTrace) :
    Logged (fun e => e.armsTrace) s.machine s.finishPass.2.machine := by
  have harmed : Logged (fun e => e.armsTrace) s.machine (s.map Machine.armTrace).machine :=
    Machine.armTrace_logs h
  have hinterrupted : Logged (fun e => e.armsTrace) s.machine s.interrupted.machine :=
    (harmed.trans_grows (dueInterrupt_continues _).grows).trans_grows
      (Machine.promoteInterrupt_keepsTrace _).grows
  have hlate := hinterrupted.trans_grows (lateEndOfCycle_keepsTrace _).grows
  rw [finishPass_eq]
  split
  · exact hlate
  · exact hlate.trans_grows (checkForBreak_keepsTrace _).grows

theorem finishPass_keepsTrace (hH : s.machine.hooks.Respects Registers.KeepsPending)
    (h : ¬ Logged (fun e => e.armsTrace) s.machine s.finishPass.2.machine) :
    KeepsTrace s.machine s.finishPass.2.machine := by
  have hunarmed : ¬ s.machine.ArmsTrace := fun harms => h (finishPass_arms harms)
  have hdue : KeepsTrace s.machine (s.map Machine.armTrace).dueInterrupt.machine := by
    have hsame : s.map Machine.armTrace = s := by
      simp only [map, Machine.armTrace_of_not_arms hunarmed]
    rw [hsame]
    exact dueInterrupt_keepsTrace hH
  have hinterrupted : KeepsTrace s.machine s.interrupted.machine :=
    hdue.trans (Machine.promoteInterrupt_keepsTrace _)
  have hlate := hinterrupted.trans (lateEndOfCycle_keepsTrace _)
  rw [finishPass_eq]
  split
  · exact hlate
  · exact hlate.trans (checkForBreak_keepsTrace _)

end Hosted

namespace Execution
variable {β σ η : Type} [Host η] [Bus β] {e : Execution β σ η}
open Machine (KeepsTrace Logged)

def FiresTrace (e : Execution β σ η) : Prop :=
  e.state.machine.traces < (e.step ControlInstructions.table).state.machine.traces

def ArmsTrace (e : Execution β σ η) : Prop :=
  Logged (fun e => e.armsTrace) e.state.machine (e.step ControlInstructions.table).state.machine

def EntersHandler (e : Execution β σ η) : Prop :=
  Logged (fun e => e.entersHandler) e.state.machine
    (e.step ControlInstructions.table).state.machine

def IsPass (e : Execution β σ η) : Prop :=
  e.phase = .special ∧ ∀ watch, (e.step ControlInstructions.table).phase ≠ .idle watch

omit [Bus β] in
theorem probed_keepsTrace (e : Execution β σ η) :
    KeepsTrace e.state.machine e.probed.2.machine :=
  (probed_talks (fun _ => Event.ofHost_of_ofTalk) e).keepsTrace

theorem traced_keepsTrace (hH : e.state.machine.hooks.Respects Registers.KeepsPending) :
    KeepsTrace e.state.machine e.traced.machine :=
  (probed_keepsTrace e).trans (Machine.traceIfDue_keepsTrace ((probed_keepsTrace e).respects hH))

theorem specialStep_keepsTrace (hH : e.state.machine.hooks.Respects Registers.KeepsPending)
    (h : ¬ Logged (fun e => e.armsTrace) e.state.machine e.specialStep.state.machine) :
    KeepsTrace e.state.machine e.specialStep.state.machine := by
  have hnested : KeepsTrace e.state.machine e.state.isNested.2.machine :=
    .log _ (e := .host (.isNested (Host.isNested e.state.host))) rfl
  have htraced := traced_keepsTrace hH
  revert h
  rw [specialStep_eq]
  split
  · exact fun _ => hnested.trans (Hosted.checkForBreak_keepsTrace _)
  split
  · exact fun _ => probed_keepsTrace e
  split
  · exact fun _ => htraced.trans
      (Hosted.enterIdle_talks (fun _ => Event.ofHost_of_ofAside) e.traced).keepsTrace
  · intro h
    exact htraced.trans (Hosted.finishPass_keepsTrace (htraced.respects hH) fun harms =>
      h (.grows_trans htraced.grows harms))

theorem idleStep_keepsTrace (hH : e.state.machine.hooks.Respects Registers.KeepsPending)
    {watch : Watchdog}
    (h : ¬ Logged (fun e => e.armsTrace) e.state.machine (e.idleStep watch).state.machine) :
    KeepsTrace e.state.machine (e.idleStep watch).state.machine := by
  have hticked : KeepsTrace e.state.machine (e.ticked watch).2.machine :=
    (Hosted.watchdog_check_talks (fun _ => Event.ofHost_of_ofAside) watch e.state).keepsTrace.trans
      (Hosted.tick_keepsTrace _)
  have hwoken := (hticked.trans (Hosted.idleInterrupt_keepsTrace (hticked.respects hH))).trans
    (Hosted.checkForBreak_keepsTrace _)
  revert h
  rw [idleStep_eq]
  dsimp only
  split
  · exact fun _ => hwoken.trans (.mapPending _ rfl)
  split
  · exact fun _ => hwoken
  · intro h
    exact hwoken.trans (Hosted.finishPass_keepsTrace (hwoken.respects hH) fun harms =>
      h (.grows_trans hwoken.grows harms))

theorem step_keepsTrace (hH : e.state.machine.hooks.Respects Registers.KeepsPending)
    (hphase : e.phase ≠ .opcode) (h : ¬ e.ArmsTrace) :
    KeepsTrace e.state.machine (e.step ControlInstructions.table).state.machine := by
  revert h
  simp only [ArmsTrace, step]
  split
  · exact absurd ‹_› hphase
  · exact specialStep_keepsTrace hH
  · exact idleStep_keepsTrace hH
  · exact fun _ => .refl _

theorem step_wanes (hH : e.state.machine.hooks.Respects Registers.KeepsPending)
    (h : ¬ e.ArmsTrace) :
    e.state.machine.regs.TraceWanes
      (e.step ControlInstructions.table).state.machine.regs := by
  by_cases hphase : e.phase = .opcode
  · rw [step_opcode _ hphase]
    exact (opcodeStep_evolves (P := fun _ => True) Registers.kept_traceWanes (fun _ _ => trivial)
      (fun _ _ => trivial) (hH.mono fun _ _ => Registers.KeepsPending.traceWanes)
      fun _ _ => id).regs
  · exact fun hdue => ((step_keepsTrace hH hphase h).due.mp hdue).1

theorem opcodeStep_traces (e : Execution β σ η) :
    (e.opcodeStep ControlInstructions.table).state.machine.traces = e.state.machine.traces :=
  (opcodeStep_evolves Registers.kept_true (fun _ => Event.isTrace_of_ofHost)
    (fun _ => Event.isTrace_of_ofOpcode) (Registry.respects_true _) fun _ _ => trivial).traces

theorem dueInterrupt_untraced (s : Hosted β σ η) :
    Machine.Evolves (fun e => e.isTrace = false) (fun _ _ => True) s.machine
      s.dueInterrupt.machine :=
  Hosted.dueInterrupt_evolves Registers.kept_true (Event.of_talk fun _ => Event.isTrace_of_ofHost)
    (fun _ => Event.isTrace_of_ofInterrupt) (fun _ => trivial) (fun _ => trivial)
    (Registry.respects_true _)

theorem idleStep_traces (watch : Watchdog) (e : Execution β σ η) :
    (e.idleStep watch).state.machine.traces = e.state.machine.traces := by
  have hidle := Hosted.idleInterrupt_evolves (s := (e.ticked watch).2) Registers.kept_true
    (Event.of_talk fun _ => Event.isTrace_of_ofHost) (fun _ => Event.isTrace_of_ofInterrupt)
    (fun _ => trivial) (fun _ => trivial) (Registry.respects_true _)
  exact (idleStep_evolves Registers.kept_true (fun _ => Event.isTrace_of_ofHost) (fun _ => rfl) rfl
    (fun _ => trivial) (fun _ _ => trivial) hidle fun t _ => dueInterrupt_untraced t).traces

theorem specialStep_traces (e : Execution β σ η) :
    e.specialStep.state.machine.traces = e.state.machine.traces ∨
      (e.state.machine.regs.pending.traceDue && !e.state.machine.regs.pending.stop) = true ∧
        e.specialStep.state.machine.traces = e.state.machine.traces + 1 := by
  have hK := Registers.kept_true
  have hprobed := probed_talks (P := fun e => e.isTrace = false)
    (Event.of_talk fun _ => Event.isTrace_of_ofHost) e
  have hfinish : e.traced.finishPass.2.machine.traces = e.traced.machine.traces :=
    (Hosted.finishPass_evolves hK (Event.of_talk fun _ => Event.isTrace_of_ofHost) (fun _ => rfl)
      (fun _ => trivial) (fun _ => trivial) fun t _ => dueInterrupt_untraced t).traces
  have hidle : e.traced.enterIdle.2.machine.traces = e.traced.machine.traces :=
    ((Hosted.enterIdle_talks (Event.of_aside fun _ => Event.isTrace_of_ofHost) e.traced).1.evolves
      hK.toKeptByException).traces
  have htraced : e.traced.machine.traces = e.state.machine.traces ∨
      (e.state.machine.regs.pending.traceDue && !e.state.machine.regs.pending.stop) = true ∧
        e.traced.machine.traces = e.state.machine.traces + 1 := by
    have htaken : e.traced.machine.traces = _ := Machine.traceIfDue_traces e.probed.2.machine
    rw [hprobed.rests.traceDue, hprobed.rests.stop,
      (hprobed.1.evolves hK.toKeptByException).traces] at htaken
    split at htaken
    · exact .inr ⟨‹_›, htaken⟩
    · exact .inl htaken
  rw [specialStep_eq]
  split
  · have hnested : Machine.Evolves (fun e => e.isTrace = false) (fun _ _ => True) e.state.machine
        e.state.isNested.2.checkForBreak.2.machine :=
      .trans hK (.log hK _ rfl) (Hosted.checkForBreak_evolves hK
        (Event.of_talk fun _ => Event.isTrace_of_ofHost) (fun _ => trivial) e.state.isNested.2)
    exact .inl hnested.traces
  split
  · exact .inl (hprobed.1.evolves hK.toKeptByException).traces
  split
  · rw [← hidle] at htraced
    exact htraced
  · rw [← hfinish] at htraced
    exact htraced

theorem step_traces_le (e : Execution β σ η) :
    (e.step ControlInstructions.table).state.machine.traces ≤ e.state.machine.traces + 1 := by
  simp only [step]
  split
  · rw [opcodeStep_traces]
    omega
  · have hspecial := specialStep_traces e
    omega
  · rw [idleStep_traces]
    omega
  · omega

namespace FiresTrace

theorem due (h : e.FiresTrace) :
    e.phase = .special ∧ e.state.machine.regs.pending.traceDue = true ∧
      e.state.machine.regs.pending.stop = false := by
  simp only [FiresTrace, step] at h
  split at h
  · exact absurd (opcodeStep_traces e) (Nat.ne_of_gt h)
  · refine ⟨‹_›, ?_⟩
    obtain hsame | ⟨hdue, -⟩ := specialStep_traces e
    · exact absurd hsame (Nat.ne_of_gt h)
    · simpa using hdue
  · exact absurd (idleStep_traces _ e) (Nat.ne_of_gt h)
  · exact absurd h (Nat.lt_irrefl _)

theorem isPass (h : e.FiresTrace) (hH : e.state.machine.hooks.Respects Registers.KeepsPending) :
    e.IsPass := by
  obtain ⟨hphase, -, hstop⟩ := h.due
  refine ⟨hphase, fun watch => ?_⟩
  have hended : ∀ outcome : Bool × Hosted β σ η, (endPass e.watch outcome).phase ≠ .idle watch := by
    intro outcome
    simp only [endPass]
    split <;> exact Phase.noConfusion
  have htraced : e.traced.machine.regs.pending.stop = false :=
    (traced_stop (hH.mono fun _ _ => Registers.KeepsPending.keepsStop)).trans hstop
  rw [step_special _ hphase, specialStep_eq]
  split
  · exact hended _
  split
  · exact Phase.noConfusion
  split
  · exact absurd ‹_› (by simp [htraced])
  · exact hended _

end FiresTrace

variable {s : Hosted β σ η}

/-- A pass that takes the trace exception leaves it due only by arming it again. -/
def ClearsTrace (s : Hosted β σ η) : Prop :=
  ∀ n, (execute ControlInstructions.table n s).FiresTrace →
    (execute ControlInstructions.table (n + 1) s).state.machine.regs.pending.traceDue = true →
    (execute ControlInstructions.table n s).ArmsTrace

/-- No arming is followed by two trace exceptions: over any steps of the call of which none but the
last one arms it, at most one is taken. In the last one the trace exception comes first. -/
structure TraceFiresOnce (s : Hosted β σ η) : Prop where
  once : ∀ i j, i ≤ j →
    (∀ k, i ≤ k → k < j → ¬ (execute ControlInstructions.table k s).ArmsTrace) →
    (execute ControlInstructions.table (j + 1) s).state.machine.traces ≤
      (execute ControlInstructions.table i s).state.machine.traces + 1
  cleared : ClearsTrace s

theorem execute_wanes (hH : s.machine.hooks.Respects Registers.KeepsPending) {i j : Nat}
    (hij : i ≤ j)
    (hunarmed : ∀ k, i ≤ k → k < j → ¬ (execute ControlInstructions.table k s).ArmsTrace) :
    (execute ControlInstructions.table i s).state.machine.regs.TraceWanes
      (execute ControlInstructions.table j s).state.machine.regs := by
  induction hij with
  | refl => exact id
  | @step j hij ih =>
    have hstep := step_wanes ((execute_continues s j).respects hH)
      (hunarmed j hij (Nat.lt_succ_self j))
    rw [← execute_succ] at hstep
    exact fun hdue => ih (fun k hik hkj => hunarmed k hik (Nat.lt_succ_of_lt hkj)) (hstep hdue)

theorem execute_traces {i j : Nat} (hij : i ≤ j)
    (hunfired : ∀ k, i ≤ k → k < j → ¬ (execute ControlInstructions.table k s).FiresTrace) :
    (execute ControlInstructions.table j s).state.machine.traces ≤
      (execute ControlInstructions.table i s).state.machine.traces := by
  induction hij with
  | refl => exact Nat.le_refl _
  | @step j hij ih =>
    have hstep := Nat.le_of_not_lt (hunfired j hij (Nat.lt_succ_self j))
    rw [← execute_succ] at hstep
    exact Nat.le_trans hstep (ih fun k hik hkj => hunfired k hik (Nat.lt_succ_of_lt hkj))

theorem ClearsTrace.not_fires (hcleared : ClearsTrace s)
    (hH : s.machine.hooks.Respects Registers.KeepsPending) {i j : Nat} (hij : i < j)
    (hfires : (execute ControlInstructions.table i s).FiresTrace)
    (hunarmed : ∀ k, i ≤ k → k < j → ¬ (execute ControlInstructions.table k s).ArmsTrace) :
    ¬ (execute ControlInstructions.table j s).FiresTrace := by
  intro hagain
  have hwanes := execute_wanes (s := s) hH (Nat.succ_le_of_lt hij) fun k hik hkj =>
    hunarmed k (Nat.le_of_succ_le hik) hkj
  exact hunarmed i (Nat.le_refl i) hij (hcleared i hfires (hwanes hagain.due.2.1))

theorem ClearsTrace.fires_once (hcleared : ClearsTrace s)
    (hH : s.machine.hooks.Respects Registers.KeepsPending) {i j : Nat} (hij : i ≤ j)
    (hunarmed : ∀ k, i ≤ k → k < j → ¬ (execute ControlInstructions.table k s).ArmsTrace) :
    (execute ControlInstructions.table (j + 1) s).state.machine.traces ≤
      (execute ControlInstructions.table i s).state.machine.traces + 1 := by
  induction hij with
  | refl =>
    rw [execute_succ]
    exact step_traces_le _
  | @step j hij ih =>
    by_cases hfires : (execute ControlInstructions.table (j + 1) s).FiresTrace
    · -- What is taken in the last step was not taken before.
      have hbefore := execute_traces (s := s) (Nat.le_succ_of_le hij) fun k hik hkj hk =>
        hcleared.not_fires hH hkj hk (fun l hkl => hunarmed l (Nat.le_trans hik hkl)) hfires
      have hstep := step_traces_le (execute ControlInstructions.table (j + 1) s)
      rw [← execute_succ] at hstep
      exact Nat.le_trans hstep (Nat.succ_le_succ hbefore)
    · have hstep := Nat.le_of_not_lt hfires
      rw [← execute_succ] at hstep
      exact Nat.le_trans hstep (ih fun k hik hkj => hunarmed k hik (Nat.lt_succ_of_lt hkj))

theorem FiresTrace.due_after_iff (hfires : e.FiresTrace)
    (hH : e.state.machine.hooks.Respects Registers.KeepsPending) (hunarmed : ¬ e.ArmsTrace) :
    (e.step ControlInstructions.table).state.machine.regs.pending.traceDue = true ↔
      ¬ e.EntersHandler := by
  obtain ⟨hphase, hdue, -⟩ := hfires.due
  have hkeeps := step_keepsTrace hH (by simp [hphase]) hunarmed
  rw [hkeeps.due, hdue]
  simp [EntersHandler]

theorem clearsTrace_iff (hH : s.machine.hooks.Respects Registers.KeepsPending) :
    ClearsTrace s ↔ ∀ n, (execute ControlInstructions.table n s).FiresTrace →
      (execute ControlInstructions.table n s).ArmsTrace ∨
        (execute ControlInstructions.table n s).EntersHandler := by
  refine forall_congr' fun n => imp_congr_right fun hfires => ?_
  by_cases harms : (execute ControlInstructions.table n s).ArmsTrace
  · simp [harms]
  · rw [execute_succ, hfires.due_after_iff ((execute_continues s n).respects hH) harms]
    simp [harms]

/-- With exception hooks that leave the conditions alone: no arming is followed by two trace
exceptions, and no pass leaves the one it took due, if and only if every pass that takes the trace
exception arms it again or takes some exception into its handler. Such a pass is always one step. -/
theorem trace_fires_once_iff (hooks : s.machine.hooks.Respects Registers.KeepsPending) :
    (TraceFiresOnce s ↔ ∀ n, (execute ControlInstructions.table n s).FiresTrace →
      (execute ControlInstructions.table n s).ArmsTrace ∨
        (execute ControlInstructions.table n s).EntersHandler) ∧
      ∀ n, (execute ControlInstructions.table n s).FiresTrace →
        (execute ControlInstructions.table n s).IsPass := by
  rw [← clearsTrace_iff hooks]
  refine ⟨⟨fun h => h.cleared, fun h => ⟨fun i j => h.fires_once hooks, h⟩⟩, fun n hfires => ?_⟩
  exact hfires.isPass ((execute_continues s n).respects hooks)

def tracer : ExceptionHook Ram Unit := fun _ s => (true, s)

def singleStepped : Hosted Ram Unit Host.Stuck :=
  let ram := (Ram.ofSize 256).loadWords 0xA0 [0x4E71, 0x4E71, 0x4E71, 0x46FC, 0xA700]
  let m := Machine.ofSettings { Settings.default with exceptionHistory := 8 } ram ()
  let m := (m.setRegister .sp 0x100).setRegister .pc 0xA0
  ⟨((m.setRegister .sr 0xA700).installHook (.exception ExceptionVector.trace tracer)).2,
    { limit := 4 }⟩

theorem singleStepped_respects :
    singleStepped.machine.hooks.Respects Registers.KeepsPending := by
  intro v e he s
  by_cases hv : v = ExceptionVector.trace
  · subst hv
    have hentries : (singleStepped.machine.hooks.exception ExceptionVector.trace).entries =
        [⟨0, 0, tracer⟩] := rfl
    rw [hentries, List.mem_singleton] at he
    rw [he]
    rfl
  · have hempty : singleStepped.machine.hooks.exception v = .empty := if_neg hv
    rw [hempty] at he
    cases he

theorem armsTrace_iff (s : Hosted β σ η) (n : Nat) :
    (execute ControlInstructions.table n s).ArmsTrace ↔
      ((execute ControlInstructions.table (n + 1) s).state.machine.journal.take
        ((execute ControlInstructions.table (n + 1) s).state.machine.journal.length -
          (execute ControlInstructions.table n s).state.machine.journal.length)).any
        Event.armsTrace = true := by
  rw [ArmsTrace, ← execute_succ]
  exact Machine.Logged.iff_any (execute_succ_continues s n).grows

theorem singleStepped_arms :
    ∀ k < 8, (execute ControlInstructions.table k singleStepped).ArmsTrace ↔ k = 1 ∨ k = 7 := by
  simp only [armsTrace_iff]
  decide +kernel

theorem singleStepped_traces :
    (execute ControlInstructions.table 2 singleStepped).state.machine.traces = 0 ∧
      (execute ControlInstructions.table 7 singleStepped).state.machine.traces = 2 := by
  decide +kernel

theorem not_traceFiresOnce_singleStepped : ¬ TraceFiresOnce singleStepped := by
  intro h
  have hunarmed : ∀ k, 2 ≤ k → k < 6 →
      ¬ (execute ControlInstructions.table k singleStepped).ArmsTrace := by
    intro k _ _ harms
    have hk := (singleStepped_arms k (by omega)).mp harms
    omega
  have honce := h.once 2 6 (by omega) hunarmed
  rw [show 6 + 1 = 7 from rfl, singleStepped_traces.1, singleStepped_traces.2] at honce
  omega

theorem trace_fires_once_iff_singleStepped :
    singleStepped.machine.hooks.Respects Registers.KeepsPending ∧
      ∃ n, (execute ControlInstructions.table n singleStepped).FiresTrace ∧
        ¬ (execute ControlInstructions.table n singleStepped).ArmsTrace ∧
          ¬ (execute ControlInstructions.table n singleStepped).EntersHandler := by
  refine ⟨singleStepped_respects, ?_⟩
  obtain ⟨hiff, -⟩ := trace_fires_once_iff singleStepped_respects
  simpa [not_or] using fun h => not_traceFiresOnce_singleStepped (hiff.mpr h)

/-- An arming is not always used up by one trace exception. This call is not nested; its passes at
steps 1 and 7 arm the trace exception, none in between does, and two trace exceptions are taken in
between. -/
theorem trace_fires_again :
    singleStepped.machine.hooks.Respects Registers.KeepsPending ∧
      (∀ n, Host.isNested (execute ControlInstructions.table n singleStepped).state.host = false) ∧
      (∀ k < 8,
        (execute ControlInstructions.table k singleStepped).ArmsTrace ↔ k = 1 ∨ k = 7) ∧
      (execute ControlInstructions.table 2 singleStepped).state.machine.traces = 0 ∧
      (execute ControlInstructions.table 7 singleStepped).state.machine.traces = 2 ∧
      ¬ TraceFiresOnce singleStepped :=
  ⟨singleStepped_respects, fun _ => rfl, singleStepped_arms, singleStepped_traces.1,
    singleStepped_traces.2, not_traceFiresOnce_singleStepped⟩

end Execution
end Mc68000
