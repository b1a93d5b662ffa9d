import Mc68000.Proofs.Calls
import Mc68000.Proofs.Outcome
import Mc68000.Proofs.Stopping
import Mc68000.Proofs.TraceArming

/-!
# When the trace exception is taken

A pass arms the trace exception, the next opcode is executed, and the pass after it takes the
exception. The opcode in between can still cancel it: by an exception of its own, by loading a
status word that does not trace, and by stopping the processor.
-/

namespace Mc68000

namespace Event

theorem armsTrace_of_ofHost {e : Event} (h : e.ofHost = true) : e.armsTrace = false := by
  cases e <;> simp_all [ofHost, armsTrace]

theorem armsTrace_of_ofOpcode {e : Event} (h : e.ofOpcode = true) : e.armsTrace = false := by
  cases e <;> simp_all [ofOpcode, ofInstruction, ofFault, ofException, armsTrace]

theorem vector?_of_ofHost {e : Event} (h : e.ofHost = true) : e.vector? = none := by
  cases e <;> simp_all [ofHost, vector?]

end Event

namespace Machine
variable {β σ : Type} {m m₁ m₂ : Machine β σ} {loaded loaded₁ : List UInt16}

def Spares (loaded : List UInt16) (m m' : Machine β σ) : Prop :=
  ∃ vs, Shows Event.vector? m m' vs ∧
    (m'.regs.pending.traceDue = true ↔
      m.regs.pending.traceDue = true ∧ vs = [] ∧ ∀ sr ∈ loaded, (Status.ofWord sr).traces = true)

namespace Spares

theorem trans (h : Spares loaded m m₁) (h₁ : Spares loaded₁ m₁ m₂) :
    Spares (loaded ++ loaded₁) m m₂ := by
  obtain ⟨vs, hshows, hdue⟩ := h
  obtain ⟨vs₁, hshows₁, hdue₁⟩ := h₁
  refine ⟨vs ++ vs₁, hshows.trans hshows₁, ?_⟩
  rw [hdue₁, hdue, List.append_eq_nil_iff, List.forall_mem_append]
  constructor
  · rintro ⟨⟨hdue, hvs, hsr⟩, hvs₁, hsr₁⟩
    exact ⟨hdue, ⟨hvs, hvs₁⟩, hsr, hsr₁⟩
  · rintro ⟨hdue, ⟨hvs, hvs₁⟩, hsr, hsr₁⟩
    exact ⟨⟨hdue, hvs, hsr⟩, hvs₁, hsr₁⟩

theorem of_ordinary (h : Ordinary m m₁) : Spares [] m m₁ :=
  ⟨[], h.shows, by simp [h.regs.pending]⟩

theorem of_evolves {R : Registers → Registers → Prop}
    (h : Evolves (fun e => e.vector? = none) R m m₁)
    (hdue : m₁.regs.pending.traceDue = m.regs.pending.traceDue) : Spares [] m m₁ :=
  ⟨[], .of_evolves h, by simp [hdue]⟩

theorem of_exceptions {vs : List ExceptionVector} (hshows : Shows Event.vector? m m₁ vs)
    (hvs : vs ≠ []) (hdue : m₁.regs.pending.traceDue = false) : Spares [] m m₁ :=
  ⟨vs, hshows, by simp [hdue, hvs]⟩

theorem load (m : Machine β σ) (sr : UInt16) {m₁ : Machine β σ}
    (hregs : m₁.regs.pending.traceDue = (m.regs.loadStatus sr).pending.traceDue)
    (hjournal : m₁.journal = m.journal) : Spares [sr] m m₁ :=
  ⟨[], ⟨[], hjournal, rfl⟩, by simp [hregs, Registers.traceDue_loadStatus]⟩

theorem due_iff (h : Spares loaded m m₁) :
    m₁.regs.pending.traceDue = true ↔ m.regs.pending.traceDue = true ∧
      ¬ Logged (fun e => e.isException) m m₁ ∧
      ∀ sr ∈ loaded, (Status.ofWord sr).traces = true := by
  obtain ⟨vs, hshows, hdue⟩ := h
  rw [hdue, hshows.exception_iff, not_ne_iff]

end Spares

variable [Bus β]

theorem traceDue_takeException (hH : m.hooks.NoInterceptors) (v : ExceptionVector) :
    (m.takeException v).regs.pending.traceDue = false := by
  rw [takeException_of_noInterceptors hH]
  rfl

theorem takeException_spares (hH : m.hooks.NoInterceptors) (v : ExceptionVector) :
    Spares [] m (m.takeException v) :=
  .of_exceptions (takeException_shows (fun _ => Event.vector?_of_ofEntry) m v)
    (List.cons_ne_nil v []) (traceDue_takeException hH v)

theorem raiseFault_spares (hH : m.hooks.NoInterceptors) (f : Fault) :
    Spares [] m (m.raiseFault f) := by
  let reported : Machine β σ := { m.takeFault.2 with lastFault := some f }.log (.fault f)
  have hentered : (reported.takeException f.kind.vector).regs.pending.traceDue = false :=
    traceDue_takeException (m := reported) hH f.kind.vector
  refine .of_exceptions (m.raiseFault_shows_vector f) (List.cons_ne_nil _ _) ?_
  rw [raiseFault_eq]
  split <;> exact hentered

theorem deliverFault_spares (hH : m.hooks.NoInterceptors) : Spares [] m m.deliverFault := by
  have hasked : Spares [] m m.takeFault.2 := .of_ordinary (takeFault_ordinary m)
  rw [deliverFault_eq]
  split
  · exact hasked
  · exact hasked.trans (raiseFault_spares (m := m.takeFault.2) hH _)

theorem outcome_spares {sr? : Option UInt16} (h : ControlInstructions.Outcome m sr? m₁)
    (hH : m.hooks.NoInterceptors) : Spares sr?.toList m m₁ := by
  cases h with
  | ordinary h => exact .of_ordinary h
  | exception h v => exact (Spares.of_ordinary h).trans (takeException_spares (h.hooks ▸ hH) v)
  | @load n _ h sr h' =>
    have hload : Spares [sr] n (n.mapRegs fun r => r.loadStatus sr) := .load n sr rfl rfl
    exact ((Spares.of_ordinary h).trans hload).trans (.of_ordinary h')
  | @stop n h sr => exact (Spares.of_ordinary h).trans (.load n sr rfl rfl)

theorem executeOpcode_spares (hH : m.hooks.NoInterceptors) :
    Spares m.loadedStatus.toList m (m.executeOpcode ControlInstructions.table) := by
  have hfetch := fetchOpcode_ordinary m
  have hH₁ : m.fetchOpcode.2.takeFault.2.hooks.NoInterceptors := hfetch.hooks ▸ hH
  rw [executeOpcode_eq, loadedStatus]
  cases m.fetchOpcode.2.takeFault.1 with
  | some f =>
    have hback : Ordinary m.fetchOpcode.2.takeFault.2 (m.fetchOpcode.2.takeFault.2.setPc
        (m.fetchOpcode.2.takeFault.2.regs.pc - 2)) := .of_parts (.of_program ..) rfl rfl
    exact (Spares.of_ordinary (hfetch.trans hback)).trans
      (raiseFault_spares (hback.hooks ▸ hH₁) f)
  | none =>
    have hdispatch := outcome_spares (ControlInstructions.dispatch_outcome m.fetchOpcode.1 _) hH₁
    have hdone := ((Spares.of_ordinary hfetch).trans hdispatch).trans
      (.of_ordinary (dispatched_ordinary ControlInstructions.table m.fetchOpcode.1 _))
    have hhooks := (dispatched_evolves (P := fun _ => True) Registers.kept_true
      (fun _ _ => trivial) (fun _ _ => trivial) (Registry.respects_true _) m.fetchOpcode.1
      (m := m.fetchOpcode.2.takeFault.2) fun _ _ _ => trivial).hooks
    simpa using hdone.trans (deliverFault_spares (hhooks ▸ hH₁))

omit [Bus β] in
theorem Grows.traces_le (h : Grows m m₁) : m.traces ≤ m₁.traces := by
  obtain ⟨es, hj⟩ := h
  rw [traces, traces, hj, List.countP_append]
  omega

/-- No address but that of the opcode to be traced is recorded while the trace exception is due. -/
def Marked (m : Machine β σ) : Prop :=
  m.regs.pending.traceDue = true → m.lastTraceAddress = m.regs.pc

omit [Bus β] in
theorem Marked.of_rests {P : Event → Prop} {R : Registers → Registers → Prop} (h : m.Marked)
    (hevolves : Evolves P R m m₁) (hP : ∀ e, P e → e.armsTrace = false)
    (hrests : m.regs.Rests m₁.regs) : m₁.Marked := by
  intro hdue
  rw [hevolves.traceAddress hP, hrests.pc]
  exact h (hrests.traceDue ▸ hdue)

omit [Bus β] in
theorem Marked.of_not_due (h : m.regs.pending.traceDue = false) : m.Marked := by
  intro hdue
  rw [h] at hdue
  cases hdue

omit [Bus β] in
theorem armTrace_marked (h : m.regs.pending.traceDue = false) : m.armTrace.Marked := by
  simp only [armTrace]
  split
  · exact fun _ => rfl
  · exact .of_not_due h

end Machine

namespace Hosted
variable {β σ η : Type} [Host η] [Bus β] {s : Hosted β σ η}
open Machine (Marked)

theorem acceptInterrupt_traceDue {m : Machine β σ} (hH : m.hooks.NoInterceptors)
    {wake : Registers → Registers} (hwake : ∀ r, (wake r).pending.traceDue = r.pending.traceDue)
    (base : UInt8) {level : UInt8} (hlevel : Machine.isInterruptLevel level = true) :
    (acceptInterrupt wake base level m).regs.pending.traceDue = false := by
  let logged := m.log (.interrupt base level m.regs.status.mask)
  have htaken : (logged.takeException (base + level)).regs.pending.traceDue = false :=
    Machine.traceDue_takeException (m := logged) hH _
  have hhooks : (logged.takeException (base + level)).hooks.NoInterceptors := by
    rw [(Machine.takeException_continues logged (base + level)).hooks]
    exact hH
  rw [acceptInterrupt_eq wake base hlevel]
  generalize logged.takeException (base + level) = taken at htaken hhooks ⊢
  have hwoken : (interruptTaken wake level taken).regs.pending.traceDue = false :=
    (hwake _).trans htaken
  have hfault : Machine.Evolves (fun _ => True) Registers.TraceWanes
      (interruptTaken wake level taken) (interruptTaken wake level taken).deliverFault :=
    Machine.deliverFault_evolves Registers.kept_traceWanes.toKeptByException (fun _ _ => trivial)
      (hhooks.respects _)
  exact Bool.eq_false_iff.mpr fun hdue => Bool.eq_false_iff.mp hwoken (hfault.regs hdue)

theorem answerInterrupt_traceDue (hooks : s.machine.hooks.NoInterceptors) (habove : s.AboveMask)
    (use : Pending → Pending) {wake : Registers → Registers}
    (hwake : ∀ r, (wake r).pending.traceDue = r.pending.traceDue) :
    (s.answerInterrupt use wake).machine.regs.pending.traceDue = false := by
  obtain ⟨level, hl, hm⟩ := habove
  have hasked : (s.askBase use).2.machine.hooks.NoInterceptors := hooks
  rw [answerInterrupt_of_above hl hm]
  exact acceptInterrupt_traceDue hasked hwake _ (isInterruptLevel_of_pending hl)

theorem finishPass_marked (hooks : s.machine.hooks.NoInterceptors)
    (h : s.machine.regs.pending.traceDue = false) : s.finishPass.2.machine.Marked := by
  have hK := Registers.kept_true
  let armed := s.map Machine.armTrace
  have harmed : armed.machine.Marked := Machine.armTrace_marked h
  have harms : Machine.Continues s.machine armed.machine :=
    Machine.armTrace_evolves hK.toKeptByException (fun _ => trivial) fun _ => trivial
  have hhooks : armed.machine.hooks.NoInterceptors := harms.hooks ▸ hooks
  have hdue : armed.dueInterrupt.machine.Marked := by
    by_cases hinterrupt : armed.InterruptDue
    · refine .of_not_due ?_
      rw [dueInterrupt_eq, if_pos (by simp [hinterrupt.1, hinterrupt.2.1])]
      exact answerInterrupt_traceDue hhooks hinterrupt.2.2 dueUsed fun _ => rfl
    · exact harmed.of_rests (dueInterrupt_evolves_of_not_due hK.toKeptByException
        (Event.of_talk fun _ => Event.armsTrace_of_ofHost) (fun _ => trivial) hinterrupt)
        (fun _ he => he) (dueInterrupt_rests_of_not_due hinterrupt)
  have hinterrupted : s.interrupted.machine.Marked :=
    hdue.of_rests (Machine.promoteInterrupt_evolves (P := fun e => e.armsTrace = false)
      hK.toKeptByException hK.interruptDue _)
      (fun _ he => he) (Machine.promoteInterrupt_rests _)
  have hlate := hinterrupted.of_rests (lateEndOfCycle_evolves hK.toKeptByHousekeeping
    (Event.of_talk fun _ => Event.armsTrace_of_ofHost) _) (fun _ he => he) (lateEndOfCycle_rests _)
  rw [finishPass_eq]
  split
  · exact hlate
  · exact hlate.of_rests (checkForBreak_evolves hK.toKeptByException
      (Event.of_talk fun _ => Event.armsTrace_of_ofHost) (fun _ => trivial) _) (fun _ he => he)
      (checkForBreak_rests _)

end Hosted

namespace Registers

def TracesIfDue (r : Registers) : Prop :=
  r.pending.traceDue = true → r.status.traces = true

theorem TracesIfDue.of_eq {r r' : Registers} (h : r.TracesIfDue)
    (hdue : r'.pending.traceDue = r.pending.traceDue)
    (hstatus : r'.status.traces = r.status.traces) : r'.TracesIfDue := by
  rw [TracesIfDue, hdue, hstatus]
  exact h

theorem tracesIfDue_loadStatus (r : Registers) (w : UInt16) : (r.loadStatus w).TracesIfDue := by
  intro hdue
  rw [traceDue_loadStatus, Bool.and_eq_true] at hdue
  rw [status_loadStatus]
  exact hdue.2

theorem keptByStep_tracesIfDue : KeptByStep fun r r' => r.TracesIfDue → r'.TracesIfDue where
  refl _ := id
  trans hab hbc h := hbc (hab h)
  pc _ _ := id
  address _ _ _ _ := id
  pack _ := id
  supervisor r h := by
    refine h.of_eq (by rw [pending_enterSupervisor]) ?_
    unfold enterSupervisor swapStacks
    split <;> rfl
  dropTrace _ _ hdue := by cases hdue
  breakRequest _ := id
  interruptCheck _ := id
  endOfCycle _ _ := id
  load r w _ := tracesIfDue_loadStatus r w
  mask _ _ := id
  interruptDue _ := id
  stopped _ := id
  armed r harms _ _ := by
    rw [Bool.and_eq_true] at harms
    simp [Status.traces, mapPending, harms.2]
  breakTaken _ := id
  dueUsed _ := id
  interruptUsed _ := id
  released _ := id
  wakened _ := id

end Registers

namespace Execution
variable {β σ η : Type} [Host η] [Bus β] {e : Execution β σ η}
open Machine (Logged Marked Shows Spares)

def executed (e : Execution β σ η) : Machine β σ :=
  e.ready.2.machine.executeOpcode ControlInstructions.table

theorem opcodeStep_spares (hooks : e.state.machine.hooks.NoInterceptors) :
    Spares e.ready.2.machine.loadedStatus.toList e.state.machine
      (e.opcodeStep ControlInstructions.table).state.machine := by
  have hK := Registers.kept_true
  have hevolves := ready_evolves hK.toKeptByException (fun _ => Event.vector?_of_ofHost) e
  have hready : Spares [] e.state.machine e.ready.2.machine := by
    obtain ⟨sr, hregs⟩ := e.ready_regs
    exact .of_evolves hevolves (by rw [hregs])
  have hcycle : Spares [] e.executed (e.opcodeStep ControlInstructions.table).state.machine :=
    .of_evolves (Hosted.cycle_evolves hK.toKeptByHousekeeping
      (Event.of_talk fun _ => Event.vector?_of_ofHost)
      (e.ready.2.map (Machine.executeOpcode ControlInstructions.table)) false)
      (Hosted.cycle_rests _ false).traceDue
  have hdone := Machine.executeOpcode_spares (m := e.ready.2.machine) (hevolves.hooks ▸ hooks)
  simpa using (hready.trans hdone).trans hcycle

theorem traced_traceDue (hooks : e.state.machine.hooks.NoInterceptors)
    (hstop : e.state.machine.regs.pending.stop = false) :
    e.traced.machine.regs.pending.traceDue = false := by
  have hprobed := probed_talks (P := fun _ => True) (fun _ _ => trivial) e
  have hhooks : e.probed.2.machine.hooks.NoInterceptors := hprobed.continues.hooks ▸ hooks
  have hawake : e.probed.2.machine.regs.pending.stop = false := hprobed.rests.stop.trans hstop
  let taken := (e.probed.2.machine.log .trace).takeException ExceptionVector.trace
  have htaken : taken.regs.pending.traceDue = false :=
    Machine.traceDue_takeException (m := e.probed.2.machine.log .trace) hhooks _
  have hfault := Machine.deliverFault_spares (m := taken)
    ((Machine.takeException_continues (e.probed.2.machine.log .trace) _).hooks ▸ hhooks)
  show e.probed.2.machine.traceIfDue.regs.pending.traceDue = false
  simp only [Machine.traceIfDue]
  split
  · exact Bool.eq_false_iff.mpr fun hdue => by
      rw [hfault.due_iff, htaken] at hdue
      cases hdue.1
  · simp_all

theorem woken_traceDue (hooks : e.state.machine.hooks.NoInterceptors)
    (hstop : e.state.machine.regs.pending.stop = true) {watch : Watchdog}
    (hawake : (e.woken watch).2.machine.regs.pending.stop = false) :
    (e.woken watch).2.machine.regs.pending.traceDue = false := by
  obtain ⟨hlook, habove⟩ := (woken_stop_iff (hooks.respects _) hstop watch).mp hawake
  have hhooks : (e.ticked watch).2.machine.hooks.NoInterceptors :=
    (ticked_continues watch e).hooks ▸ hooks
  rw [woken, (Hosted.checkForBreak_rests _).traceDue, Hosted.idleInterrupt_eq,
    if_pos (by simpa using hlook)]
  exact Hosted.answerInterrupt_traceDue hhooks habove _ fun _ => rfl

theorem EndsPass.marked (hends : e.EndsPass) (hooks : e.state.machine.hooks.NoInterceptors)
    (hidle : e.IdlesStopped) (hpass : e.Unhindered)
    (hstop : (e.step ControlInstructions.table).state.machine.regs.pending.stop = false) :
    (e.step ControlInstructions.table).state.machine.Marked := by
  obtain ⟨hopcode, hreturned, hend⟩ := hends
  cases hphase : e.phase with
  | opcode => exact absurd hphase hopcode
  | returned => exact absurd hphase hreturned
  | special =>
    -- The pass begins by taking a trace exception that is due, so what is due at its end it has
    -- armed itself.
    obtain ⟨hnested, hstay⟩ := hpass hphase
    rw [step_special _ hphase, specialStep_of_stay hnested hstay] at hend hstop ⊢
    split at hend
    · obtain hend | hend := hend <;> cases hend
    · rename_i hawake
      rw [if_neg hawake] at hstop ⊢
      have hstopped := traced_stop (e := e) (hooks.respects _)
      rw [Bool.not_eq_true, hstopped] at hawake
      exact Hosted.finishPass_marked ((traced_continues e).hooks ▸ hooks)
        (traced_traceDue hooks hawake)
  | idle watch =>
    -- Only an interrupt ends the stop, and its exception drops what is due.
    have hwoken : ∀ hawake, (e.woken watch).2.machine.regs.pending.traceDue = false :=
      woken_traceDue hooks (hidle watch hphase)
    have hhooks : (e.woken watch).2.machine.hooks.NoInterceptors :=
      (woken_continues watch e).hooks ▸ hooks
    rw [step_idle _ hphase, idleStep_eq, ← woken] at hend hstop ⊢
    dsimp only at hend hstop ⊢
    split at hend
    · rename_i hleave
      rw [if_pos hleave] at hstop ⊢
      exact .of_not_due (hwoken hstop)
    rename_i hleave
    rw [if_neg hleave] at hstop ⊢
    split at hend
    · obtain hend | hend := hend <;> cases hend
    · rename_i hawake
      rw [if_neg hawake]
      exact Hosted.finishPass_marked hhooks (hwoken (Bool.eq_false_iff.mpr hawake))

theorem fires_of_due (hphase : e.phase = .special) (hpass : e.Unhindered)
    (hdue : e.state.machine.regs.pending.traceDue = true)
    (hstop : e.state.machine.regs.pending.stop = false) : e.FiresTrace := by
  obtain ⟨hnested, hstay⟩ := hpass hphase
  have hprobed := probed_talks (P := fun e => e.isTrace = false)
    (Event.of_talk fun _ => Event.isTrace_of_ofHost) e
  have htraced : e.traced.machine.traces = e.state.machine.traces + 1 := by
    have htaken : e.traced.machine.traces = _ := Machine.traceIfDue_traces e.probed.2.machine
    rw [hprobed.rests.traceDue, hprobed.rests.stop, hdue, hstop,
      (hprobed.1.evolves Registers.kept_true.toKeptByException).traces] at htaken
    exact htaken
  have hrest : Machine.Grows e.traced.machine e.specialStep.state.machine := by
    rw [specialStep_of_stay hnested hstay]
    split
    · exact (Hosted.enterIdle_talks (P := fun _ => True) (fun _ _ => trivial)
        e.traced).continues.grows
    · exact (Hosted.finishPass_continues _).grows
  rw [FiresTrace, step_special _ hphase, Nat.lt_iff_add_one_le, ← htraced]
  exact hrest.traces_le

/-- The opcode of the next step lets a trace exception that is due through: it takes no exception,
loads no status word without a trace bit, and is not a STOP that takes effect. -/
structure LetsTraceThrough (e : Execution β σ η) : Prop where
  unexceptional : ¬ Logged (fun e => e.isException) e.state.machine
    (e.step ControlInstructions.table).state.machine
  loaded : ∀ sr, e.ready.2.machine.loadedStatus = some sr → (Status.ofWord sr).traces = true
  goesOn : ¬ e.ready.2.machine.ExecutesStop

def traceTaken (e : Execution β σ η) : Machine β σ :=
  (e.probed.2.machine.log .trace).takeException ExceptionVector.trace

/-- The pass takes the trace exception of this opcode. -/
structure TakesTraceOf (e opcode : Execution β σ η) : Prop where
  taken : e.traced.machine = e.traceTaken.deliverFault
  address : ∃ r, Shows Event.fetch? opcode.state.machine e.state.machine [r] ∧
    e.traceTaken.lastTraceAddress = r.pc
  /-- The frame says where the opcode led and what status it left. -/
  stacked : ∃ frame : Entry β,
    e.traceTaken.bus = frame.entered e.state.machine.regs.vbr ∧
      frame.vector = ExceptionVector.trace ∧ frame.returnAddress = opcode.executed.regs.pc ∧
      frame.sr = opcode.executed.regs.status.toWord ∧ (Status.ofWord frame.sr).traces = true

theorem traceTaken_address (e : Execution β σ η) :
    e.traceTaken.lastTraceAddress = e.state.machine.lastTraceAddress := by
  have hK := Registers.kept_true.toKeptByException
  have hprobed := (probed_talks (Event.of_talk fun _ => Event.armsTrace_of_ofHost) e).1.evolves hK
  have htaken := Machine.takeException_evolves (P := fun e => e.armsTrace = false)
    (m := e.probed.2.machine.log .trace) hK (fun _ he => Event.armsTrace_of_ofOpcode
      (Event.ofOpcode_of_ofFault (Event.ofFault_of_ofException he)))
    (Registry.respects_true _) ExceptionVector.trace
  exact (htaken.traceAddress fun _ he => he).trans (hprobed.traceAddress fun _ he => he)

theorem traceTaken_bus (hooks : e.state.machine.hooks.NoInterceptors) :
    e.traceTaken.bus =
      (e.state.machine.entry ExceptionVector.trace).entered e.state.machine.regs.vbr := by
  have hprobed := probed_talks (P := fun _ => True) (fun _ _ => trivial) e
  have hhooks : e.probed.2.machine.hooks.NoInterceptors := hprobed.continues.hooks ▸ hooks
  have hregs : (e.probed.2.machine.log .trace).regs = e.state.machine.regs := hprobed.1.regs
  have hbus : (e.probed.2.machine.log .trace).bus = e.state.machine.bus := hprobed.1.bus
  rw [traceTaken, Machine.bus_takeException (m := e.probed.2.machine.log .trace) hhooks,
    Machine.entry, Machine.entry, hregs, hbus]

theorem takesTraceOf {opcode : Execution β σ η} (hopcode : opcode.phase = .opcode)
    (hooks : e.state.machine.hooks.NoInterceptors)
    (he : e = opcode.opcodeStep ControlInstructions.table)
    (hdue : e.state.machine.regs.pending.traceDue = true)
    (hstop : e.state.machine.regs.pending.stop = false)
    (hmarked : opcode.state.machine.lastTraceAddress = opcode.state.machine.regs.pc)
    (htraces : e.state.machine.regs.status.traces = true) : e.TakesTraceOf opcode where
  taken := by
    have hprobed := probed_talks (P := fun _ => True) (fun _ _ => trivial) e
    refine if_pos ?_
    rw [hprobed.rests.traceDue, hprobed.rests.stop, hdue, hstop]
    rfl
  address := by
    have hshows := step_shows opcode
    obtain ⟨sr, hready⟩ := opcode.ready_regs
    have hsame := (opcodeStep_evolves (e := opcode) (P := fun e => e.armsTrace = false)
      Registers.kept_true.toKeptByOpcode (fun _ => Event.armsTrace_of_ofHost)
      (fun _ => Event.armsTrace_of_ofOpcode) (Registry.respects_true _)
      fun _ _ => trivial).traceAddress fun _ he => he
    rw [if_pos hopcode, step_opcode _ hopcode, ← he] at hshows
    refine ⟨_, hshows, ?_⟩
    rw [traceTaken_address, he, hsame, hmarked, hready]
  stacked := by
    have hcycle := Hosted.cycle_rests
      (opcode.ready.2.map (Machine.executeOpcode ControlInstructions.table)) false
    have hpc : e.state.machine.regs.pc = opcode.executed.regs.pc := he ▸ hcycle.pc
    have hstatus : e.state.machine.regs.status = opcode.executed.regs.status :=
      he ▸ hcycle.status
    refine ⟨_, traceTaken_bus hooks, rfl, hpc, congrArg Status.toWord hstatus, ?_⟩
    simp only [Machine.entry, Status.ofWord_toWord]
    exact htraces

namespace IsRun
variable {e : Nat → Execution β σ η} (run : IsRun e)
include run

theorem idlesStopped (n : Nat) : (e n).IdlesStopped := by
  have hstart : ∀ s, (start s : Execution β σ η).IdlesStopped := by
    intro s watch hidle
    rw [start_phase] at hidle
    split at hidle <;> cases hidle
  cases n with
  | zero =>
    obtain ⟨s, hs⟩ := run.starts
    rw [hs]
    exact hstart s
  | succ n =>
    cases hphase : (e n).phase with
    | returned =>
      obtain ⟨s, -, hs⟩ := run.call hphase
      rw [hs]
      exact hstart s
    | opcode | special | idle watch =>
      rw [run.step (by simp [hphase])]
      exact step_idlesStopped _

theorem tracesIfDue (hooks : (e 0).state.machine.hooks.NoInterceptors)
    (hclear : (e 0).state.machine.regs.pending.traceDue = false) (n : Nat) :
    (e n).state.machine.regs.TracesIfDue := by
  have hK := Registers.keptByStep_tracesIfDue
  induction n with
  | zero =>
    intro hdue
    rw [hclear] at hdue
    cases hdue
  | succ n ih =>
    have hooks' : (e n).state.machine.hooks.NoInterceptors := run.hooks n ▸ hooks
    exact ((run.next n).evolves (P := fun _ => True) Registers.keptByStep_tracesIfDue
      (fun _ => trivial) (hooks'.respects _)).regs ih

theorem due_after_opcode (hooks : (e 0).state.machine.hooks.NoInterceptors) {m : Nat}
    (hpasses : ∀ k ≤ m, (e k).Unhindered) (hopcode : (e m).phase = .opcode) :
    (e (m + 1)).state.machine.regs.pending.traceDue = true ∧
        (e (m + 1)).state.machine.regs.pending.stop = false ↔
      (e m).state.machine.regs.pending.traceDue = true ∧ (e m).LetsTraceThrough := by
  have hooks' : (e m).state.machine.hooks.NoInterceptors := run.hooks m ▸ hooks
  have hawake := run.awake (hooks.respects _) (n := m)
    (fun k hk hphase => (hpasses k (Nat.le_of_lt hk) hphase).1) hopcode
  have hspares := opcodeStep_spares hooks'
  have hstop := opcodeStep_stop_iff hooks' hawake
  rw [run.opcode hopcode, hspares.due_iff, ← Bool.not_eq_true, hstop]
  constructor
  · rintro ⟨⟨hdue, hnone, hloaded⟩, hgoes⟩
    exact ⟨hdue, step_opcode _ hopcode ▸ hnone, by simpa using hloaded, hgoes⟩
  · rintro ⟨hdue, hnone, hloaded, hgoes⟩
    exact ⟨⟨hdue, step_opcode _ hopcode ▸ hnone, by simpa using hloaded⟩, hgoes⟩

theorem marked (hooks : (e 0).state.machine.hooks.NoInterceptors)
    (hclear : (e 0).state.machine.regs.pending.traceDue = false) {m : Nat}
    (hpasses : ∀ k ≤ m, (e k).Unhindered) (hopcode : (e m).phase = .opcode)
    (hdue : (e m).state.machine.regs.pending.traceDue = true) :
    (∃ k, FollowsPass e k m ∧ (e (k + 1)).state.machine.regs.pending.traceDue = true) ∧
      (e m).state.machine.Marked := by
  have hawake := run.awake (hooks.respects _) (n := m)
    (fun k hk hphase => (hpasses k (Nat.le_of_lt hk) hphase).1) hopcode
  obtain rfl | hempty | ⟨k, hfollows⟩ := run.before_opcode hopcode
  · rw [hclear] at hdue
    cases hdue
  · simp [Pending.isEmpty, hdue] at hempty
  · have hrests := run.follows_rests hfollows
    have hk : k ≤ m := by
      have := hfollows.next
      omega
    have hends := hfollows.ends
    have hstep := run.step hends.2.1
    have hstop : (e (k + 1)).state.machine.regs.pending.stop = false :=
      hrests.stop.symm.trans hawake
    have hmarked := hends.marked (run.hooks k ▸ hooks) (run.idlesStopped k) (hpasses k hk)
      (hstep ▸ hstop)
    rw [← hstep] at hmarked
    refine ⟨⟨k, hfollows, hrests.traceDue.symm.trans hdue⟩, ?_⟩
    exact hmarked.of_rests (run.follows_evolves (P := fun e => e.armsTrace = false)
      Registers.kept_true.toKeptByException (fun _ => Event.armsTrace_of_ofHost) hfollows)
      (fun _ he => he) hrests

end IsRun

/-- In calls that are not nested, that the host does not end early and that have no exception hooks,
with no trace exception due at the beginning: a pass takes the trace exception if and only if it was
due when the pass before ended and the one opcode in between let it through. It is the exception of
that opcode. -/
theorem trace_exact {e : Nat → Execution β σ η} (run : IsRun e)
    (hooks : (e 0).state.machine.hooks.NoInterceptors)
    (hclear : (e 0).state.machine.regs.pending.traceDue = false) {n : Nat}
    (hpasses : ∀ k ≤ n, (e k).Unhindered) :
    ((e n).FiresTrace ↔ ∃ k m, n = m + 1 ∧ FollowsPass e k m ∧
        (e (k + 1)).state.machine.regs.pending.traceDue = true ∧ (e m).LetsTraceThrough) ∧
      ((e n).FiresTrace → ∃ m, n = m + 1 ∧ (e m).phase = .opcode ∧ (e n).TakesTraceOf (e m)) := by
  have hpasses' : ∀ m < n, ∀ k ≤ m, (e k).Unhindered := fun m hm k hk =>
    hpasses k (Nat.le_trans hk (Nat.le_of_lt hm))
  refine ⟨⟨fun hfires => ?_, ?_⟩, fun hfires => ?_⟩
  -- The pass takes what is due, which goes back over the opcode to the pass before it.
  · obtain ⟨hphase, hdue, hstop⟩ := hfires.due
    obtain ⟨m, rfl, hopcode⟩ := run.opcode_before hphase hstop
    have hpasses := hpasses' m (Nat.lt_succ_self m)
    obtain ⟨hbefore, hthrough⟩ := (run.due_after_opcode hooks hpasses hopcode).mp ⟨hdue, hstop⟩
    obtain ⟨⟨k, hfollows, hk⟩, -⟩ := run.marked hooks hclear hpasses hopcode hbefore
    exact ⟨k, m, rfl, hfollows, hk, hthrough⟩
  · rintro ⟨k, m, rfl, hfollows, hk, hthrough⟩
    have hbefore : (e m).state.machine.regs.pending.traceDue = true :=
      (run.follows_rests hfollows).traceDue.trans hk
    obtain ⟨hdue, hstop⟩ := (run.due_after_opcode hooks (hpasses' m (Nat.lt_succ_self m))
      hfollows.opcode).mpr ⟨hbefore, hthrough⟩
    have hphase : (e (m + 1)).phase = .special := by
      rw [run.opcode hfollows.opcode] at hdue ⊢
      exact opcodeStep_special (by simp [Pending.isEmpty, hdue])
    exact fires_of_due hphase (hpasses _ (Nat.le_refl _)) hdue hstop
  · obtain ⟨hphase, hdue, hstop⟩ := hfires.due
    obtain ⟨m, rfl, hopcode⟩ := run.opcode_before hphase hstop
    have hpasses := hpasses' m (Nat.lt_succ_self m)
    obtain ⟨hbefore, -⟩ := (run.due_after_opcode hooks hpasses hopcode).mp ⟨hdue, hstop⟩
    obtain ⟨-, hmarked⟩ := run.marked hooks hclear hpasses hopcode hbefore
    exact ⟨m, rfl, hopcode, takesTraceOf hopcode (run.hooks _ ▸ hooks) (run.opcode hopcode) hdue
      hstop (hmarked hbefore) (run.tracesIfDue hooks hclear _ hdue)⟩

def stepped : Hosted Ram Unit Host.Stuck :=
  let ram := (Ram.ofSize 256).loadWords 0xA0 [0x4E71, 0x4E71]
  let m := Machine.ofSettings Settings.default ram ()
  ⟨((m.setRegister .sp 0x100).setRegister .pc 0xA0).setRegister .sr 0xA700, {}⟩

theorem trace_exact_stepped :
    (calls stepped 0).state.machine.hooks.NoInterceptors ∧
      (calls stepped 0).state.machine.regs.pending.traceDue = false ∧
      (∀ k ≤ 3, (calls stepped k).Unhindered) ∧ (calls stepped 3).FiresTrace ∧
      ∃ m, 3 = m + 1 ∧ (calls stepped m).phase = .opcode ∧
        (calls stepped 3).TakesTraceOf (calls stepped m) := by
  have hooks : (calls stepped 0).state.machine.hooks.NoInterceptors := fun _ => rfl
  have hclear : (calls stepped 0).state.machine.regs.pending.traceDue = false := by decide +kernel
  have hfires : (calls stepped 3).FiresTrace := by
    unfold FiresTrace
    decide +kernel
  obtain ⟨-, htaken⟩ := trace_exact (calls_isRun stepped) hooks hclear (n := 3)
    fun k _ => unhindered_stuck _
  exact ⟨hooks, hclear, fun k _ => unhindered_stuck _, hfires, htaken hfires⟩

end Execution
end Mc68000
