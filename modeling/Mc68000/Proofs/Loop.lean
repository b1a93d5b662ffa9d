import Mc68000.Proofs.Hosted
import Mc68000.Proofs.Instruction

/-!
# What the steps of the loop do

One equation for every step, cut where later arguments cut it, and what the parts do to the machine.
Over a whole run the journal grows, hooks and settings stay, and an overflow is not forgotten.
-/

namespace Mc68000

def Pending.armed (p : Pending) : Pending := { p with traceArmed := false, traceDue := true }

namespace Machine
variable {β σ : Type} {P : Event → Prop} {R : Registers → Registers → Prop} {m : Machine β σ}

theorem recordRegisters_evolves (hK : Registers.KeptByException R) (m : Machine β σ) :
    Evolves P R m m.recordRegisters := by
  simp only [recordRegisters]
  split
  · exact .of_parts (hK.pack m.regs) rfl rfl rfl rfl rfl
  · exact .refl hK m

/-- A pass at this point arms the trace exception. -/
def ArmsTrace (m : Machine β σ) : Prop := (m.regs.pending.traceArmed && m.regs.status.t1) = true

theorem armTrace_evolves (hK : Registers.KeptByException R) (hA : ∀ pc, P (.traceArmed pc))
    (harm : m.ArmsTrace → R m.regs (m.regs.mapPending Pending.armed)) :
    Evolves P R m m.armTrace := by
  simp only [armTrace]
  split
  · exact ⟨harm ‹_›, rfl, rfl, id,
      fun harms => absurd (harms (.traceArmed m.regs.pc) (hA _)) (by simp [Event.armsTrace]),
      [.traceArmed m.regs.pc], rfl, by simpa using hA m.regs.pc⟩
  · exact .refl hK m

theorem promoteInterrupt_evolves (hK : Registers.KeptByException R)
    (hdue : ∀ r : Registers,
      R r (r.mapPending fun p => { p with interruptCheck := false, interruptDue := true }))
    (m : Machine β σ) : Evolves P R m m.promoteInterrupt := by
  simp only [promoteInterrupt]
  split
  · exact .of_parts (hdue m.regs) rfl rfl rfl rfl rfl
  · exact .refl hK m

theorem promoteInterrupt_rests (m : Machine β σ) : m.regs.Rests m.promoteInterrupt.regs := by
  simp only [promoteInterrupt]
  split
  · exact ⟨_, _, _, _, rfl⟩
  · exact .refl _

variable [Bus β]

theorem traceIfDue_evolves (hK : Registers.KeptByException R) (hT : P .trace)
    (hF : ∀ e : Event, e.ofFault → P e) (hH : m.hooks.Respects R) :
    Evolves P R m m.traceIfDue := by
  simp only [traceIfDue]
  split
  · have hlog : Evolves P R m (m.log .trace) := .log hK m hT
    have htaken := hlog.trans hK
      (takeException_evolves hK
      (fun e he => hF e (Event.ofFault_of_ofException he)) (hlog.respects hH) ExceptionVector.trace)
    exact htaken.trans hK (deliverFault_evolves hK hF (htaken.respects hH))
  · exact .refl hK m

def fetchOpcode (m : Machine β σ) : UInt16 × Machine β σ := (m.log (.fetch m.regs)).fetchWord

/-- The machine after an opcode was executed and charged, before a fault of it is routed. -/
def dispatched (table : OpcodeTable β σ) (w : UInt16) (m : Machine β σ) : Machine β σ :=
  ((table.dispatch w m).2.charge (table.dispatch w m).1).log
    (.dispatch w (table.dispatch w m).1)

theorem executeOpcode_eq (table : OpcodeTable β σ) (m : Machine β σ) :
    m.executeOpcode table =
      match m.fetchOpcode.2.takeFault.1 with
      | some f => (m.fetchOpcode.2.takeFault.2.setPc
          (m.fetchOpcode.2.takeFault.2.regs.pc - 2)).raiseFault f
      | none => (dispatched table m.fetchOpcode.1 m.fetchOpcode.2.takeFault.2).deliverFault := rfl

def ExecutesStop (m : Machine β σ) : Prop :=
  m.fetchOpcode.1 = 0x4E72 ∧ m.fetchOpcode.2.takeFault.1 = none ∧ m.regs.status.s = true

theorem fetchOpcode_evolves (hK : Registers.KeptByException R)
    (hP : ∀ e : Event, e.ofInstruction → P e)
    (hfetch : ∀ r, P (.fetch r)) (m : Machine β σ) : Evolves P R m m.fetchOpcode.2 := by
  have hlog : Evolves P R m (m.log (.fetch m.regs)) := .log hK m (hfetch _)
  exact hlog.trans hK (ControlInstructions.fetchWord_evolves hK hP _)

theorem dispatched_evolves (hK : Registers.KeptByOpcode R) (hP : ∀ e : Event, e.ofInstruction → P e)
    (hdone : ∀ w cost, P (.dispatch w cost)) (hH : m.hooks.Respects R) (w : UInt16)
    (hstop : w = 0x4E72 → m.regs.status.s = true → ∀ r, R r (ControlInstructions.stopped r)) :
    Evolves P R m (dispatched ControlInstructions.table w m) := by
  have hhandler := ControlInstructions.dispatch_evolves hK hP hH w hstop
  exact (hhandler.trans hK (charge_evolves hK _ _)).trans hK (.log hK _ (hdone _ _))

theorem executeOpcode_evolves (hK : Registers.KeptByOpcode R) (hP : ∀ e : Event, e.ofOpcode → P e)
    (hH : m.hooks.Respects R)
    (hstop : m.ExecutesStop → ∀ r, R r (ControlInstructions.stopped r)) :
    Evolves P R m (m.executeOpcode ControlInstructions.table) := by
  have hF : ∀ e : Event, e.ofFault → P e := fun e he => hP e (Event.ofOpcode_of_ofFault he)
  have hI : ∀ e : Event, e.ofInstruction → P e :=
    fun e he => hP e (Event.ofOpcode_of_ofInstruction he)
  have htaken : Evolves P R m m.fetchOpcode.2.takeFault.2 :=
    (fetchOpcode_evolves hK hI (fun _ => hP _ rfl) m).trans hK (takeFault_evolves hK _)
  rw [executeOpcode_eq]
  split
  · have hback := htaken.trans hK
      (.mapRegs (f := fun r => { r with pc := r.pc - 2 }) _ (hK.pc _ _))
    exact hback.trans hK (raiseFault_evolves hK hF (hback.respects hH) _)
  · rename_i hnone
    have hdone := htaken.trans hK (dispatched_evolves hK hI (fun _ _ => hP _ rfl)
      (htaken.respects hH) m.fetchOpcode.1 fun hw hs => hstop ⟨hw, hnone, hs⟩)
    exact hdone.trans hK (deliverFault_evolves hK hF (hdone.respects hH))

end Machine

namespace Hosted
variable {β σ η : Type} [Host η] {P : Event → Prop} {R : Registers → Registers → Prop}
  {s : Hosted β σ η}

theorem checkForBreak_evolves (hK : Registers.KeptByException R) (hP : ∀ e : Event, e.ofTalk → P e)
    (hbreak : ∀ r : Registers, R r (r.mapPending fun p => { p with breakRequest := false }))
    (s : Hosted β σ η) : Machine.Evolves P R s.machine s.checkForBreak.2.machine := by
  rw [checkForBreak_eq]
  split
  · exact .mapPending s.machine (hbreak _)
  · exact .log hK s.machine (hP _ rfl)

theorem checkForBreak_continues (s : Hosted β σ η) :
    Machine.Continues s.machine s.checkForBreak.2.machine :=
  checkForBreak_evolves Registers.kept_true (fun _ _ => trivial) (fun _ => trivial) s

variable [Bus β]

def interrupted (s : Hosted β σ η) : Hosted β σ η :=
  ((s.map Machine.armTrace).dueInterrupt).map Machine.promoteInterrupt

theorem finishPass_eq (s : Hosted β σ η) :
    s.finishPass =
      if s.interrupted.lateEndOfCycle.1 then (true, s.interrupted.lateEndOfCycle.2)
      else s.interrupted.lateEndOfCycle.2.checkForBreak := rfl

theorem interrupted_evolves (hK : Registers.Kept R) (hA : ∀ pc, P (.traceArmed pc))
    (harm : s.machine.ArmsTrace → R s.machine.regs (s.machine.regs.mapPending Pending.armed))
    (hdue : ∀ t : Hosted β σ η, t = s.map Machine.armTrace →
      Machine.Evolves P R t.machine t.dueInterrupt.machine) :
    Machine.Evolves P R s.machine s.interrupted.machine :=
  ((Machine.armTrace_evolves hK hA harm).trans hK (hdue _ rfl)).trans hK
    (Machine.promoteInterrupt_evolves hK hK.interruptDue _)

theorem finishPass_evolves (hK : Registers.Kept R) (hP : ∀ e : Event, e.ofTalk → P e)
    (hA : ∀ pc, P (.traceArmed pc))
    (harm : s.machine.ArmsTrace → R s.machine.regs (s.machine.regs.mapPending Pending.armed))
    (hbreak : ∀ r : Registers, R r (r.mapPending fun p => { p with breakRequest := false }))
    (hdue : ∀ t : Hosted β σ η, t = s.map Machine.armTrace →
      Machine.Evolves P R t.machine t.dueInterrupt.machine) :
    Machine.Evolves P R s.machine s.finishPass.2.machine := by
  have hlate := (interrupted_evolves hK hA harm hdue).trans hK (lateEndOfCycle_evolves hK hP _)
  rw [finishPass_eq]
  split
  · exact hlate
  · exact hlate.trans hK (checkForBreak_evolves hK hP hbreak _)

theorem finishPass_continues (s : Hosted β σ η) :
    Machine.Continues s.machine s.finishPass.2.machine :=
  finishPass_evolves Registers.kept_true (fun _ _ => trivial) (fun _ => trivial)
    (fun _ => trivial) (fun _ => trivial) fun t _ => dueInterrupt_continues t

omit [Bus β] in
theorem interruptDue_armTrace : (s.map Machine.armTrace).InterruptDue ↔ s.InterruptDue := by
  simp only [map, Machine.armTrace]
  split <;> rfl

theorem finishPass_logged (h : s.InterruptDue) :
    Machine.Logged (fun e => e.isInterrupt) s.machine s.finishPass.2.machine ∧
      Machine.Logged (fun e => e.isException) s.machine s.finishPass.2.machine := by
  have harmed : Machine.Continues s.machine (s.map Machine.armTrace).machine :=
    Machine.armTrace_evolves Registers.kept_true.toKeptByException (fun _ => trivial)
      fun _ => trivial
  have hpromoted : Machine.Continues (s.map Machine.armTrace).dueInterrupt.machine
      s.interrupted.machine :=
    Machine.promoteInterrupt_evolves Registers.kept_true (fun _ => trivial) _
  have hlate := hpromoted.trans (lateEndOfCycle_continues s.interrupted)
  have hrest : Machine.Grows (s.map Machine.armTrace).dueInterrupt.machine
      s.finishPass.2.machine := by
    rw [finishPass_eq]
    split
    · exact hlate.grows
    · exact (hlate.trans (checkForBreak_continues _)).grows
  obtain ⟨hinterrupt, hexception⟩ := dueInterrupt_logged (interruptDue_armTrace.mpr h)
  exact ⟨(Machine.Logged.grows_trans harmed.grows hinterrupt).trans_grows hrest,
    (Machine.Logged.grows_trans harmed.grows hexception).trans_grows hrest⟩

end Hosted

/-- The relation holds across all that a step of the loop does to the registers. -/
structure Registers.KeptByStep (R : Registers → Registers → Prop) : Prop extends
    Registers.Kept R where
  stopped : ∀ r, R r (ControlInstructions.stopped r)
  armed : ∀ r : Registers, (r.pending.traceArmed && r.status.t1) = true →
    R r (r.mapPending Pending.armed)
  breakTaken : ∀ r : Registers, R r (r.mapPending fun p => { p with breakRequest := false })
  dueUsed : ∀ r : Registers, R r (r.mapPending Hosted.dueUsed)
  interruptUsed : ∀ r : Registers, R r (r.mapPending Pending.withoutInterrupt)
  released : ∀ r : Registers, R r { r with stopped := false }
  wakened : ∀ r : Registers, R r (Hosted.wakened { r with stopped := false })

theorem Registers.keptByStep_true : Registers.KeptByStep fun _ _ => True where
  toKept := Registers.kept_true
  stopped _ := trivial
  armed _ _ := trivial
  breakTaken _ := trivial
  dueUsed _ := trivial
  interruptUsed _ := trivial
  released _ := trivial
  wakened _ := trivial

namespace Execution
variable {β σ η : Type} [Host η] {P : Event → Prop} {R : Registers → Registers → Prop}
  {e : Execution β σ η}

def ready (e : Execution β σ η) : Watchdog × Hosted β σ η :=
  e.watch.check (e.state.breakpoint.map Machine.recordRegisters)

def probed (e : Execution β σ η) : Bool × Hosted β σ η := e.state.isNested.2.earlyEndOfCycle

def ticked (watch : Watchdog) (e : Execution β σ η) : Watchdog × Hosted β σ η :=
  ((watch.check e.state).1, (watch.check e.state).2.tick)

variable [Bus β]

def traced (e : Execution β σ η) : Hosted β σ η := e.probed.2.map Machine.traceIfDue

theorem opcodeStep_eq (table : OpcodeTable β σ) (e : Execution β σ η) :
    e.opcodeStep table =
      let s := (e.ready.2.map (Machine.executeOpcode table)).cycle false
      ⟨s, e.ready.1, if s.machine.regs.pending.isEmpty then .opcode else .special⟩ := rfl

theorem specialStep_eq (e : Execution β σ η) :
    e.specialStep =
      if e.state.isNested.1 then endPass e.watch e.state.isNested.2.checkForBreak
      else if e.probed.1 then ⟨e.probed.2, e.watch, .returned⟩
      else if e.traced.machine.regs.pending.stop then
        ⟨e.traced.enterIdle.2, e.watch, .idle e.traced.enterIdle.1⟩
      else endPass e.watch e.traced.finishPass := rfl

theorem opcodeStep_phase (table : OpcodeTable β σ) (e : Execution β σ η) :
    (e.opcodeStep table).phase =
      if (e.opcodeStep table).state.machine.regs.pending.isEmpty then .opcode else .special := by
  rw [opcodeStep_eq]

theorem opcodeStep_special {table : OpcodeTable β σ}
    (h : (e.opcodeStep table).state.machine.regs.pending.isEmpty = false) :
    (e.opcodeStep table).phase = .special := by
  rw [opcodeStep_phase, h]
  rfl

theorem specialStep_of_stay (hnested : Host.isNested e.state.host = false)
    (hstay : e.probed.1 = false) :
    e.specialStep =
      if e.traced.machine.regs.pending.stop then
        ⟨e.traced.enterIdle.2, e.watch, .idle e.traced.enterIdle.1⟩
      else endPass e.watch e.traced.finishPass := by
  have hno : e.state.isNested.1 = false := hnested
  rw [specialStep_eq, hno, hstay]
  rfl

theorem idleStep_eq (watch : Watchdog) (e : Execution β σ η) :
    e.idleStep watch =
      let woken := (e.ticked watch).2.idleInterrupt.checkForBreak
      if woken.1 then
        ⟨woken.2.map fun m => m.mapPending fun p => { p with breakRequest := false }, e.watch,
          .returned⟩
      else if woken.2.machine.regs.pending.stop then ⟨woken.2, e.watch, .idle (e.ticked watch).1⟩
      else endPass e.watch woken.2.finishPass := rfl

omit [Bus β] in
theorem ready_evolves (hK : Registers.KeptByException R) (hP : ∀ e : Event, e.ofHost → P e)
    (e : Execution β σ η) : Machine.Evolves P R e.state.machine e.ready.2.machine :=
  (((Hosted.breakpoint_talks (Event.of_chat (Event.of_talk hP)) e.state).1.evolves hK).trans hK
    (Machine.recordRegisters_evolves hK _)).trans hK
      ((Hosted.watchdog_check_talks (Event.of_aside hP) e.watch _).1.evolves hK)

omit [Bus β] in
theorem ready_regs (e : Execution β σ η) :
    ∃ sr, e.ready.2.machine.regs = { e.state.machine.regs with sr := sr } := by
  have hbreak := (Hosted.breakpoint_talks (P := fun _ => True) (fun _ _ => trivial) e.state).1.regs
  have hwatch := (Hosted.watchdog_check_talks (P := fun _ => True) (fun _ _ => trivial) e.watch
    (e.state.breakpoint.map Machine.recordRegisters)).1.regs
  have hrecord : ∀ m : Machine β σ, ∃ sr, m.recordRegisters.regs = { m.regs with sr := sr } := by
    intro m
    simp only [Machine.recordRegisters]
    split
    · exact ⟨m.regs.status.toWord, rfl⟩
    · exact ⟨m.regs.sr, rfl⟩
  obtain ⟨sr, hsr⟩ := hrecord e.state.breakpoint.machine
  exact ⟨sr, hwatch.trans (hsr.trans (by rw [hbreak]))⟩

omit [Bus β] in
theorem probed_talks (hP : ∀ e : Event, e.ofTalk → P e) (e : Execution β σ η) :
    Hosted.Talks P e.state e.probed.2 :=
  (Hosted.Talks.ask e.state Host.isNested .isNested (hP _ rfl)).trans
    (Hosted.earlyEndOfCycle_talks (Event.of_chat hP) _)

omit [Bus β] in
theorem ticked_evolves (hK : Registers.KeptByHousekeeping R) (hP : ∀ e : Event, e.ofHost → P e)
    (hD : P (.host .delay)) (watch : Watchdog) (e : Execution β σ η) :
    Machine.Evolves P R e.state.machine (e.ticked watch).2.machine :=
  ((Hosted.watchdog_check_talks (Event.of_aside hP) watch e.state).1.evolves hK).trans hK
    (Hosted.tick_evolves hK (Event.of_talk hP) hD _)

theorem traced_evolves (hK : Registers.KeptByException R) (hP : ∀ e : Event, e.ofPass → P e)
    (hH : e.state.machine.hooks.Respects R) :
    Machine.Evolves P R e.state.machine e.traced.machine := by
  have hprobed :=
    (probed_talks (Event.of_talk fun e he => hP e (Event.ofPass_of_ofHost he)) e).1.evolves hK
  exact hprobed.trans hK (Machine.traceIfDue_evolves hK (hP _ rfl)
    (fun e he => hP e (Event.ofPass_of_ofFault he)) (hprobed.respects hH))

omit [Bus β] in
theorem ready_continues (e : Execution β σ η) :
    Machine.Continues e.state.machine e.ready.2.machine :=
  ready_evolves Registers.kept_true (fun _ _ => trivial) e

omit [Bus β] in
theorem probed_continues (e : Execution β σ η) :
    Machine.Continues e.state.machine e.probed.2.machine :=
  (probed_talks (P := fun _ => True) (fun _ _ => trivial) e).continues

omit [Bus β] in
theorem ticked_continues (watch : Watchdog) (e : Execution β σ η) :
    Machine.Continues e.state.machine (e.ticked watch).2.machine :=
  ticked_evolves Registers.kept_true (fun _ _ => trivial) trivial watch e

theorem traced_continues (e : Execution β σ η) :
    Machine.Continues e.state.machine e.traced.machine :=
  traced_evolves Registers.kept_true (fun _ _ => trivial) (Registry.respects_true _)

theorem opcodeStep_evolves (hK : Registers.KeptByOpcode R) (hP : ∀ e : Event, e.ofHost → P e)
    (hO : ∀ e : Event, e.ofOpcode → P e) (hH : e.state.machine.hooks.Respects R)
    (hstop : e.ready.2.machine.ExecutesStop → ∀ r, R r (ControlInstructions.stopped r)) :
    Machine.Evolves P R e.state.machine
      (e.opcodeStep ControlInstructions.table).state.machine := by
  have hready := ready_evolves hK.toKeptByException hP e
  have hdone := hready.trans hK
    (Machine.executeOpcode_evolves hK hO (hready.respects hH) hstop)
  rw [opcodeStep_eq]
  exact hdone.trans hK (Hosted.cycle_evolves hK (Event.of_talk hP)
    (e.ready.2.map (Machine.executeOpcode ControlInstructions.table)) false)

theorem opcodeStep_continues (e : Execution β σ η) :
    Machine.Continues e.state.machine (e.opcodeStep ControlInstructions.table).state.machine :=
  opcodeStep_evolves Registers.kept_true (fun _ _ => trivial) (fun _ _ => trivial)
    (Registry.respects_true _) fun _ _ => trivial

theorem specialStep_evolves (hK : Registers.Kept R) (hP : ∀ e : Event, e.ofPass → P e)
    (harm : e.traced.machine.ArmsTrace →
      R e.traced.machine.regs (e.traced.machine.regs.mapPending Pending.armed))
    (hbreak : ∀ r : Registers, R r (r.mapPending fun p => { p with breakRequest := false }))
    (hH : e.state.machine.hooks.Respects R)
    (hdue : ∀ t : Hosted β σ η, t = e.traced.map Machine.armTrace →
      Machine.Evolves P R t.machine t.dueInterrupt.machine) :
    Machine.Evolves P R e.state.machine e.specialStep.state.machine := by
  have hP' : ∀ e : Event, e.ofHost → P e := fun e he => hP e (Event.ofPass_of_ofHost he)
  have hnested : Machine.Evolves P R e.state.machine e.state.isNested.2.machine :=
    .log hK _ (hP' (.host (.isNested (Host.isNested e.state.host))) rfl)
  have htraced := traced_evolves hK hP hH
  rw [specialStep_eq]
  split
  · exact hnested.trans hK (Hosted.checkForBreak_evolves hK (Event.of_talk hP') hbreak _)
  split
  · exact (probed_talks (Event.of_talk hP') e).1.evolves hK
  split
  · exact htraced.trans hK ((Hosted.enterIdle_talks (Event.of_aside hP') e.traced).1.evolves hK)
  · exact htraced.trans hK (Hosted.finishPass_evolves hK (Event.of_talk hP') (fun _ => hP _ rfl)
      harm hbreak hdue)

theorem idleStep_evolves (hK : Registers.Kept R) (hP : ∀ e : Event, e.ofHost → P e)
    (hA : ∀ pc, P (.traceArmed pc)) (hD : P (.host .delay))
    (hbreak : ∀ r : Registers, R r (r.mapPending fun p => { p with breakRequest := false }))
    (harm : ∀ m : Machine β σ, m.ArmsTrace → R m.regs (m.regs.mapPending Pending.armed))
    {watch : Watchdog}
    (hidle : Machine.Evolves P R (e.ticked watch).2.machine
      (e.ticked watch).2.idleInterrupt.machine)
    (hdue : ∀ t : Hosted β σ η,
      t = (e.ticked watch).2.idleInterrupt.checkForBreak.2.map Machine.armTrace →
      Machine.Evolves P R t.machine t.dueInterrupt.machine) :
    Machine.Evolves P R e.state.machine (e.idleStep watch).state.machine := by
  have hwoken := ((ticked_evolves hK hP hD watch e).trans hK hidle).trans hK
    (Hosted.checkForBreak_evolves hK (Event.of_talk hP) hbreak _)
  rw [idleStep_eq]
  dsimp only
  split
  · exact hwoken.trans hK (.mapPending _ (hbreak _))
  split
  · exact hwoken
  · exact hwoken.trans hK
      (Hosted.finishPass_evolves hK (Event.of_talk hP) hA (harm _) hbreak hdue)

theorem woken_continues (watch : Watchdog) (e : Execution β σ η) :
    Machine.Continues e.state.machine
      (e.ticked watch).2.idleInterrupt.checkForBreak.2.machine :=
  ((ticked_continues watch e).trans (Hosted.idleInterrupt_continues _)).trans
    (Hosted.checkForBreak_continues _)

theorem idleStep_rest_continues (watch : Watchdog) (e : Execution β σ η) :
    Machine.Continues (e.ticked watch).2.idleInterrupt.machine
      (e.idleStep watch).state.machine := by
  have hwoken := Hosted.checkForBreak_continues (e.ticked watch).2.idleInterrupt
  rw [idleStep_eq]
  dsimp only
  split
  · exact hwoken.trans (.mapPending _ trivial)
  split
  · exact hwoken
  · exact hwoken.trans (Hosted.finishPass_continues _)

theorem idleStep_logged {watch : Watchdog} (hwake : (e.ticked watch).2.WakeDue) :
    Machine.Logged (fun e => e.isInterrupt) e.state.machine (e.idleStep watch).state.machine ∧
      Machine.Logged (fun e => e.isException) e.state.machine
        (e.idleStep watch).state.machine := by
  have hticked := (ticked_continues watch e).grows
  have hrest := (idleStep_rest_continues watch e).grows
  obtain ⟨hinterrupt, hexception⟩ := Hosted.idleInterrupt_logged hwake
  exact ⟨(Machine.Logged.grows_trans hticked hinterrupt).trans_grows hrest,
    (Machine.Logged.grows_trans hticked hexception).trans_grows hrest⟩

variable (table : OpcodeTable β σ)

theorem step_opcode (h : e.phase = .opcode) : e.step table = e.opcodeStep table := by
  simp only [step]
  rw [h]

theorem step_special (h : e.phase = .special) : e.step table = e.specialStep := by
  simp only [step]
  rw [h]

theorem step_idle {watch : Watchdog} (h : e.phase = .idle watch) :
    e.step table = e.idleStep watch := by
  simp only [step]
  rw [h]

theorem step_of_returned (h : e.phase = .returned) : e.step table = e := by
  simp only [step]
  rw [h]

theorem run_of_returned (h : e.phase = .returned) (n : Nat) : e.run table n = e := by
  cases n with
  | zero => rfl
  | succ n => unfold run; rw [h]

theorem run_step (n : Nat) (e : Execution β σ η) :
    e.run table (n + 1) = (e.step table).run table n := by
  cases h : e.phase with
  | returned => rw [step_of_returned table h, run_of_returned table h, run_of_returned table h]
  | opcode | special | idle watch => rw [run, h]

theorem run_add (n k : Nat) (e : Execution β σ η) :
    e.run table (n + k) = (e.run table n).run table k := by
  induction n generalizing e with
  | zero => rw [Nat.zero_add, run]
  | succ n ih => rw [Nat.succ_add, run_step, ih, run_step]

theorem run_succ (n : Nat) (e : Execution β σ η) :
    e.run table (n + 1) = (e.run table n).step table := by
  rw [run_add, run_step, run]

/-- What every step keeps holds throughout a run. -/
theorem run_keeps {I : Execution β σ η → Prop} (hstep : ∀ e, I e → I (e.step table)) (h : I e)
    (n : Nat) : I (e.run table n) := by
  induction n with
  | zero => exact h
  | succ n ih =>
    rw [run_succ]
    exact hstep _ ih

theorem step_evolves (hK : Registers.KeptByStep R) (hP : ∀ e, P e)
    (hH : e.state.machine.hooks.Respects R) :
    Machine.Evolves P R e.state.machine (e.step ControlInstructions.table).state.machine := by
  have hdue : ∀ t : Hosted β σ η, t.machine.hooks.Respects R →
      Machine.Evolves P R t.machine t.dueInterrupt.machine := fun t ht =>
    Hosted.dueInterrupt_evolves hK.toKept (fun e _ => hP e) (fun e _ => hP e) hK.dueUsed hK.released
      ht
  have harmed : ∀ t : Hosted β σ η, t.machine.hooks.Respects R →
      Machine.Evolves P R (t.map Machine.armTrace).machine
        (t.map Machine.armTrace).dueInterrupt.machine := fun t ht =>
    hdue _ ((Machine.armTrace_evolves (P := P) hK.toKeptByException (fun _ => hP _)
      (hK.armed t.machine.regs)).respects ht)
  simp only [step]
  split
  · exact opcodeStep_evolves hK.toKeptByOpcode (fun e _ => hP e) (fun e _ => hP e) hH
      fun _ => hK.stopped
  · refine specialStep_evolves hK.toKept (fun e _ => hP e) (hK.armed _) hK.breakTaken hH
      fun t ht => ht ▸ harmed _ ?_
    exact (traced_continues e).respects hH
  · rename_i watch _
    have hticked := (ticked_continues watch e).respects hH
    refine idleStep_evolves hK.toKept (fun e _ => hP e) (fun _ => hP _) (hP _) hK.breakTaken
      (fun m => hK.armed m.regs) (Hosted.idleInterrupt_evolves hK.toKept (fun e _ => hP e)
        (fun e _ => hP e) hK.interruptUsed hK.wakened hticked) fun t ht => ht ▸ harmed _ ?_
    exact (woken_continues watch e).respects hH
  · exact .refl hK.toKeptByException _

theorem step_continues (e : Execution β σ η) :
    Machine.Continues e.state.machine (e.step ControlInstructions.table).state.machine :=
  step_evolves Registers.keptByStep_true (fun _ => trivial) (Registry.respects_true _)

theorem run_continues (e : Execution β σ η) (n : Nat) :
    Machine.Continues e.state.machine (e.run ControlInstructions.table n).state.machine :=
  run_keeps ControlInstructions.table
    (I := fun x => Machine.Continues e.state.machine x.state.machine)
    (fun x hx => hx.trans (step_continues x)) (.refl Registers.kept_true _) n

omit [Bus β] in
theorem start_talks (hP : ∀ e : Event, e.ofHost → P e) (s : Hosted β σ η) :
    Hosted.Talks P s (start s).state := by
  have harmed := Hosted.watchdog_arm_talks (Event.of_aside hP) s
  simp only [start]
  generalize Watchdog.arm s = armed at harmed ⊢
  obtain ⟨watch, t⟩ := armed
  exact harmed

theorem execute_continues (s : Hosted β σ η) (n : Nat) :
    Machine.Continues s.machine (execute ControlInstructions.table n s).state.machine :=
  (start_talks (P := fun _ => True) (fun _ _ => trivial) s).continues.trans
    (run_continues (start s) n)

theorem execute_succ (n : Nat) (s : Hosted β σ η) :
    execute table (n + 1) s = (execute table n s).step table :=
  run_succ table n (start s)

theorem execute_succ_continues (s : Hosted β σ η) (n : Nat) :
    Machine.Continues (execute ControlInstructions.table n s).state.machine
      (execute ControlInstructions.table (n + 1) s).state.machine := by
  rw [execute_succ]
  exact step_continues _

end Execution
end Mc68000
