import Mc68000.Proofs.Loop

/-!
# Polls for faults

A run is a sequence of polls. In a poll the processor works: it fetches an opcode, executes one, or
takes a trace exception or an interrupt. Then it asks memory for a fault and, if it gets one, takes
the exception of that fault. Between the polls it leaves memory alone.
-/

namespace Mc68000

namespace Event

def routing (e : Event) : Option Event :=
  match e with
  | .fault _ | .exception _ | .doubleFault .. => some e
  | _ => none

end Event

/-- Work after which memory is asked for a fault. -/
inductive Source where
  | fetch
  | dispatch (opcode : UInt16)
  | trace
  | interrupt (idle : Bool) (base level : UInt8)

/-- Some work, and the machine that it begins with. -/
structure Poll (β σ : Type) where
  source : Source
  start : Machine β σ

def Source.wake (idle : Bool) : Registers → Registers := if idle then Hosted.wakened else id

namespace Poll
variable {β σ : Type} [Bus β]

def asked (p : Poll β σ) : Machine β σ :=
  match p.source with
  | .fetch => p.start.fetchOpcode.2
  | .dispatch w => Machine.dispatched ControlInstructions.table w p.start
  | .trace => (p.start.log .trace).takeException ExceptionVector.trace
  | .interrupt idle base level =>
    (p.start.takeInterrupt base level).mapRegs fun r => Source.wake idle { r with stopped := false }

def fault (p : Poll β σ) : Option Fault := p.asked.takeFault.1

/-- Where a fault is said to have happened. An opcode that was not fetched is not passed. -/
def pc (p : Poll β σ) : UInt32 :=
  match p.source with
  | .fetch => p.asked.regs.pc - 2
  | .dispatch _ | .trace | .interrupt .. => p.asked.regs.pc

def blamed (p : Poll β σ) : Machine β σ := p.asked.takeFault.2.setPc p.pc

/-- The fault that memory has latched when the exception of the first one is taken. -/
def second (p : Poll β σ) : Option Fault :=
  p.fault.bind fun f => (p.blamed.enterFault f).takeFault.1

def settled (p : Poll β σ) : Machine β σ :=
  match p.fault with
  | none => p.asked.takeFault.2
  | some f => p.blamed.raiseFault f

theorem settled_of_none {p : Poll β σ} (h : p.fault = none) : p.settled = p.asked.takeFault.2 := by
  simp only [settled]
  rw [h]

theorem settled_of_some {p : Poll β σ} {f : Fault} (h : p.fault = some f) :
    p.settled = p.blamed.raiseFault f := by
  simp only [settled]
  rw [h]

theorem settled_eq_deliverFault {p : Poll β σ} (h : p.pc = p.asked.regs.pc) :
    p.settled = p.asked.deliverFault := by
  have hblamed : p.blamed = p.asked.takeFault.2 := by
    rw [blamed, h]
    rfl
  rw [settled, hblamed]
  exact (Machine.deliverFault_eq _).symm

end Poll

structure Machine.Quiet {β σ : Type} (m m' : Machine β σ) : Prop where
  bus : m'.bus = m.bus
  lastFault : m'.lastFault = m.lastFault
  hooks : m'.hooks = m.hooks
  journal : m.Shows Event.routing m' []

/-- These polls and nothing else lead from one machine to the other. -/
inductive Ledger {β σ : Type} [Bus β] : Machine β σ → List (Poll β σ) → Machine β σ → Prop
  | quiet {m m' : Machine β σ} (h : m.Quiet m') : Ledger m [] m'
  | poll (p : Poll β σ) : Ledger p.start [p] p.settled
  | append {m m₁ m₂ : Machine β σ} {ps qs : List (Poll β σ)} (h : Ledger m ps m₁)
      (h₁ : Ledger m₁ qs m₂) : Ledger m (ps ++ qs) m₂

def Machine.Booked {β σ : Type} [Bus β] (m m' : Machine β σ) : Prop := ∃ ps, Ledger m ps m'

namespace Machine
variable {β σ : Type} {P : Event → Prop} {R : Registers → Registers → Prop}
  {m m₁ m₂ : Machine β σ}

namespace Quiet

theorem of_evolves (h : Evolves P R m m₁) (hP : ∀ e, P e → e.routing = none)
    (hbus : m₁.bus = m.bus) (hfault : m₁.lastFault = m.lastFault) : Quiet m m₁ :=
  ⟨hbus, hfault, h.hooks, .of_evolves (h.mono hP)⟩

theorem trans (h : Quiet m m₁) (h₁ : Quiet m₁ m₂) : Quiet m m₂ :=
  ⟨h₁.bus.trans h.bus, h₁.lastFault.trans h.lastFault, h₁.hooks.trans h.hooks,
    h.journal.trans h₁.journal⟩

theorem of_logs (h : Logs P m m₁) (hP : ∀ e, P e → e.routing = none) : Quiet m m₁ :=
  .of_evolves (h.evolves Registers.kept_true.toKeptByException) hP h.bus
    (by obtain ⟨es, rfl, -⟩ := h; rfl)

theorem refl (m : Machine β σ) : Quiet m m :=
  of_logs (P := fun _ => False) (.refl m) fun _ h => h.elim

theorem mapRegs (m : Machine β σ) (f : Registers → Registers) : Quiet m (m.mapRegs f) :=
  ⟨rfl, rfl, rfl, [], rfl, rfl⟩

theorem mapPending (m : Machine β σ) (f : Pending → Pending) : Quiet m (m.mapPending f) :=
  mapRegs m _

theorem charge (m : Machine β σ) (n : UInt32) : Quiet m (m.charge n) :=
  ⟨rfl, rfl, rfl, [], rfl, rfl⟩

theorem log (m : Machine β σ) {e : Event} (he : e.routing = none) : Quiet m (m.log e) :=
  of_logs (P := fun e => e.routing = none) (.log m he) fun _ h => h

end Quiet

theorem recordRegisters_quiet (m : Machine β σ) : Quiet m m.recordRegisters := by
  simp only [recordRegisters]
  split
  · exact (Quiet.mapRegs m Registers.packStatus).trans ⟨rfl, rfl, rfl, [], rfl, rfl⟩
  · exact .refl m

theorem armTrace_quiet (m : Machine β σ) : Quiet m m.armTrace := by
  simp only [armTrace]
  split
  · have hlog : Quiet m ({ m with lastTraceAddress := m.regs.pc }.log (.traceArmed m.regs.pc)) :=
      ⟨rfl, rfl, rfl, [_], rfl, rfl⟩
    exact hlog.trans (.mapRegs _ _)
  · exact .refl m

theorem promoteInterrupt_quiet (m : Machine β σ) : Quiet m m.promoteInterrupt := by
  simp only [promoteInterrupt]
  split
  · exact .mapRegs m _
  · exact .refl m

end Machine

theorem Event.routing_of_ofHost {e : Event} (h : e.ofHost) : e.routing = none := by
  cases e <;> simp_all [Event.ofHost, Event.routing]

namespace Hosted
variable {β σ η α : Type} [Host η] {s s₁ : Hosted β σ η}
open Machine (Quiet)

theorem Talks.quiet (h : Talks (fun e => e.ofHost) s s₁) : Quiet s.machine s₁.machine :=
  .of_logs h.1 fun _ => Event.routing_of_ofHost

theorem checkForBreak_quiet (s : Hosted β σ η) : Quiet s.machine s.checkForBreak.2.machine := by
  rw [checkForBreak_eq]
  split
  · exact .mapPending s.machine _
  · exact .log _ rfl

theorem lateEndOfCycle_quiet (s : Hosted β σ η) : Quiet s.machine s.lateEndOfCycle.2.machine := by
  simp only [lateEndOfCycle]
  split
  · exact (Quiet.mapPending s.machine _).trans (.log _ rfl)
  · exact .refl _

theorem pollInterrupts_quiet (s : Hosted β σ η) : Quiet s.machine s.pollInterrupts.machine := by
  have hpolled : Quiet s.machine
      (s.consult Host.takeInterruptChange .takeInterruptChange).2.machine := .log _ rfl
  simp only [pollInterrupts]
  split
  · exact hpolled.trans (.mapPending _ _)
  · exact hpolled

theorem cycleSlowly_quiet (s : Hosted β σ η) (sleeping : Bool) :
    Quiet s.machine (s.cycleSlowly sleeping).machine := by
  have hslow : Quiet s.machine
      (s.request (fun h => Host.cycleSlowly h sleeping) (.cycleSlowly sleeping)).machine :=
    .log _ rfl
  have hasked : Quiet s.machine ((s.request (fun h => Host.cycleSlowly h sleeping)
      (.cycleSlowly sleeping)).ask Host.suspendRequested .suspendRequested).2.machine :=
    hslow.trans (.log _ rfl)
  rw [cycleSlowly_eq]
  dsimp only
  split
  · exact hasked.trans (.mapPending _ _)
  · exact hasked

theorem cycle_quiet (s : Hosted β σ η) (sleeping : Bool) :
    Quiet s.machine (s.cycle sleeping).machine := by
  have hnested : Quiet s.machine s.isNested.2.machine := .log _ rfl
  have hticked : Quiet s.machine (s.isNested.2.request (fun h => Host.cycle h sleeping)
      (.cycle sleeping)).machine := hnested.trans (.log _ rfl)
  have hcount : ∀ t : Hosted β σ η, Quiet t.machine t.countTick.machine :=
    fun t => ⟨rfl, rfl, rfl, [], rfl, rfl⟩
  have hcounted := (hticked.trans (pollInterrupts_quiet _)).trans (hcount _)
  rw [cycle_eq]
  dsimp only
  split
  · exact hnested
  split
  · exact hcounted.trans (cycleSlowly_quiet _ sleeping)
  · exact hcounted

theorem tick_quiet (s : Hosted β σ η) : Quiet s.machine s.tick.machine := by
  have hdelay : Quiet s.machine (s.request Host.delay .delay).machine := .log _ rfl
  have hcharged : Quiet s.machine ((s.request Host.delay .delay).map fun m =>
      m.charge m.settings.idleTickCycles).machine := hdelay.trans (.charge _ _)
  exact hcharged.trans (cycle_quiet _ true)

end Hosted

namespace Machine
variable {β σ : Type} [Bus β] {m m₁ m₂ : Machine β σ}

namespace Booked

theorem quiet (h : m.Quiet m₁) : Booked m m₁ := ⟨[], .quiet h⟩

theorem refl (m : Machine β σ) : Booked m m := quiet (.refl m)

theorem poll (source : Source) (m : Machine β σ) : Booked m (⟨source, m⟩ : Poll β σ).settled :=
  ⟨_, .poll ⟨source, m⟩⟩

theorem trans (h : Booked m m₁) (h₁ : Booked m₁ m₂) : Booked m m₂ := by
  obtain ⟨ps, hps⟩ := h
  obtain ⟨qs, hqs⟩ := h₁
  exact ⟨ps ++ qs, hps.append hqs⟩

end Booked

theorem executeOpcode_booked (m : Machine β σ) :
    Booked m (m.executeOpcode ControlInstructions.table) := by
  have hfetch := Booked.poll .fetch m
  have hfault : (⟨.fetch, m⟩ : Poll β σ).fault = m.fetchOpcode.2.takeFault.1 := rfl
  rw [executeOpcode_eq]
  -- An opcode is one poll if its fetch faults, and two otherwise.
  split
  · rename_i f hf
    rw [Poll.settled_of_some (hfault.trans hf)] at hfetch
    exact hfetch
  · rename_i hnone
    rw [Poll.settled_of_none (hfault.trans hnone)] at hfetch
    have hdispatch := Booked.poll (.dispatch m.fetchOpcode.1) m.fetchOpcode.2.takeFault.2
    rw [Poll.settled_eq_deliverFault rfl] at hdispatch
    exact hfetch.trans hdispatch

theorem traceIfDue_booked (m : Machine β σ) : Booked m m.traceIfDue := by
  simp only [traceIfDue]
  split
  · have htrace := Booked.poll .trace m
    rw [Poll.settled_eq_deliverFault rfl] at htrace
    exact htrace
  · exact .refl m

end Machine

namespace Hosted
variable {β σ η : Type} [Host η] [Bus β]
open Machine (Quiet Booked)

theorem acceptInterrupt_booked (idle : Bool) (base level : UInt8) (m : Machine β σ) :
    Booked m (acceptInterrupt (Source.wake idle) base level m) := by
  have hpoll := Booked.poll (.interrupt idle base level) m
  rw [Poll.settled_eq_deliverFault rfl] at hpoll
  exact hpoll

theorem answerInterrupt_booked (s : Hosted β σ η) (use : Pending → Pending) (idle : Bool) :
    Booked s.machine (s.answerInterrupt use (Source.wake idle)).machine := by
  have hlevel : Quiet s.machine s.pendingLevel.2.machine := .log _ rfl
  have hused : Quiet s.machine (s.pendingLevel.2.map fun m => m.mapPending use).machine :=
    hlevel.trans (.mapPending _ use)
  by_cases habove : s.AboveMask
  · obtain ⟨level, hl, hm⟩ := habove
    rw [answerInterrupt_of_above hl hm]
    have hasked := hused.trans
      (.log _ (e := .host (.interruptBase (Host.interruptBase s.pendingLevel.2.host))) rfl)
    exact (Booked.quiet hasked).trans (acceptInterrupt_booked idle _ level _)
  · rw [answerInterrupt_of_not_above habove]
    exact .quiet hused

theorem dueInterrupt_booked (s : Hosted β σ η) : Booked s.machine s.dueInterrupt.machine := by
  rw [dueInterrupt_eq]
  split
  · exact answerInterrupt_booked s dueUsed false
  · exact .refl _

theorem idleInterrupt_booked (s : Hosted β σ η) : Booked s.machine s.idleInterrupt.machine := by
  rw [idleInterrupt_eq]
  split
  · exact answerInterrupt_booked s Pending.withoutInterrupt true
  · exact .refl _

theorem finishPass_booked (s : Hosted β σ η) : Booked s.machine s.finishPass.2.machine := by
  have harmed : Booked s.machine (s.map Machine.armTrace).machine :=
    .quiet (Machine.armTrace_quiet _)
  have hinterrupted : Booked s.machine s.interrupted.machine :=
    (harmed.trans (dueInterrupt_booked _)).trans (.quiet (Machine.promoteInterrupt_quiet _))
  have hlate := hinterrupted.trans (.quiet (lateEndOfCycle_quiet _))
  rw [finishPass_eq]
  split
  · exact hlate
  · exact hlate.trans (.quiet (checkForBreak_quiet _))

end Hosted

namespace Execution
variable {β σ η : Type} [Host η] {e : Execution β σ η}
open Machine (Quiet Booked)

theorem ready_quiet (e : Execution β σ η) : Quiet e.state.machine e.ready.2.machine := by
  have hbreakpoint := (Hosted.breakpoint_talks
    (Event.of_chat fun _ => Event.ofHost_of_ofTalk) e.state).quiet
  have hrecorded := hbreakpoint.trans (Machine.recordRegisters_quiet _)
  have hchecked := Hosted.watchdog_check_talks (fun _ => Event.ofHost_of_ofAside) e.watch
    (e.state.breakpoint.map Machine.recordRegisters)
  exact hrecorded.trans hchecked.quiet

variable [Bus β]

theorem opcodeStep_booked (e : Execution β σ η) :
    Booked e.state.machine (e.opcodeStep ControlInstructions.table).state.machine := by
  have hdone := (Booked.quiet e.ready_quiet).trans (Machine.executeOpcode_booked _)
  rw [opcodeStep_eq]
  exact hdone.trans (.quiet (Hosted.cycle_quiet
    (e.ready.2.map (Machine.executeOpcode ControlInstructions.table)) false))

theorem specialStep_booked (e : Execution β σ η) :
    Booked e.state.machine e.specialStep.state.machine := by
  have hnested : Quiet e.state.machine e.state.isNested.2.machine := .log _ rfl
  have hprobed := (probed_talks (fun _ => Event.ofHost_of_ofTalk) e).quiet
  have htraced : Booked e.state.machine e.traced.machine :=
    (Booked.quiet hprobed).trans (Machine.traceIfDue_booked _)
  rw [specialStep_eq]
  split
  · exact .quiet (hnested.trans (Hosted.checkForBreak_quiet _))
  split
  · exact .quiet hprobed
  split
  · exact htraced.trans (.quiet (Hosted.enterIdle_talks (fun _ => Event.ofHost_of_ofAside)
      e.traced).quiet)
  · exact htraced.trans (Hosted.finishPass_booked _)

theorem idleStep_booked (watch : Watchdog) (e : Execution β σ η) :
    Booked e.state.machine (e.idleStep watch).state.machine := by
  have hticked : Quiet e.state.machine (e.ticked watch).2.machine :=
    (Hosted.watchdog_check_talks (fun _ => Event.ofHost_of_ofAside) watch e.state).quiet.trans
      (Hosted.tick_quiet _)
  have hwoken := ((Booked.quiet hticked).trans (Hosted.idleInterrupt_booked _)).trans
    (.quiet (Hosted.checkForBreak_quiet _))
  rw [idleStep_eq]
  dsimp only
  split
  · exact hwoken.trans (.quiet (.mapPending _ _))
  split
  · exact hwoken
  · exact hwoken.trans (Hosted.finishPass_booked _)

theorem step_booked (e : Execution β σ η) :
    Booked e.state.machine (e.step ControlInstructions.table).state.machine := by
  simp only [step]
  split
  · exact opcodeStep_booked e
  · exact specialStep_booked e
  · exact idleStep_booked _ e
  · exact .refl _

theorem execute_booked (n : Nat) (s : Hosted β σ η) :
    Booked s.machine (execute ControlInstructions.table n s).state.machine :=
  run_keeps ControlInstructions.table (I := fun x => Booked s.machine x.state.machine)
    (fun x hx => hx.trans (step_booked x))
    (.quiet (start_talks (fun _ h => h) s).quiet) n

end Execution
end Mc68000
