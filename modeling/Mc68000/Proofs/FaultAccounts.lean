import Mc68000.Machine.Control
import Mc68000.Proofs.Accesses
import Mc68000.Proofs.Entry
import Mc68000.Proofs.Polls

/-!
# The accounts of faults on flat memory

If flat memory has nothing latched when a run begins, every poll begins and ends with nothing
latched. So what a poll gets is the first access that its own work was refused. It is routed once,
and what memory latches on the way into its exception is not routed at all.
-/

namespace Mc68000

namespace Event

def isDispatch : Event → Bool
  | .dispatch .. => true
  | _ => false

def routed : Event → Option Fault
  | .fault f => some f
  | _ => none

def unrouted : Event → Option UInt32
  | .doubleFault _ address _ => some address
  | _ => none

end Event

namespace Machine
variable {σ : Type} {m m' : Machine Ram σ}

/-- The fault was routed through its vector once, in the place `pc`. Another fault that memory had
latched by then was not routed, and asks for a break. -/
structure Routed (m : Machine Ram σ) (pc : UInt32) (f : Fault) (second : Option Fault)
    (m' : Machine Ram σ) : Prop where
  lastFault : m'.lastFault = some f
  journal : ∃ sp, m.Shows Event.routing m' (.fault f ::
    .exception ⟨f.kind.vector, pc, m.regs.sp⟩ ::
      (second.map fun g => .doubleFault f.kind.vector g.address sp).toList)
  frame : m.Logged (· = .exceptionHandled f.kind.vector) m' ∨ ∃ memory, m'.bus = Entry.drained
    ((⟨f.kind.vector, m.regs.status.toWord, pc, m.regs.supervisorSp - f.kind.vector.frameSize,
      memory⟩ : Entry Ram).entered m.regs.vbr)
  halts : second.isSome → m'.regs.pending.breakRequest = true

/-- Nothing was executed or charged, and a fault was routed with the address of the opcode. -/
structure RefusesFetch (m m' : Machine Ram σ) : Prop where
  undispatched : ¬ m.Logged (fun e => e.isDispatch) m'
  uncharged : m'.cycles = m.cycles
  routed : ∃ f second, m.Routed m.regs.pc f second m'

end Machine

/-- What a poll gets was latched by its own work, and becomes of it what should. -/
structure Poll.Accounted {σ : Type} (p : Poll Ram σ) : Prop where
  empty : p.start.bus.latch = none
  latched : ∃ xs, p.asked.bus = p.start.bus.perform xs ∧ p.fault = p.start.bus.firstFault xs
  unrouted : p.asked.lastFault = p.start.lastFault ∧ p.start.Shows Event.routed p.asked [] ∧
    p.start.Shows Event.unrouted p.asked []
  clean : p.fault = none → p.settled = p.asked
  routed : ∀ f, p.fault = some f → p.asked.Routed p.pc f p.second p.settled
  second : ∀ f, p.fault = some f → ∃ xs, (p.blamed.enterFault f).bus =
    (Entry.drained p.asked.bus).perform xs ∧ p.second = p.start.bus.firstFault xs
  settled : p.settled.bus.latch = none

structure Machine.Balances {σ : Type} (m : Machine Ram σ) (ps : List (Poll Ram σ))
    (m' : Machine Ram σ) : Prop where
  accounted : ∀ p ∈ ps, p.Accounted
  routed : m.Shows Event.routed m' (ps.filterMap Poll.fault)
  unrouted : m.Shows Event.unrouted m' (ps.filterMap fun p => p.second.map Fault.address)
  lastFault : m'.lastFault = (ps.filterMap Poll.fault).getLast?.or m.lastFault

namespace Machine
variable {σ : Type} {m : Machine Ram σ}

theorem takeException_frame (hH : m.hooks.OnlyAccess) (v : ExceptionVector) :
    m.Logged (· = .exceptionHandled v) (m.takeException v) ∨
      ∃ memory, (m.takeException v).bus = (⟨v, m.regs.status.toWord, m.regs.pc,
        m.regs.supervisorSp - v.frameSize, memory⟩ : Entry Ram).entered m.regs.vbr := by
  obtain ⟨hregs, -⟩ := interceptException_works hH v
  have hgrows : Grows m (m.interceptException v).2 :=
    (interceptException_evolves (P := fun _ => True) Registers.kept_true (fun _ _ => trivial)
      (Registry.respects_true _) v).grows
  rw [takeException_eq]
  split
  · exact .inl (Logged.grows_trans hgrows (.of_log _ rfl))
  · refine .inr ⟨(m.interceptException v).2.bus, ?_⟩
    rw [bus_enterException, entry, hregs]
    rfl

def reported (m : Machine Ram σ) (pc : UInt32) (f : Fault) : Machine Ram σ :=
  ({ (m.takeFault.2.setPc pc).takeFault.2 with lastFault := some f } : Machine Ram σ).log (.fault f)

theorem enterFault_works (hH : m.hooks.OnlyAccess) (pc : UInt32) (f : Fault) :
    Works (m.reported pc f) ((m.takeFault.2.setPc pc).enterFault f) :=
  takeException_works (m := m.reported pc f) hH f.kind.vector

theorem enterFault_shows (m : Machine Ram σ) (pc : UInt32) (f : Fault) :
    m.Shows Event.routing ((m.takeFault.2.setPc pc).enterFault f)
      [.fault f, .exception ⟨f.kind.vector, pc, m.regs.sp⟩] := by
  have hreported : m.Shows Event.routing (m.reported pc f) [.fault f] := .of_event (.fault f) rfl
  have hentry : ∀ e : Event, e.ofEntry → e.routing = none := by
    intro e he
    cases e <;> simp_all [Event.ofEntry, Event.routing]
  exact hreported.trans (takeException_shows hentry (m.reported pc f) f.kind.vector)

theorem enterFault_frame (hH : m.hooks.OnlyAccess) (pc : UInt32) (f : Fault) :
    m.Logged (· = .exceptionHandled f.kind.vector) ((m.takeFault.2.setPc pc).enterFault f) ∨
      ∃ memory, ((m.takeFault.2.setPc pc).enterFault f).bus =
        (⟨f.kind.vector, m.regs.status.toWord, pc, m.regs.supervisorSp - f.kind.vector.frameSize,
          memory⟩ : Entry Ram).entered m.regs.vbr :=
  (takeException_frame (m := m.reported pc f) hH f.kind.vector).imp_left
    (.grows_trans ⟨[.fault f], rfl⟩)

theorem raiseFault_routed (hH : m.hooks.OnlyAccess) (pc : UInt32) (f : Fault) :
    m.Routed pc f ((m.takeFault.2.setPc pc).enterFault f).takeFault.1
      ((m.takeFault.2.setPc pc).raiseFault f) := by
  have hworks := enterFault_works hH pc f
  have hshows := enterFault_shows m pc f
  have hframe := enterFault_frame hH pc f
  rw [raiseFault_eq]
  generalize (m.takeFault.2.setPc pc).enterFault f = entered at hworks hshows hframe ⊢
  have hgrows : ∀ {q : Event → Prop} {n : Machine Ram σ}, entered.Grows n →
      m.Logged q entered → m.Logged q n := fun hn h => h.trans_grows hn
  -- The second look at the latch is where a double fault shows.
  cases hsecond : entered.takeFault.1 with
  | none =>
    refine ⟨hworks.lastFault, ⟨0, hshows⟩, ?_, by simp⟩
    exact hframe.imp (hgrows ⟨[], rfl⟩) fun ⟨memory, hbus⟩ =>
      ⟨memory, congrArg Entry.drained hbus⟩
  | some g =>
    have hlog : entered.Shows Event.routing ((entered.takeFault.2.log
        (.doubleFault f.kind.vector g.address entered.regs.sp)).requestBreak)
        [.doubleFault f.kind.vector g.address entered.regs.sp] :=
      .of_event (.doubleFault f.kind.vector g.address entered.regs.sp) rfl
    refine ⟨hworks.lastFault, ⟨entered.regs.sp, hshows.trans hlog⟩, ?_, fun _ => rfl⟩
    exact hframe.imp (hgrows ⟨[_], rfl⟩) fun ⟨memory, hbus⟩ =>
      ⟨memory, congrArg Entry.drained hbus⟩

theorem latch_raiseFault (m : Machine Ram σ) (f : Fault) :
    (m.raiseFault f).bus.latch = none := by
  rw [raiseFault_eq]
  split <;> rfl

theorem takeFault_of_empty (h : m.bus.latch = none) : m.takeFault.2 = m := by
  have hbus : Entry.drained m.bus = m.bus := congrArg (Ram.mk _ _ · _) h.symm
  change { m with bus := Entry.drained m.bus } = m
  rw [hbus]

end Machine

namespace Event

theorem routed_of_ofInstruction {e : Event} (h : e.ofInstruction) :
    e.routed = none ∧ e.unrouted = none := by
  cases e <;> simp_all [ofInstruction, ofException, routed, unrouted]

theorem routed_eq : routed = fun e => e.routing.bind routed := by
  funext e
  cases e <;> rfl

theorem unrouted_eq : unrouted = fun e => e.routing.bind unrouted := by
  funext e
  cases e <;> rfl

end Event

namespace Poll
variable {σ : Type} {p : Poll Ram σ}

theorem asked_evolves (p : Poll Ram σ) :
    Machine.Evolves (fun e => e.routed = none ∧ e.unrouted = none) (fun _ _ => True) p.start
      p.asked := by
  have hI : ∀ e : Event, e.ofInstruction → e.routed = none ∧ e.unrouted = none :=
    fun _ => Event.routed_of_ofInstruction
  have hX : ∀ e : Event, e.ofException → e.routed = none ∧ e.unrouted = none :=
    fun e he => hI e (Event.ofInstruction_of_ofException he)
  obtain ⟨source, m⟩ := p
  cases source with
  | fetch => exact Machine.fetchOpcode_evolves Registers.kept_true hI (fun _ => ⟨rfl, rfl⟩) m
  | dispatch w =>
    exact Machine.dispatched_evolves Registers.kept_true hI (fun _ _ => ⟨rfl, rfl⟩)
      (Registry.respects_true _) w fun _ _ _ => trivial
  | trace =>
    have hlog := Machine.Evolves.log Registers.kept_true.toKeptByException m (e := .trace)
      (P := fun e => e.routed = none ∧ e.unrouted = none) ⟨rfl, rfl⟩
    exact hlog.trans Registers.kept_true
      (Machine.takeException_evolves Registers.kept_true hX (Registry.respects_true _) _)
  | interrupt idle base level =>
    have htaken := Machine.takeInterrupt_evolves (m := m) Registers.kept_true hX
      (fun _ _ _ => ⟨rfl, rfl⟩) (fun _ => ⟨rfl, rfl⟩) (Registry.respects_true _) base level
    exact htaken.trans Registers.kept_true
      (.mapRegs (f := fun r => Source.wake idle { r with stopped := false }) _ trivial)

theorem asked_accessed (hH : p.start.hooks.OnlyAccess) :
    p.asked.lastFault = p.start.lastFault ∧ p.start.bus.Accessed p.asked.bus := by
  obtain ⟨source, m⟩ := p
  cases source with
  | fetch =>
    have hworks := (m.log_works (.fetch m.regs)).trans (ControlInstructions.fetchWord_works _)
    exact ⟨hworks.lastFault, hworks.bus⟩
  | dispatch w =>
    have hworks := ControlInstructions.dispatch_works hH w
    exact ⟨hworks.lastFault, hworks.bus⟩
  | trace =>
    have hworks := (m.log_works .trace).trans
      (Machine.takeException_works (m := m.log .trace) hH ExceptionVector.trace)
    exact ⟨hworks.lastFault, hworks.bus⟩
  | interrupt idle base level =>
    have hworks := Machine.takeInterrupt_works hH base level
    exact ⟨hworks.lastFault, hworks.bus⟩

theorem second_of_some {f : Fault} (h : p.fault = some f) :
    p.second = (p.blamed.enterFault f).takeFault.1 := by
  rw [second, h, Option.bind_some]

theorem settled_hooks (p : Poll Ram σ) : p.settled.hooks = p.start.hooks := by
  have hasked := p.asked_evolves.hooks
  simp only [settled]
  split
  · exact hasked
  · exact (Machine.raiseFault_continues p.blamed _).hooks.trans hasked

theorem accounted (hlatch : p.start.bus.latch = none) (hH : p.start.hooks.OnlyAccess) :
    p.Accounted := by
  obtain ⟨hlast, xs, hxs⟩ := asked_accessed hH
  -- The latch was empty, so it holds the first access that the work itself was refused.
  have hfault : p.fault = p.start.bus.firstFault xs := by
    rw [← Ram.latch_perform_of_none hlatch, ← hxs]
    rfl
  have hhooks : p.asked.hooks.OnlyAccess := by
    rw [p.asked_evolves.hooks]
    exact hH
  have hempty : p.fault = none → p.settled = p.asked := fun h => by
    rw [settled_of_none h]
    exact Machine.takeFault_of_empty h
  refine ⟨hlatch, ⟨xs, hxs, hfault⟩, ⟨hlast, .of_evolves (p.asked_evolves.mono fun _ h => h.1),
    .of_evolves (p.asked_evolves.mono fun _ h => h.2)⟩, hempty, fun f hf => ?_, fun f hf => ?_, ?_⟩
  · rw [settled_of_some hf, second_of_some hf]
    exact Machine.raiseFault_routed hhooks p.pc f
  · -- The latch was emptied before the exception, so what it holds now is of the exception itself.
    obtain ⟨ys, hys⟩ := (Machine.enterFault_works hhooks p.pc f).bus
    have hlimit : (Entry.drained p.asked.bus).limit = p.start.bus.limit := by
      rw [← Ram.limit_perform p.start.bus xs, ← hxs]
      rfl
    refine ⟨ys, hys, ?_⟩
    rw [second_of_some hf, ← Ram.firstFault_congr hlimit, ← Ram.latch_perform_of_none rfl]
    exact congrArg Ram.latch hys
  · cases hf : p.fault with
    | none =>
      rw [hempty hf]
      exact hf
    | some f =>
      rw [settled_of_some hf]
      exact Machine.latch_raiseFault _ f

end Poll

namespace Machine
variable {σ : Type} {m m₁ m₂ : Machine Ram σ} {ps qs : List (Poll Ram σ)}

theorem Shows.routed {es : List Event} (h : m.Shows Event.routing m₁ es) :
    m.Shows Event.routed m₁ (es.filterMap Event.routed) := by
  have hrouted := h.filterMap Event.routed
  rwa [← Event.routed_eq] at hrouted

theorem Shows.unrouted {es : List Event} (h : m.Shows Event.routing m₁ es) :
    m.Shows Event.unrouted m₁ (es.filterMap Event.unrouted) := by
  have hunrouted := h.filterMap Event.unrouted
  rwa [← Event.unrouted_eq] at hunrouted

namespace Balances

theorem of_quiet (h : m.Quiet m₁) : m.Balances [] m₁ :=
  ⟨by simp, h.journal.routed, h.journal.unrouted, by simpa using h.lastFault⟩

theorem append (h : m.Balances ps m₁) (h₁ : m₁.Balances qs m₂) : m.Balances (ps ++ qs) m₂ := by
  refine ⟨fun p hp => ?_, ?_, ?_, ?_⟩
  · exact (List.mem_append.mp hp).elim (h.accounted p) (h₁.accounted p)
  · rw [List.filterMap_append]
    exact h.routed.trans h₁.routed
  · rw [List.filterMap_append]
    exact h.unrouted.trans h₁.unrouted
  · rw [h₁.lastFault, h.lastFault, List.filterMap_append, List.getLast?_append, Option.or_assoc]

theorem of_accounted {p : Poll Ram σ} (h : p.Accounted) : p.start.Balances [p] p.settled := by
  obtain ⟨hlast, hrouted, hunrouted⟩ := h.unrouted
  cases hf : p.fault with
  | none =>
    have hsecond : p.second = none := by rw [Poll.second, hf, Option.bind_none]
    refine ⟨by simpa using h, ?_, ?_, ?_⟩
    · simpa [h.clean hf, hf] using hrouted
    · simpa [h.clean hf, hsecond] using hunrouted
    · simpa [h.clean hf, hf] using hlast
  | some f =>
    have hr := h.routed f hf
    obtain ⟨sp, hjournal⟩ := hr.journal
    refine ⟨by simpa using h, ?_, ?_, by simpa [hf] using hr.lastFault⟩
    · have hall := hrouted.trans hjournal.routed
      cases hsecond : p.second <;>
        simpa [List.filterMap_cons, hf, hsecond, Event.routed] using hall
    · have hall := hunrouted.trans hjournal.unrouted
      cases hsecond : p.second <;>
        simpa [List.filterMap_cons, hf, hsecond, Event.unrouted] using hall

end Balances
end Machine

namespace Ledger
variable {σ : Type} {m m' : Machine Ram σ} {ps : List (Poll Ram σ)}

theorem hooks (h : Ledger m ps m') : m'.hooks = m.hooks := by
  induction h with
  | quiet h => exact h.hooks
  | poll p => exact p.settled_hooks
  | append h h₁ ih ih₁ => exact ih₁.trans ih

theorem balances (h : Ledger m ps m') (hlatch : m.bus.latch = none) (hH : m.hooks.OnlyAccess) :
    m'.bus.latch = none ∧ m.Balances ps m' := by
  -- every poll leaves the latch empty for the next one, which meets the hooks of the beginning
  induction h with
  | quiet h =>
    rw [h.bus]
    exact ⟨hlatch, .of_quiet h⟩
  | poll p =>
    have hp := Poll.accounted hlatch hH
    exact ⟨hp.settled, .of_accounted hp⟩
  | append h h₁ ih ih₁ =>
    obtain ⟨hempty, hbalances⟩ := ih hlatch hH
    rw [← h.hooks] at hH
    obtain ⟨hempty₁, hbalances₁⟩ := ih₁ hempty hH
    exact ⟨hempty₁, hbalances.append hbalances₁⟩

end Ledger

namespace Poll
variable {σ : Type} {m : Machine Ram σ}

theorem isSome_fault_fetch (hlatch : m.bus.latch = none) :
    (⟨.fetch, m⟩ : Poll Ram σ).fault.isSome ↔
      m.bus.isUnmapped m.regs.pc ∨ m.bus.isUnmapped (m.regs.pc + 1) := by
  have hfault : (⟨.fetch, m⟩ : Poll Ram σ).fault =
      m.bus.firstFault [⟨m.regs.pc, none⟩, ⟨m.regs.pc + 1, none⟩] :=
    Ram.latch_perform_of_none hlatch [⟨m.regs.pc, none⟩, ⟨m.regs.pc + 1, none⟩]
  rw [hfault, Ram.firstFault]
  simp

theorem pc_fetch (m : Machine Ram σ) : (⟨.fetch, m⟩ : Poll Ram σ).pc = m.regs.pc :=
  UInt32.add_sub_cancel m.regs.pc 2

end Poll

namespace Machine
variable {σ : Type} {m : Machine Ram σ}

theorem executeOpcode_of_fault {f : Fault} (hf : (⟨.fetch, m⟩ : Poll Ram σ).fault = some f) :
    m.executeOpcode ControlInstructions.table = (⟨.fetch, m⟩ : Poll Ram σ).settled := by
  have htaken : m.fetchOpcode.2.takeFault.1 = some f := hf
  rw [executeOpcode_eq, htaken, Poll.settled_of_some hf]
  rfl

theorem executeOpcode_dispatches (hf : (⟨.fetch, m⟩ : Poll Ram σ).fault = none) :
    m.Logged (fun e => e.isDispatch) (m.executeOpcode ControlInstructions.table) := by
  have htaken : m.fetchOpcode.2.takeFault.1 = none := hf
  have hfetch : m.Grows m.fetchOpcode.2.takeFault.2 := ⟨[_, _], rfl⟩
  have hhandler := (ControlInstructions.dispatch_evolves (m := m.fetchOpcode.2.takeFault.2)
    (P := fun _ => True) Registers.kept_true (fun _ _ => trivial) (Registry.respects_true _)
    m.fetchOpcode.1 fun _ _ _ => trivial).grows
  have hdispatched : m.Logged (fun e => e.isDispatch)
      (dispatched ControlInstructions.table m.fetchOpcode.1 m.fetchOpcode.2.takeFault.2) :=
    .grows_trans ((hfetch.trans hhandler).trans ⟨[], rfl⟩) (.of_log _ rfl)
  rw [executeOpcode_eq, htaken]
  exact hdispatched.trans_grows (deliverFault_continues _).grows

theorem cycles_raiseFault (hH : m.hooks.OnlyAccess) (pc : UInt32) (f : Fault) :
    ((m.takeFault.2.setPc pc).raiseFault f).cycles = m.cycles := by
  have hentered := (enterFault_works hH pc f).cycles
  rw [raiseFault_eq]
  split
  · exact hentered
  · exact hentered

theorem Routed.of_fetch {m' : Machine Ram σ} {pc : UInt32} {f : Fault} {second : Option Fault}
    (h : m.fetchOpcode.2.Routed pc f second m') : m.Routed pc f second m' := by
  have hfetch : m.Shows Event.routing m.fetchOpcode.2 [] := ⟨[_, _], rfl, rfl⟩
  obtain ⟨sp, hjournal⟩ := h.journal
  exact ⟨h.lastFault, ⟨sp, hfetch.trans hjournal⟩,
    h.frame.imp_left (.grows_trans ⟨[_, _], rfl⟩), h.halts⟩

theorem executeOpcode_refusesFetch (hlatch : m.bus.latch = none) (hH : m.hooks.OnlyAccess)
    {f : Fault} (hf : (⟨.fetch, m⟩ : Poll Ram σ).fault = some f) :
    m.RefusesFetch (m.executeOpcode ControlInstructions.table) := by
  have hI : ∀ e : Event, e.ofInstruction → ¬ e.isDispatch := by
    intro e he
    cases e <;> simp_all [Event.ofInstruction, Event.ofException, Event.isDispatch]
  have hF : ∀ e : Event, e.ofFault → ¬ e.isDispatch := by
    intro e he
    cases e <;> simp_all [Event.ofFault, Event.ofException, Event.isDispatch]
  have hfetch := fetchOpcode_evolves Registers.kept_true.toKeptByException hI
    (fun _ => by simp [Event.isDispatch]) m
  have hblamed := (hfetch.trans Registers.kept_true (takeFault_evolves Registers.kept_true _)).trans
    Registers.kept_true (.mapRegs (f := fun r => { r with pc := r.pc - 2 }) _ trivial)
  have hraised := hblamed.trans Registers.kept_true
    (raiseFault_evolves Registers.kept_true hF (Registry.respects_true _) f)
  have hrouted := (Poll.accounted (p := ⟨.fetch, m⟩) hlatch hH).routed f hf
  rw [Poll.pc_fetch] at hrouted
  rw [executeOpcode_of_fault hf]
  refine ⟨?_, ?_, f, _, hrouted.of_fetch⟩
  · rw [Poll.settled_of_some hf]
    exact hraised.not_logged fun _ h => h
  · rw [Poll.settled_of_some hf]
    exact cycles_raiseFault (m := m.fetchOpcode.2) hH _ f

theorem executeOpcode_refusesFetch_iff (hlatch : m.bus.latch = none) (hH : m.hooks.OnlyAccess) :
    m.RefusesFetch (m.executeOpcode ControlInstructions.table) ↔
      m.bus.isUnmapped m.regs.pc ∨ m.bus.isUnmapped (m.regs.pc + 1) := by
  rw [← Poll.isSome_fault_fetch hlatch]
  cases hf : (⟨.fetch, m⟩ : Poll Ram σ).fault with
  | none => simpa using fun h : RefusesFetch _ _ => h.undispatched (executeOpcode_dispatches hf)
  | some f => simpa using executeOpcode_refusesFetch hlatch hH hf

end Machine

namespace Execution
variable {σ η : Type} [Host η]

/-- On flat memory with nothing latched at the beginning of a call: nothing is latched when an
opcode is fetched or when the call returns, a fetch is refused if and only if memory refused one of
its bytes, and every fault is accounted for. -/
theorem faults_accounted {s : Hosted Ram σ η} (hlatch : s.machine.bus.latch = none)
    (hH : s.machine.hooks.OnlyAccess) (n : Nat) :
    let e := execute ControlInstructions.table n s
    let m := e.ready.2.machine
    e.state.machine.bus.latch = none ∧
      (e.phase = .opcode → m.bus.latch = none ∧
        (m.RefusesFetch (m.executeOpcode ControlInstructions.table) ↔
          m.bus.isUnmapped m.regs.pc ∨ m.bus.isUnmapped (m.regs.pc + 1))) ∧
      ∃ ps, Ledger s.machine ps e.state.machine ∧ s.machine.Balances ps e.state.machine := by
  intro e m
  obtain ⟨ps, hps⟩ : s.machine.Booked e.state.machine := execute_booked n s
  obtain ⟨hempty, hbalances⟩ := hps.balances hlatch hH
  have hready := e.ready_quiet
  have hlatched : m.bus.latch = none := by
    rw [hready.bus]
    exact hempty
  have hhooks : m.hooks.OnlyAccess := by
    rw [hready.hooks, hps.hooks]
    exact hH
  exact ⟨hempty, fun _ => ⟨hlatched, m.executeOpcode_refusesFetch_iff hlatched hhooks⟩, ps, hps,
    hbalances⟩

def copier : ExceptionHook Ram Unit := fun _ s =>
  (false, { s with bus := (s.bus.readByte 0xFC).2.writeByte 0x40 (s.bus.readByte 0xFC).1 })

def runaway : Hosted Ram Unit Host.Stuck :=
  let ram := (((Ram.ofSize 256).unmappedFrom 256).pokeLong 0x08 0xB0).loadWords 0xFC
    [0x4E71, 0x4E71]
  let m := Machine.ofSettings Settings.default ram ()
  ⟨(((m.setRegister .sp 0xA0).setRegister .pc 0xFC).installHook
    (.exception ExceptionVector.busError copier)).2, {}⟩

theorem runaway_onlyAccess : runaway.machine.hooks.OnlyAccess := by
  intro v e he s
  by_cases hv : v = ExceptionVector.busError
  · subst hv
    have hentries : (runaway.machine.hooks.exception ExceptionVector.busError).entries =
        [⟨0, 0, copier⟩] := rfl
    rw [hentries, List.mem_singleton] at he
    rw [he]
    exact ⟨rfl, [⟨0xFC, none⟩, ⟨0x40, some (s.bus.readByte 0xFC).1⟩], rfl⟩
  · have hempty : runaway.machine.hooks.exception v = .empty := if_neg hv
    rw [hempty] at he
    cases he

theorem faults_accounted_runaway :
    runaway.machine.bus.latch = none ∧ runaway.machine.hooks.OnlyAccess ∧
      (execute ControlInstructions.table 2 runaway).phase = .opcode ∧
      (execute ControlInstructions.table 2 runaway).ready.2.machine.RefusesFetch
        ((execute ControlInstructions.table 2 runaway).ready.2.machine.executeOpcode
          ControlInstructions.table) ∧
      (execute ControlInstructions.table 3 runaway).state.machine.bus.latch = none ∧
      ∃ ps, Ledger runaway.machine ps (execute ControlInstructions.table 3 runaway).state.machine ∧
        runaway.machine.Balances ps (execute ControlInstructions.table 3 runaway).state.machine ∧
          ps.filterMap Poll.fault = [⟨.bus, 0x100, 1, true⟩] := by
  have hlatch : runaway.machine.bus.latch = none := rfl
  have hphase : (execute ControlInstructions.table 2 runaway).phase = .opcode := by decide +kernel
  obtain ⟨-, hfetch, -⟩ := faults_accounted hlatch runaway_onlyAccess 2
  obtain ⟨hempty, -, ps, hps, hbalances⟩ := faults_accounted hlatch runaway_onlyAccess 3
  have hroutes : runaway.machine.Shows Event.routed
      (execute ControlInstructions.table 3 runaway).state.machine [⟨.bus, 0x100, 1, true⟩] :=
    ⟨(execute ControlInstructions.table 3 runaway).state.machine.journal, by decide +kernel,
      by decide +kernel⟩
  exact ⟨hlatch, runaway_onlyAccess, hphase, (hfetch hphase).2.mpr (by decide +kernel), hempty, ps,
    hps, hbalances, hbalances.routed.unique hroutes⟩

end Execution
end Mc68000
