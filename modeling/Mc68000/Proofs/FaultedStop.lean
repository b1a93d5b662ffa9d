import Mc68000.Machine.Control
import Mc68000.Memory.Ram
import Mc68000.Proofs.Loop

/-!
# Idling between a fault and its handler

A fault of an opcode is taken at the end of the opcode, and the handler starts with the next fetch.
An instruction that runs to its end on the zeros of a failed access may still do something that
comes before that fetch. STOP does: it is the one instruction after which the processor idles first.
-/

namespace Mc68000

namespace Event

def Calm (e : Event) : Prop := e.isDelay = false ∧ e.isFetch = false

theorem calm_of_ofHost {e : Event} (h : e.ofHost = true) : e.Calm := by
  cases e with
  | host call => cases call <;> simp_all [ofHost, Calm, isDelay, isFetch]
  | _ => simp_all [ofHost, Calm, isDelay, isFetch]

theorem calm_of_ofFault {e : Event} (h : e.ofFault = true) : e.Calm := by
  cases e <;> simp_all [ofFault, ofException, Calm, isDelay, isFetch]

theorem calm_of_ofPass {e : Event} (h : e.ofPass = true) : e.Calm := by
  by_cases hhost : e.ofHost = true
  · exact calm_of_ofHost hhost
  by_cases hfault : e.ofFault = true
  · exact calm_of_ofFault hfault
  cases e <;> simp_all [ofPass, Calm, isDelay, isFetch]

theorem calm_of_ofInterrupt {e : Event} (h : e.ofInterrupt = true) : e.Calm := by
  by_cases hfault : e.ofFault = true
  · exact calm_of_ofFault hfault
  cases e <;> simp_all [ofInterrupt, Calm, isDelay, isFetch]

end Event

def Registers.KeepsStop (r r' : Registers) : Prop := r'.pending.stop = r.pending.stop

theorem Registers.kept_stop : Registers.Kept Registers.KeepsStop where
  refl _ := rfl
  trans hab hbc := hbc.trans hab
  pc _ _ := rfl
  address _ _ _ _ := rfl
  pack _ := rfl
  supervisor r := by rw [KeepsStop, pending_enterSupervisor]
  dropTrace _ := rfl
  load r w := by rw [KeepsStop, loadStatus, stop_unpackStatus]
  mask _ _ := rfl
  breakRequest _ := rfl
  interruptCheck _ := rfl
  endOfCycle _ _ := rfl
  interruptDue _ := rfl

namespace Machine
variable {β σ : Type} [Bus β] {m : Machine β σ}

def atStatusWord (m : Machine β σ) : Machine β σ := m.fetchOpcode.2.takeFault.2

/-- The machine is about to execute a STOP, and memory refuses the status word. -/
def FaultsInStop (m : Machine β σ) : Prop :=
  m.ExecutesStop ∧ m.atStatusWord.fetchWord.2.takeFault.1.isSome = true

/-- The machine after a STOP, before a fault of it is routed. -/
def afterStop (m : Machine β σ) : Machine β σ :=
  ((m.atStatusWord.fetchWord.2.mapRegs fun r =>
    ControlInstructions.stopped (r.loadStatus m.atStatusWord.fetchWord.1)).charge 4).log
      (.dispatch 0x4E72 4)

theorem afterStop_takeFault (m : Machine β σ) :
    m.afterStop.takeFault.1 = m.atStatusWord.fetchWord.2.takeFault.1 := by
  have hfault : ∀ n : Machine β σ, n.takeFault.1 = (Bus.takeFault n.bus).1 := fun _ => rfl
  rw [hfault, hfault]
  rfl

theorem afterStop_evolves {P : Event → Prop} {R : Registers → Registers → Prop}
    (hK : Registers.KeptByOpcode R)
    (hP : ∀ e : Event, e.ofInstruction → P e) (hfetch : ∀ r, P (.fetch r))
    (hdone : ∀ w cost, P (.dispatch w cost)) (hstop : ∀ r, R r (ControlInstructions.stopped r))
    (m : Machine β σ) : Evolves P R m m.afterStop := by
  have hword : Evolves P R m m.atStatusWord :=
    (fetchOpcode_evolves hK hP hfetch m).trans hK (takeFault_evolves hK _)
  have hread := hword.trans hK (ControlInstructions.fetchWord_evolves hK hP _)
  have hloaded := hread.trans hK (.mapRegs (f := fun r => ControlInstructions.stopped
    (r.loadStatus m.atStatusWord.fetchWord.1)) _ (hK.trans (hK.load _ _) (hstop _)))
  exact (hloaded.trans hK (charge_evolves hK _ 4)).trans hK (.log hK _ (hdone _ _))

theorem executeOpcode_of_stop (h : m.ExecutesStop) :
    m.executeOpcode ControlInstructions.table = m.afterStop.deliverFault := by
  obtain ⟨hword, hfault, hs⟩ := h
  have hstop : ControlInstructions.table.dispatch 0x4E72 m.atStatusWord =
      (4, m.atStatusWord.fetchWord.2.mapRegs fun r =>
        ControlInstructions.stopped (r.loadStatus m.atStatusWord.fetchWord.1)) := by
    simp only [OpcodeTable.dispatch]
    rw [ControlInstructions.handler_stop]
    exact if_pos hs
  have hdone : dispatched ControlInstructions.table 0x4E72 m.atStatusWord = m.afterStop := by
    simp only [dispatched, afterStop]
    rw [hstop]
  rw [executeOpcode_eq, hfault, hword]
  exact congrArg deliverFault hdone

theorem executeOpcode_stop (h : m.ExecutesStop) (hooks : m.hooks.NoInterceptors) :
    (m.executeOpcode ControlInstructions.table).regs.pending.stop = true := by
  have hafter : m.afterStop.regs.pending.stop = true := rfl
  have hfault : Evolves (fun _ => True) Registers.KeepsStop m.afterStop m.afterStop.deliverFault :=
    deliverFault_evolves Registers.kept_stop (fun _ _ => trivial) (hooks.respects _)
  rw [executeOpcode_of_stop h]
  exact hfault.regs.trans hafter

theorem executeOpcode_fetches (m : Machine β σ) :
    Logged (fun e => e.isFetch) m (m.executeOpcode ControlInstructions.table) := by
  have hfetch : Logged (fun e => e.isFetch) m m.fetchOpcode.2.takeFault.2 :=
    ⟨[.stream m.regs.pc 2, .fetch m.regs], rfl, .fetch m.regs, by simp, rfl⟩
  have hrest : Continues m.fetchOpcode.2.takeFault.2
      (m.executeOpcode ControlInstructions.table) := by
    rw [executeOpcode_eq]
    generalize m.fetchOpcode.2.takeFault.2 = n
    split
    · exact Continues.trans (.mapRegs n trivial) (raiseFault_continues (n.setPc (n.regs.pc - 2)) _)
    · have hdone := dispatched_evolves (P := fun _ => True) Registers.kept_true
        (fun _ _ => trivial) (fun _ _ => trivial) (Registry.respects_true n.hooks)
        m.fetchOpcode.1 fun _ _ _ => trivial
      exact hdone.trans Registers.kept_true (deliverFault_continues _)
  exact hfetch.trans_grows hrest.grows

theorem deliverFault_logged (h : m.takeFault.1.isSome = true) :
    Logged (fun e => e.isFault) m m.deliverFault := by
  obtain ⟨f, hf⟩ := Option.isSome_iff_exists.mp h
  rw [deliverFault_eq, hf]
  dsimp only
  have hlog : Logged (fun e => e.isFault) m
      ({ m.takeFault.2.takeFault.2 with lastFault := some f }.log (.fault f)) :=
    ⟨[.fault f], rfl, _, List.mem_singleton_self _, rfl⟩
  have hentered : Logged (fun e => e.isFault) m (m.takeFault.2.enterFault f) :=
    hlog.trans_grows (takeException_continues _ _).grows
  rw [raiseFault_eq]
  split
  · exact hentered
  · exact hentered.trans_grows ⟨[_], rfl⟩

end Machine

namespace Hosted
variable {β σ η : Type} [Host η] [Bus β] {s : Hosted β σ η}

theorem dueInterrupt_calm (s : Hosted β σ η) :
    Machine.Evolves Event.Calm (fun _ _ => True) s.machine s.dueInterrupt.machine :=
  dueInterrupt_evolves Registers.kept_true (Event.of_talk fun _ => Event.calm_of_ofHost)
    (fun _ => Event.calm_of_ofInterrupt) (fun _ => trivial) (fun _ => trivial)
    (Registry.respects_true _)

theorem finishPass_stop (hooks : s.machine.hooks.Respects Registers.KeepsStop) :
    s.finishPass.2.machine.regs.pending.stop = s.machine.regs.pending.stop := by
  have harmed : Machine.Evolves (fun _ => True) Registers.KeepsStop s.machine s.machine.armTrace :=
    Machine.armTrace_evolves Registers.kept_stop (fun _ => trivial) fun _ => rfl
  have hpass := finishPass_evolves (P := fun _ => True) (R := Registers.KeepsStop) (s := s)
    Registers.kept_stop (fun _ _ => trivial) (fun _ => trivial) (fun _ => rfl) (fun _ => rfl)
    fun t ht => dueInterrupt_evolves Registers.kept_stop (fun _ _ => trivial) (fun _ _ => trivial)
      (fun _ => rfl) (fun _ => rfl) (ht ▸ harmed.respects hooks)
  exact hpass.regs

end Hosted

namespace Execution
variable {β σ η : Type} [Host η] [Bus β] {e : Execution β σ η}

def Awake (e : Execution β σ η) : Prop :=
  e.phase = .opcode → e.state.machine.regs.pending.stop = false

omit [Bus β] in
theorem start_awake (s : Hosted β σ η) : (start s).Awake := by
  simp only [start]
  generalize Watchdog.arm s = armed
  obtain ⟨watch, t⟩ := armed
  intro hphase
  by_cases hstop : t.machine.regs.pending.stop = true
  · simp [hstop] at hphase
  · exact Bool.eq_false_iff.mpr hstop

omit [Bus β] [Host η] in
theorem endPass_awake (watch : Watchdog) {outcome : Bool × Hosted β σ η}
    (h : outcome.2.machine.regs.pending.stop = false) : (endPass watch outcome).Awake :=
  fun _ => h

theorem opcodeStep_special_of_stop
    (h : (e.opcodeStep ControlInstructions.table).state.machine.regs.pending.stop = true) :
    (e.opcodeStep ControlInstructions.table).phase = .special :=
  opcodeStep_special (by simp [Pending.isEmpty, h])

theorem step_awake (hooks : e.state.machine.hooks.Respects Registers.KeepsStop)
    (hnested : e.phase = .special → Host.isNested e.state.host = false) :
    (e.step ControlInstructions.table).Awake := by
  simp only [step]
  cases hphase : e.phase with
  | opcode =>
    intro hopcode
    refine Bool.eq_false_iff.mpr fun hstop => ?_
    dsimp only at hopcode
    rw [opcodeStep_special_of_stop hstop] at hopcode
    cases hopcode
  | special =>
    have hno : e.state.isNested.1 = false := hnested hphase
    dsimp only
    rw [specialStep_eq, hno]
    split
    · contradiction
    split
    · intro hopcode
      cases hopcode
    split
    · intro hopcode
      cases hopcode
    · rename_i hstop
      refine endPass_awake _ ?_
      rw [Hosted.finishPass_stop ((traced_continues e).hooks ▸ hooks)]
      exact Bool.eq_false_iff.mpr hstop
  | idle watch =>
    dsimp only
    rw [idleStep_eq]
    dsimp only
    split
    · intro hopcode
      cases hopcode
    split
    · intro hopcode
      cases hopcode
    · rename_i hstop
      refine endPass_awake _ ?_
      rw [Hosted.finishPass_stop ((woken_continues watch e).hooks ▸ hooks)]
      exact Bool.eq_false_iff.mpr hstop
  | returned =>
    intro hopcode
    rw [hphase] at hopcode
    cases hopcode

theorem execute_hooks (s : Hosted β σ η) (n : Nat) :
    (execute ControlInstructions.table n s).state.machine.hooks = s.machine.hooks :=
  (execute_continues s n).hooks

theorem execute_awake_of_respects {s : Hosted β σ η}
    (hooks : s.machine.hooks.Respects Registers.KeepsStop)
    (hnested : ∀ n, Host.isNested (execute ControlInstructions.table n s).state.host = false)
    (n : Nat) : (execute ControlInstructions.table n s).Awake := by
  cases n with
  | zero => exact start_awake s
  | succ n =>
    rw [execute_succ]
    exact step_awake ((execute_continues s n).respects hooks) fun _ => hnested n

theorem execute_awake {s : Hosted β σ η} (hooks : s.machine.hooks.NoInterceptors)
    (hnested : ∀ n, Host.isNested (execute ControlInstructions.table n s).state.host = false)
    (n : Nat) : (execute ControlInstructions.table n s).Awake :=
  execute_awake_of_respects (hooks.respects _) hnested n

theorem opcodeStep_fetches (e : Execution β σ η) :
    Machine.Logged (fun e => e.isFetch) e.state.machine
      (e.opcodeStep ControlInstructions.table).state.machine := by
  have hfetch := Machine.executeOpcode_fetches e.ready.2.machine
  rw [opcodeStep_eq]
  exact (Machine.Logged.grows_trans (ready_continues e).grows hfetch).trans_grows
    (Hosted.cycle_continues (e.ready.2.map (Machine.executeOpcode ControlInstructions.table))
      false).grows

theorem opcodeStep_stop_iff (hooks : e.state.machine.hooks.NoInterceptors)
    (hawake : e.state.machine.regs.pending.stop = false) :
    (e.opcodeStep ControlInstructions.table).state.machine.regs.pending.stop = true ↔
      e.ready.2.machine.ExecutesStop := by
  constructor
  · intro hstopped
    refine Classical.byContradiction fun hno => ?_
    have hkept := opcodeStep_evolves (P := fun _ => True) Registers.kept_stop.toKeptByOpcode
      (fun _ _ => trivial) (fun _ _ => trivial) (hooks.respects _) fun hstop => absurd hstop hno
    have hsame : (e.opcodeStep ControlInstructions.table).state.machine.regs.pending.stop =
        e.state.machine.regs.pending.stop := hkept.regs
    rw [hsame, hawake] at hstopped
    cases hstopped
  · intro hstop
    have hdone := Machine.executeOpcode_stop hstop ((ready_continues e).hooks ▸ hooks)
    have hcycle := Hosted.cycle_evolves (P := fun _ => True)
      Registers.kept_stop.toKeptByHousekeeping (fun _ _ => trivial)
      (e.ready.2.map (Machine.executeOpcode ControlInstructions.table)) false
    rw [opcodeStep_eq]
    exact hcycle.regs.trans hdone

theorem opcodeStep_faults_iff (hstop : e.ready.2.machine.ExecutesStop) :
    Machine.Logged (fun e => e.isFault) e.state.machine
        (e.opcodeStep ControlInstructions.table).state.machine ↔
      e.ready.2.machine.FaultsInStop := by
  have hP : ∀ e : Event, e.ofHost = true → ¬ e.isFault = true := fun e he => by
    cases e <;> simp_all [Event.ofHost, Event.isFault]
  have hI : ∀ e : Event, e.ofInstruction = true → ¬ e.isFault = true := fun e he => by
    cases e <;> simp_all [Event.ofInstruction, Event.ofException, Event.isFault]
  have hready := ready_evolves (R := fun _ _ => True) Registers.kept_true hP e
  let m := e.ready.2.machine
  have hafter := Machine.afterStop_evolves (R := fun _ _ => True) Registers.kept_true hI
    (fun _ => by simp [Event.isFault]) (fun _ _ => by simp [Event.isFault]) (fun _ => trivial) m
  rw [opcodeStep_eq]
  dsimp only
  have hcycle := Hosted.cycle_evolves (R := fun _ _ => True) Registers.kept_true (Event.of_talk hP)
    (e.ready.2.map (Machine.executeOpcode ControlInstructions.table)) false
  constructor
  · intro hfault
    refine ⟨hstop, Classical.byContradiction fun hnone => ?_⟩
    have hnone' : m.afterStop.takeFault.1 = none := by
      rw [Machine.afterStop_takeFault]
      exact Option.not_isSome_iff_eq_none.mp hnone
    have hquiet : Machine.Evolves (fun e => ¬ e.isFault = true) (fun _ _ => True) m
        (m.executeOpcode ControlInstructions.table) := by
      rw [Machine.executeOpcode_of_stop hstop, Machine.deliverFault_eq, hnone']
      exact hafter.trans Registers.kept_true (Machine.takeFault_evolves Registers.kept_true _)
    have hall := (hready.trans Registers.kept_true hquiet).trans Registers.kept_true hcycle
    exact hall.not_logged (fun _ he => he) hfault
  · intro hfaults
    have hlogged : Machine.Logged (fun e => e.isFault) m
        (m.executeOpcode ControlInstructions.table) := by
      rw [Machine.executeOpcode_of_stop hstop]
      refine .grows_trans hafter.grows (Machine.deliverFault_logged ?_)
      rw [Machine.afterStop_takeFault]
      exact hfaults.2
    exact (Machine.Logged.grows_trans hready.grows hlogged).trans_grows hcycle.grows

theorem specialStep_calm (e : Execution β σ η) :
    Machine.Evolves Event.Calm (fun _ _ => True) e.state.machine e.specialStep.state.machine :=
  specialStep_evolves Registers.kept_true (fun _ => Event.calm_of_ofPass) (fun _ => trivial)
    (fun _ => trivial) (Registry.respects_true _) fun t _ => Hosted.dueInterrupt_calm t

theorem idleStep_unfetched (watch : Watchdog) (e : Execution β σ η) :
    Machine.Evolves (fun e => e.isFetch = false) (fun _ _ => True) e.state.machine
      (e.idleStep watch).state.machine :=
  idleStep_evolves Registers.kept_true (fun _ he => (Event.calm_of_ofHost he).2) (fun _ => rfl) rfl
    (fun _ => trivial) (fun _ _ => trivial)
    (Hosted.idleInterrupt_evolves Registers.kept_true
      (Event.of_talk fun _ he => (Event.calm_of_ofHost he).2)
      (fun _ he => (Event.calm_of_ofInterrupt he).2) (fun _ => trivial) (fun _ => trivial)
      (Registry.respects_true _))
    fun t _ => (Hosted.dueInterrupt_calm t).mono fun _ he => he.2

theorem idleStep_delays (watch : Watchdog) (e : Execution β σ η) :
    Machine.Logged (fun e => e.isDelay) e.state.machine (e.idleStep watch).state.machine := by
  let s := (watch.check e.state).2
  let delayed := (s.request Host.delay .delay).map fun m => m.charge m.settings.idleTickCycles
  have hchecked := (Hosted.watchdog_check_talks (P := fun _ => True) (fun _ _ => trivial) watch
    e.state).continues.grows
  have hdelay : Machine.Logged (fun e => e.isDelay) s.machine delayed.machine :=
    .of_log s.machine rfl
  have htick : Machine.Grows delayed.machine (e.ticked watch).2.machine :=
    (Hosted.cycle_continues delayed true).grows
  have hwoken := (Hosted.idleInterrupt_continues (e.ticked watch).2).grows
  exact (Machine.Logged.grows_trans hchecked hdelay).trans_grows
    ((htick.trans hwoken).trans (idleStep_rest_continues watch e).grows)

theorem traced_stop (hooks : e.state.machine.hooks.Respects Registers.KeepsStop) :
    e.traced.machine.regs.pending.stop = e.state.machine.regs.pending.stop :=
  (traced_evolves (P := fun _ => True) Registers.kept_stop (fun _ _ => trivial) hooks).regs

theorem specialStep_phase (hooks : e.state.machine.hooks.NoInterceptors)
    (hnested : Host.isNested e.state.host = false)
    (h : e.probed.1 = true ∨ e.state.machine.regs.pending.stop = false) :
    e.specialStep.phase = .returned ∨ e.specialStep.phase = .opcode := by
  by_cases hleave : e.probed.1 = true
  · have hno : e.state.isNested.1 = false := hnested
    rw [specialStep_eq, hno, hleave]
    exact .inl rfl
  · have hstop := h.resolve_left hleave
    rw [specialStep_of_stay hnested (Bool.eq_false_iff.mpr hleave),
      traced_stop (hooks.respects _), hstop, if_neg Bool.false_ne_true]
    simp only [endPass]
    split
    · exact .inl rfl
    · exact .inr rfl

theorem run_fetches (h : e.phase = .opcode) (k : Nat) :
    Machine.Logged (fun e => e.isFetch) e.state.machine
      (e.run ControlInstructions.table (k + 1)).state.machine := by
  rw [run_step, step_opcode _ h]
  exact (opcodeStep_fetches e).trans_grows (run_continues _ k).grows

theorem fetch_of_delay (hooks : e.state.machine.hooks.NoInterceptors)
    (hnested : Host.isNested e.state.host = false)
    (h : e.phase = .opcode ∨ e.phase = .special ∧
      (e.probed.1 = true ∨ e.state.machine.regs.pending.stop = false)) {k : Nat}
    (hdelay : Machine.Logged (fun e => e.isDelay) e.state.machine
      (e.run ControlInstructions.table k).state.machine) :
    Machine.Logged (fun e => e.isFetch) e.state.machine
      (e.run ControlInstructions.table k).state.machine := by
  cases k with
  | zero => exact absurd hdelay Machine.Logged.irrefl
  | succ k =>
    rcases h with hopcode | ⟨hspecial, hprompt⟩
    · exact run_fetches hopcode k
    have hcalm := specialStep_calm e
    have hnone : ¬ Machine.Logged (fun e => e.isDelay) e.state.machine
        e.specialStep.state.machine :=
      hcalm.not_logged fun _ he => by simp [he.1]
    rw [run_step, step_special _ hspecial] at hdelay ⊢
    rcases specialStep_phase hooks hnested hprompt with hreturned | hopcode
    · rw [run_of_returned ControlInstructions.table hreturned] at hdelay
      exact absurd hdelay hnone
    · cases k with
      | zero => exact absurd hdelay hnone
      | succ k => exact .grows_trans hcalm.grows (run_fetches hopcode k)

theorem delay_before_fetch (hooks : e.state.machine.hooks.NoInterceptors)
    (hnested : Host.isNested e.state.host = false) (hspecial : e.phase = .special)
    (hstay : e.probed.1 = false) (hstop : e.state.machine.regs.pending.stop = true) :
    Machine.Logged (fun e => e.isDelay) e.state.machine
        (e.run ControlInstructions.table 2).state.machine ∧
      ¬ Machine.Logged (fun e => e.isFetch) e.state.machine
        (e.run ControlInstructions.table 2).state.machine := by
  have hidle : e.specialStep.phase = .idle e.traced.enterIdle.1 := by
    rw [specialStep_of_stay hnested hstay, traced_stop (hooks.respects _), if_pos hstop]
  have hcalm := specialStep_calm e
  have hunfetched := (hcalm.mono fun _ he => he.2).trans Registers.kept_true
    (idleStep_unfetched e.traced.enterIdle.1 e.specialStep)
  rw [run_step, step_special _ hspecial, run_step, run, step_idle _ hidle]
  exact ⟨.grows_trans hcalm.grows (idleStep_delays _ _),
    hunfetched.not_logged fun _ he => by simp [he]⟩

def IdlesBeforeFetch (e : Execution β σ η) : Prop :=
  ∃ k, Machine.Logged (fun e => e.isDelay) e.state.machine
      (e.run ControlInstructions.table k).state.machine ∧
    ¬ Machine.Logged (fun e => e.isFetch) e.state.machine
      (e.run ControlInstructions.table k).state.machine

theorem idlesBeforeFetch_iff (hooks : e.state.machine.hooks.NoInterceptors)
    (hawake : e.state.machine.regs.pending.stop = false)
    (hnested : Host.isNested (e.opcodeStep ControlInstructions.table).state.host = false) :
    (e.opcodeStep ControlInstructions.table).IdlesBeforeFetch ↔
      e.ready.2.machine.ExecutesStop ∧
        (e.opcodeStep ControlInstructions.table).probed.1 = false := by
  let next := e.opcodeStep ControlInstructions.table
  have hooks' : next.state.machine.hooks.NoInterceptors :=
    (opcodeStep_continues e).hooks ▸ hooks
  have hstopped := opcodeStep_stop_iff hooks hawake
  constructor
  · rintro ⟨k, hdelay, hnofetch⟩
    have hstop : next.state.machine.regs.pending.stop = true := by
      refine Classical.byContradiction fun hno => hnofetch ?_
      have hphase : next.phase = .opcode ∨ next.phase = .special := by
        rw [opcodeStep_phase]
        split
        · exact .inl rfl
        · exact .inr rfl
      exact fetch_of_delay hooks' hnested (hphase.imp_right fun hspecial =>
        ⟨hspecial, .inr (Bool.eq_false_iff.mpr hno)⟩) hdelay
    refine ⟨hstopped.mp hstop, Bool.eq_false_iff.mpr fun hleave => hnofetch ?_⟩
    exact fetch_of_delay hooks' hnested
      (.inr ⟨opcodeStep_special_of_stop hstop, .inl hleave⟩) hdelay
  · rintro ⟨hstop, hstay⟩
    have hstop' := hstopped.mpr hstop
    exact ⟨2, delay_before_fetch hooks' hnested (opcodeStep_special_of_stop hstop') hstay hstop'⟩

/-- The next step takes the fault of an opcode without a double fault, and then the processor idles
before it fetches the first opcode of the handler. -/
def IdlesFirst (e : Execution β σ η) : Prop :=
  let next := e.step ControlInstructions.table
  e.phase = .opcode ∧ Machine.Logged (fun e => e.isFault) e.state.machine next.state.machine ∧
    ¬ Machine.Logged (fun e => e.isDoubleFault) e.state.machine next.state.machine ∧
      next.IdlesBeforeFetch

theorem idlesFirst_iff (hooks : e.state.machine.hooks.NoInterceptors) (hawake : e.Awake)
    (hnested : Host.isNested (e.step ControlInstructions.table).state.host = false) :
    e.IdlesFirst ↔ e.phase = .opcode ∧ e.ready.2.machine.FaultsInStop ∧
      ¬ Machine.Logged (fun e => e.isDoubleFault) e.state.machine
        (e.step ControlInstructions.table).state.machine ∧
        (e.step ControlInstructions.table).probed.1 = false := by
  refine and_congr_right fun hopcode => ?_
  rw [step_opcode _ hopcode] at hnested ⊢
  have hidles := idlesBeforeFetch_iff hooks (hawake hopcode) hnested
  constructor
  · rintro ⟨hfault, hsingle, hidle⟩
    obtain ⟨hstop, hstay⟩ := hidles.mp hidle
    exact ⟨(opcodeStep_faults_iff hstop).mp hfault, hsingle, hstay⟩
  · rintro ⟨hfaults, hsingle, hstay⟩
    have hfault := (opcodeStep_faults_iff hfaults.1).mpr hfaults
    exact ⟨hfault, hsingle, hidles.mpr ⟨hfaults.1, hstay⟩⟩

/-- In a call that is not nested, with no exception hooks: after the fault of an opcode the
processor idles ahead of the handler if and only if the opcode is a STOP that was refused its status
word, and the host does not end the call first. -/
theorem idles_first_iff {s : Hosted β σ η} (hooks : s.machine.hooks.NoInterceptors)
    (hnested : ∀ n, Host.isNested (execute ControlInstructions.table n s).state.host = false)
    (n : Nat) :
    let e := execute ControlInstructions.table n s
    let next := e.step ControlInstructions.table
    e.IdlesFirst ↔ e.phase = .opcode ∧ e.ready.2.machine.FaultsInStop ∧
      ¬ Machine.Logged (fun e => e.isDoubleFault) e.state.machine next.state.machine ∧
        next.probed.1 = false := by
  have hnext := hnested (n + 1)
  rw [execute_succ] at hnext
  refine idlesFirst_iff ?_ (execute_awake hooks hnested n) hnext
  rw [execute_hooks]
  exact hooks

def stranded : Hosted Ram Unit Host.Stuck :=
  let ram := ((((Ram.ofSize 256).unmappedFrom 256).pokeLong 0x08 0xB0).loadWords 0xFE
    [0x4E72]).loadWords 0xB0 [0x4E71, 0x4E71]
  let m := Machine.ofSettings { Settings.default with exceptionHistory := 8 } ram ()
  ⟨(m.setRegister .sp 0xA0).setRegister .pc 0xFE, { limit := 2 }⟩

theorem stranded_idles : (execute ControlInstructions.table 0 stranded).IdlesFirst := by
  have hnext : (execute ControlInstructions.table 0 stranded).step ControlInstructions.table =
      execute ControlInstructions.table 1 stranded := (execute_succ _ 0 stranded).symm
  have hgrows := (execute_succ_continues stranded 0).grows
  have hrun := (run_continues (execute ControlInstructions.table 1 stranded) 2).grows
  simp only [IdlesFirst]
  rw [hnext]
  refine ⟨rfl, (Machine.Logged.iff_any hgrows).mpr (by decide +kernel),
    fun h => ?_, 2, (Machine.Logged.iff_any hrun).mpr (by decide +kernel), fun h => ?_⟩
  · have hdouble := (Machine.Logged.iff_any hgrows).mp h
    revert hdouble
    decide +kernel
  · have hfetch := (Machine.Logged.iff_any hrun).mp h
    revert hfetch
    decide +kernel

theorem idles_first_stranded :
    (∀ n, Host.isNested (execute ControlInstructions.table n stranded).state.host = false) ∧
      stranded.machine.hooks.NoInterceptors ∧
      (execute ControlInstructions.table 0 stranded).ready.2.machine.FaultsInStop := by
  have hooks : stranded.machine.hooks.NoInterceptors := fun _ => rfl
  have hiff := idles_first_iff hooks (fun _ => rfl) 0
  exact ⟨fun _ => rfl, hooks, (hiff.mp stranded_idles).2.1⟩

theorem fault_waits_for_idling :
    (∀ n, Host.isNested (execute ControlInstructions.table n stranded).state.host = false) ∧
      stranded.machine.hooks.NoInterceptors ∧
      (execute ControlInstructions.table 0 stranded).IdlesFirst :=
  ⟨fun _ => rfl, fun _ => rfl, stranded_idles⟩

end Execution
end Mc68000
