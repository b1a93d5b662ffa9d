import Mc68000.Proofs.FaultedStop
import Mc68000.Proofs.StackOverflow

/-!
# From a STOP to the interrupt that ends it

A stopped processor fetches nothing, and nothing of its registers but the pending conditions
changes, until an idle tick finds an interrupt above the mask. The interrupt is then taken at the
program counter of the STOP. The loop of idle ticks, cut into steps by the execution loop, is put
together again here (`Idling.loop`).
-/

namespace Mc68000

namespace Event

def fetch? : Event → Option Registers
  | .fetch r => some r
  | _ => none

def delivery? (e : Event) : Option Event :=
  match e with
  | .interrupt .. | .exception _ => some e
  | _ => none

theorem fetch?_of_isFetch {e : Event} (h : e.isFetch = false) : e.fetch? = none := by
  cases e <;> simp_all [isFetch, fetch?]

theorem fetch?_of_ofHost {e : Event} (h : e.ofHost = true) : e.fetch? = none :=
  fetch?_of_isFetch (calm_of_ofHost h).2

theorem fetch?_of_ofFault {e : Event} (h : e.ofFault = true) : e.fetch? = none :=
  fetch?_of_isFetch (calm_of_ofFault h).2

theorem fetch?_of_ofInstruction {e : Event} (h : e.ofInstruction = true) : e.fetch? = none := by
  cases e <;> simp_all [ofInstruction, ofException, fetch?]

theorem delivery?_of_ofHost {e : Event} (h : e.ofHost = true) : e.delivery? = none := by
  cases e <;> simp_all [ofHost, delivery?]

theorem delivery?_of_ofEntry {e : Event} (h : e.ofEntry = true) : e.delivery? = none := by
  cases e <;> simp_all [ofEntry, delivery?]

end Event

namespace Machine
variable {β σ : Type} {m m₁ : Machine β σ}

theorem Shows.of_grows {α : Type} (p : Event → Option α) (h : Grows m m₁) :
    ∃ as, Shows p m m₁ as := by
  obtain ⟨es, hj⟩ := h
  exact ⟨_, es, hj, rfl⟩

variable [Bus β]

theorem executeOpcode_shows (m : Machine β σ) :
    Shows Event.fetch? m (m.executeOpcode ControlInstructions.table) [m.regs] := by
  have hfetch : Shows Event.fetch? m m.fetchOpcode.2.takeFault.2 [m.regs] := ⟨[_, _], rfl, rfl⟩
  have hK := Registers.kept_true
  have hrest : Evolves (fun e => e.fetch? = none) (fun _ _ => True) m.fetchOpcode.2.takeFault.2
      (m.executeOpcode ControlInstructions.table) := by
    rw [executeOpcode_eq]
    generalize m.fetchOpcode.2.takeFault.2 = n
    split
    · have hback : Evolves (fun e => e.fetch? = none) (fun _ _ => True) n
          (n.setPc (n.regs.pc - 2)) := .mapRegs n trivial
      exact hback.trans hK
        (raiseFault_evolves hK (fun _ => Event.fetch?_of_ofFault) (Registry.respects_true _) _)
    · have hdone := dispatched_evolves (m := n) hK (fun _ => Event.fetch?_of_ofInstruction)
        (fun _ _ => rfl) (Registry.respects_true _) m.fetchOpcode.1 fun _ _ _ => trivial
      exact hdone.trans hK
        (deliverFault_evolves hK (fun _ => Event.fetch?_of_ofFault) (Registry.respects_true _))
  simpa using hfetch.trans (.of_evolves hrest)

end Machine

namespace Hosted
variable {β σ η : Type} [Host η] [Bus β] {s : Hosted β σ η}

theorem acceptInterrupt_wakened_stop {m : Machine β σ}
    (hooks : m.hooks.Respects Registers.KeepsStop) (base level : UInt8) :
    (acceptInterrupt wakened base level m).regs.pending.stop = false := by
  let woken := (m.takeInterrupt base level).mapRegs fun r => wakened { r with stopped := false }
  have htaken : Machine.Continues m (m.takeInterrupt base level) :=
    Machine.takeInterrupt_evolves Registers.kept_true (fun _ _ => trivial) (fun _ _ _ => trivial)
      (fun _ => trivial) (Registry.respects_true _) base level
  have hwoken : woken.hooks.Respects Registers.KeepsStop := htaken.respects hooks
  exact (Machine.deliverFault_evolves (P := fun _ => True) Registers.kept_stop
    (fun _ _ => trivial) hwoken).regs

theorem idleInterrupt_stop_iff (hooks : s.machine.hooks.Respects Registers.KeepsStop)
    (hstop : s.machine.regs.pending.stop = true) :
    s.idleInterrupt.machine.regs.pending.stop = false ↔ s.WakeDue := by
  constructor
  · intro hawake
    refine Classical.byContradiction fun hno => ?_
    have hkept := idleInterrupt_evolves_of_not_due (P := fun _ => True)
      Registers.kept_stop.toKeptByException (fun _ _ => trivial) (fun _ => rfl) hno
    have hsame : s.idleInterrupt.machine.regs.pending.stop = s.machine.regs.pending.stop :=
      hkept.regs
    rw [hsame, hstop] at hawake
    cases hawake
  · rintro ⟨hlook, level, hl, hm⟩
    rw [idleInterrupt_eq, if_pos (by simpa using hlook), answerInterrupt_of_above hl hm]
    have hasked : (s.askBase Pending.withoutInterrupt).2.machine.hooks.Respects
        Registers.KeepsStop := hooks
    exact acceptInterrupt_wakened_stop hasked _ level

theorem acceptInterrupt_delivers (wake : Registers → Registers) (base : UInt8) {level : UInt8}
    (hlevel : Machine.isInterruptLevel level = true) (m : Machine β σ) :
    ∃ later, m.Shows Event.delivery? (acceptInterrupt wake base level m)
      (.interrupt base level m.regs.status.mask ::
        .exception ⟨base + level, m.regs.pc, m.regs.sp⟩ :: later) := by
  let logged := m.log (.interrupt base level m.regs.status.mask)
  let taken := logged.takeException (base + level)
  have hlogged : m.Shows Event.delivery? logged [.interrupt base level m.regs.status.mask] :=
    ⟨[_], rfl, rfl⟩
  have htaken := hlogged.trans (Machine.takeException_shows (p := Event.delivery?)
    (fun _ => Event.delivery?_of_ofEntry) logged (base + level))
  have hwoken : taken.Grows (interruptTaken wake level taken) := ⟨[], rfl⟩
  obtain ⟨later, hlater⟩ := Machine.Shows.of_grows Event.delivery?
    (hwoken.trans (Machine.deliverFault_continues _).grows)
  rw [acceptInterrupt_eq wake base hlevel]
  exact ⟨later, htaken.trans hlater⟩

theorem idleInterrupt_delivers {level : UInt8}
    (hlook : s.machine.regs.pending.interruptCheck = true ∨
      s.machine.regs.pending.interruptDue = true)
    (hl : Host.pending s.host = some level) (hm : s.machine.regs.status.mask < level) :
    let base := Host.interruptBase (Host.interruptLevel s.host).2
    ∃ later, s.machine.Shows Event.delivery? s.idleInterrupt.machine
      (.interrupt base level s.machine.regs.status.mask ::
        .exception ⟨base + level, s.machine.regs.pc, s.machine.regs.sp⟩ :: later) := by
  intro base
  rw [idleInterrupt_eq, if_pos (by simpa using hlook), answerInterrupt_of_above hl hm]
  let asked := s.askBase Pending.withoutInterrupt
  have hasked : s.machine.Shows Event.delivery? asked.2.machine [] := ⟨[_, _], rfl, rfl⟩
  obtain ⟨later, hlater⟩ := acceptInterrupt_delivers wakened asked.1
    (isInterruptLevel_of_pending hl) asked.2.machine
  exact ⟨later, hasked.trans hlater⟩

end Hosted

theorem Machine.traceIfDue_of_stop {β σ : Type} [Bus β] {m : Machine β σ}
    (h : m.regs.pending.stop = true) : m.traceIfDue = m := by
  simp only [traceIfDue]
  rw [if_neg]
  simp [h]

namespace Execution
variable {β σ η : Type} [Host η] [Bus β] {e : Execution β σ η}

abbrev Stopped (e : Execution β σ η) : Prop := e.state.machine.regs.pending.stop = true

def IdlesStopped (e : Execution β σ η) : Prop := ∀ watch, e.phase = .idle watch → e.Stopped

omit [Host η] [Bus β] in
theorem endPass_idlesStopped (watch : Watchdog) (outcome : Bool × Hosted β σ η) :
    (endPass watch outcome).IdlesStopped := by
  intro w hphase
  simp only [endPass] at hphase
  split at hphase <;> cases hphase

theorem step_idlesStopped (e : Execution β σ η) :
    (e.step ControlInstructions.table).IdlesStopped := by
  simp only [step]
  cases hphase : e.phase with
  | opcode =>
    intro w hidle
    dsimp only at hidle
    rw [opcodeStep_phase] at hidle
    split at hidle <;> cases hidle
  | special =>
    dsimp only
    rw [specialStep_eq]
    split
    · exact endPass_idlesStopped _ _
    split
    · rintro w ⟨⟩
    split
    · rename_i hstop
      have hregs := (Hosted.enterIdle_talks (P := fun _ => True) (fun _ _ => trivial)
        e.traced).1.regs
      exact fun _ _ => (congrArg (fun r => r.pending.stop) hregs).trans hstop
    · exact endPass_idlesStopped _ _
  | idle watch =>
    dsimp only
    rw [idleStep_eq]
    dsimp only
    split
    · rintro w ⟨⟩
    split
    · exact fun _ _ => ‹_›
    · exact endPass_idlesStopped _ _
  | returned =>
    intro w hidle
    rw [hphase] at hidle
    cases hidle

theorem execute_idlesStopped (s : Hosted β σ η) (n : Nat) :
    (execute ControlInstructions.table n s).IdlesStopped := by
  cases n with
  | zero =>
    intro w hidle
    simp only [execute, run, start] at hidle
    split at hidle <;> cases hidle
  | succ n =>
    rw [execute_succ]
    exact step_idlesStopped _

def woken (watch : Watchdog) (e : Execution β σ η) : Bool × Hosted β σ η :=
  (e.ticked watch).2.idleInterrupt.checkForBreak

theorem woken_stop_iff (hooks : e.state.machine.hooks.Respects Registers.KeepsStop)
    (hstop : e.state.machine.regs.pending.stop = true) (watch : Watchdog) :
    (e.woken watch).2.machine.regs.pending.stop = false ↔ (e.ticked watch).2.WakeDue := by
  have hticked := ticked_evolves (P := fun _ => True) Registers.kept_stop.toKeptByHousekeeping
    (fun _ _ => trivial) trivial watch e
  have hbreak := Hosted.checkForBreak_evolves (P := fun _ => True)
    Registers.kept_stop.toKeptByException (fun _ _ => trivial) (fun _ => rfl)
    (e.ticked watch).2.idleInterrupt
  have hsame : (e.woken watch).2.machine.regs.pending.stop =
      (e.ticked watch).2.idleInterrupt.machine.regs.pending.stop := hbreak.regs
  rw [hsame]
  exact Hosted.idleInterrupt_stop_iff (hticked.respects hooks) (hticked.regs.trans hstop)

omit [Bus β] in
theorem ticked_rests (watch : Watchdog) (e : Execution β σ η) :
    e.state.machine.regs.Rests (e.ticked watch).2.machine.regs :=
  (Hosted.watchdog_check_talks (P := fun _ => True) (fun _ _ => trivial) watch e.state).rests.trans
    (Hosted.tick_rests _)

theorem woken_rests {watch : Watchdog} (h : ¬ (e.ticked watch).2.WakeDue) :
    e.state.machine.regs.Rests (e.woken watch).2.machine.regs :=
  ((ticked_rests watch e).trans (Hosted.idleInterrupt_rests_of_not_due h)).trans
    (Hosted.checkForBreak_rests _)

theorem specialStep_regs_of_stop (hnested : Host.isNested e.state.host = false)
    (hstop : e.state.machine.regs.pending.stop = true) :
    e.specialStep.state.machine.regs = e.state.machine.regs := by
  have hno : e.state.isNested.1 = false := hnested
  have hprobed : e.probed.2.machine.regs = e.state.machine.regs :=
    (probed_talks (P := fun _ => True) (fun _ _ => trivial) e).1.regs
  have htraced : e.traced.machine.regs = e.state.machine.regs := by
    have hsame : e.traced.machine = e.probed.2.machine :=
      Machine.traceIfDue_of_stop ((congrArg (fun r => r.pending.stop) hprobed).trans hstop)
    rw [hsame, hprobed]
  have hidle : e.traced.enterIdle.2.machine.regs = e.state.machine.regs :=
    (Hosted.enterIdle_talks (P := fun _ => True) (fun _ _ => trivial) e.traced).1.regs.trans htraced
  rw [specialStep_eq, hno, htraced, hstop]
  split
  · contradiction
  split
  · exact hprobed
  · exact hidle

theorem idleStep_of_not_due (hooks : e.state.machine.hooks.Respects Registers.KeepsStop)
    (hstop : e.state.machine.regs.pending.stop = true) {watch : Watchdog}
    (h : ¬ (e.ticked watch).2.WakeDue) :
    (e.idleStep watch).state.machine.regs.pending.stop = true ∧
      e.state.machine.regs.Rests (e.idleStep watch).state.machine.regs := by
  have hwoken : (e.woken watch).2.machine.regs.pending.stop = true := by
    simpa using mt (woken_stop_iff hooks hstop watch).mp h
  have hrests := woken_rests h
  rw [idleStep_eq]
  simp only [woken] at hwoken hrests
  dsimp only
  rw [hwoken]
  split
  · exact ⟨hwoken, hrests.trans ⟨_, _, _, _, rfl⟩⟩
  · exact ⟨hwoken, hrests⟩

theorem idleStep_of_due (hooks : e.state.machine.hooks.Respects Registers.KeepsStop)
    (hstop : e.state.machine.regs.pending.stop = true) {watch : Watchdog}
    (h : (e.ticked watch).2.WakeDue) :
    (e.idleStep watch).state.machine.regs.pending.stop = false := by
  have hwoken := (woken_stop_iff hooks hstop watch).mpr h
  have hhooks := (woken_continues watch e).respects hooks
  rw [idleStep_eq]
  simp only [woken] at hwoken
  dsimp only
  rw [hwoken]
  split
  · exact hwoken
  · exact (Hosted.finishPass_stop hhooks).trans hwoken

theorem step_of_stop (hooks : e.state.machine.hooks.Respects Registers.KeepsStop)
    (hawake : e.Awake) (hnested : Host.isNested e.state.host = false)
    (hstop : e.state.machine.regs.pending.stop = true) :
    let next := (e.step ControlInstructions.table).state.machine
    (next.regs.pending.stop = false ↔ e.WakesUp) ∧
      (¬ e.WakesUp → e.state.machine.regs.Rests next.regs) := by
  have hresting : ∀ {r : Registers}, r = e.state.machine.regs → ¬ e.WakesUp →
      (r.pending.stop = false ↔ e.WakesUp) ∧ (¬ e.WakesUp → e.state.machine.regs.Rests r) := by
    rintro r rfl hno
    exact ⟨⟨fun h => absurd (hstop.symm.trans h) (by decide), fun h => absurd h hno⟩,
      fun _ => .refl _⟩
  simp only [step]
  cases hphase : e.phase with
  | opcode => exact absurd (hstop.symm.trans (hawake hphase)) (by decide)
  | special =>
    exact hresting (specialStep_regs_of_stop hnested hstop) (by simp [WakesUp, hphase])
  | idle watch =>
    have hwakes : e.WakesUp ↔ (e.ticked watch).2.WakeDue := by simp [WakesUp, hphase]
    rw [hwakes]
    by_cases hdue : (e.ticked watch).2.WakeDue
    · exact ⟨iff_of_true (idleStep_of_due hooks hstop hdue) hdue, fun h => absurd hdue h⟩
    · obtain ⟨hstill, hrests⟩ := idleStep_of_not_due hooks hstop hdue
      exact ⟨iff_of_false (by simp [hstill]) hdue, fun _ => hrests⟩
  | returned => exact hresting rfl (by simp [WakesUp, hphase])

theorem step_shows (e : Execution β σ η) :
    e.state.machine.Shows Event.fetch? (e.step ControlInstructions.table).state.machine
      (if e.phase = .opcode then [e.ready.2.machine.regs] else []) := by
  have hK := Registers.kept_true
  simp only [step]
  cases hphase : e.phase with
  | opcode =>
    have hready := Machine.Shows.of_evolves (ready_evolves hK.toKeptByException
      (fun _ => Event.fetch?_of_ofHost) e)
    have hdone := hready.trans (Machine.executeOpcode_shows e.ready.2.machine)
    rw [if_pos rfl, opcodeStep_eq]
    simpa using hdone.trans (.of_evolves (Hosted.cycle_evolves hK.toKeptByHousekeeping
      (Event.of_talk fun _ => Event.fetch?_of_ofHost)
      (e.ready.2.map (Machine.executeOpcode ControlInstructions.table)) false))
  | special =>
    exact .of_evolves ((specialStep_calm e).mono fun _ he => Event.fetch?_of_isFetch he.2)
  | idle watch =>
    exact .of_evolves ((idleStep_unfetched watch e).mono fun _ => Event.fetch?_of_isFetch)
  | returned => exact .of_evolves (.refl hK.toKeptByException _)

/-- An idle tick whose interrupt, of this level, ends a STOP. -/
structure EndsStop (e : Execution β σ η) (watch : Watchdog) (level : UInt8) : Prop where
  idle : e.phase = .idle watch
  looked : (e.ticked watch).2.machine.regs.pending.interruptCheck = true ∨
    (e.ticked watch).2.machine.regs.pending.interruptDue = true
  asked : (Host.interruptLevel (e.ticked watch).2.host).1 = some level
  inRange : 1 ≤ level ∧ level ≤ 7
  above : e.state.machine.regs.status.mask < level
  delivered :
    let base := Host.interruptBase (Host.interruptLevel (e.ticked watch).2.host).2
    let r := e.state.machine.regs
    ∃ later, e.state.machine.Shows Event.delivery?
      (e.step ControlInstructions.table).state.machine
      (.interrupt base level r.status.mask :: .exception ⟨base + level, r.pc, r.sp⟩ :: later)

theorem WakesUp.endsStop (h : e.WakesUp) : ∃ watch level, e.EndsStop watch level := by
  obtain ⟨watch, hphase, hlook, level, hl, hm⟩ := h
  have hasked := Option.filter_eq_some_iff.mp hl
  have hrange : 1 ≤ level ∧ level ≤ 7 := by simpa [Machine.isInterruptLevel] using hasked.2
  obtain ⟨_, _, _, _, hregs⟩ := ticked_rests watch e
  have hticked := Machine.Shows.of_evolves (p := Event.delivery?) (ticked_evolves
    Registers.kept_true.toKeptByHousekeeping (fun _ => Event.delivery?_of_ofHost) rfl watch e)
  obtain ⟨first, hfirst⟩ := Hosted.idleInterrupt_delivers hlook hl hm
  obtain ⟨later, hlater⟩ := Machine.Shows.of_grows Event.delivery?
    (idleStep_rest_continues watch e).grows
  rw [hregs] at hm hfirst
  refine ⟨watch, level, hphase, hlook, hasked.1, hrange, hm, first ++ later, ?_⟩
  rw [step_idle _ hphase]
  exact (hticked.trans hfirst).trans hlater

end Execution

/-- The loop of idle ticks, under its own watchdog, between two ticks. -/
structure Idling (β σ η : Type) where
  watch : Watchdog
  state : Hosted β σ η

namespace Idling
variable {β σ η : Type} [Host η] [Bus β]

def tick (i : Idling β σ η) : Bool × Idling β σ η :=
  let (watch, s) := i.watch.check i.state
  let (leave, s) := s.idleTick.checkForBreak
  (leave, ⟨watch, s⟩)

/-- The answer of the loop, and the state that it leaves: whether it ends for a break. There is none
as long as it goes on. -/
def loop : Nat → Idling β σ η → Option (Bool × Hosted β σ η)
  | 0, _ => none
  | fuel + 1, i =>
    let (leave, next) := i.tick
    if leave then some (true, next.state)
    else if next.state.machine.regs.pending.stop then loop fuel next
    else some (false, next.state)

def after : Nat → Idling β σ η → Idling β σ η
  | 0, i => i
  | n + 1, i => after n i.tick.2

def WakesUp (i : Idling β σ η) : Prop := (i.watch.check i.state).2.tick.WakeDue

def Ends (i : Idling β σ η) : Bool → Prop
  | true => i.tick.1 = true
  | false => i.tick.1 = false ∧ i.WakesUp

def GoesOn (i : Idling β σ η) : Prop := i.tick.1 = false ∧ ¬ i.WakesUp

def EndsAt (i : Idling β σ η) (j : Nat) (leave : Bool) : Prop :=
  (∀ k < j, (i.after k).GoesOn) ∧ (i.after j).Ends leave

theorem endsAt_zero (i : Idling β σ η) (leave : Bool) : i.EndsAt 0 leave ↔ i.Ends leave := by
  simp [EndsAt, after]

theorem endsAt_succ (i : Idling β σ η) (j : Nat) (leave : Bool) :
    i.EndsAt (j + 1) leave ↔ i.GoesOn ∧ i.tick.2.EndsAt j leave := by
  simp only [EndsAt, Nat.forall_lt_succ_left, after, and_assoc]

theorem tick_stop_iff {i : Idling β σ η}
    (hooks : i.state.machine.hooks.Respects Registers.KeepsStop)
    (hstop : i.state.machine.regs.pending.stop = true) :
    i.tick.2.state.machine.regs.pending.stop = false ↔ i.WakesUp :=
  Execution.woken_stop_iff (e := ⟨i.state, i.watch, .idle i.watch⟩) hooks hstop i.watch

theorem tick_hooks (i : Idling β σ η) : i.tick.2.state.machine.hooks = i.state.machine.hooks :=
  (Execution.woken_continues i.watch ⟨i.state, i.watch, .idle i.watch⟩).hooks

theorem loop_succ (fuel : Nat) (i : Idling β σ η) :
    i.loop (fuel + 1) =
      if i.tick.1 then some (true, i.tick.2.state)
      else if i.tick.2.state.machine.regs.pending.stop then i.tick.2.loop fuel
      else some (false, i.tick.2.state) := rfl

theorem loop_eq_some_iff {i : Idling β σ η}
    (hooks : i.state.machine.hooks.Respects Registers.KeepsStop)
    (hstop : i.state.machine.regs.pending.stop = true) (fuel : Nat) (leave : Bool)
    (t : Hosted β σ η) :
    i.loop fuel = some (leave, t) ↔
      ∃ j < fuel, i.EndsAt j leave ∧ (i.after j).tick.2.state = t := by
  induction fuel generalizing i with
  | zero => simp [loop]
  | succ fuel ih =>
    have hwakes := tick_stop_iff hooks hstop
    rw [loop_succ, Nat.exists_lt_succ_left]
    simp only [endsAt_zero, endsAt_succ, after]
    -- The tick at hand is the last one for a break, or as the processor wakes up, or not at all.
    by_cases hbreak : i.tick.1 = true
    · have hgoes : ¬ i.GoesOn := fun h => absurd (hbreak.symm.trans h.1) (by decide)
      cases leave <;> simp [hbreak, hgoes, Ends]
    by_cases hawake : i.tick.2.state.machine.regs.pending.stop = false
    · have hgoes : ¬ i.GoesOn := fun h => h.2 (hwakes.mp hawake)
      cases leave <;> simp [hbreak, hawake, hgoes, Ends, hwakes.mp hawake]
    · have hgoes : i.GoesOn := ⟨by simpa using hbreak, fun h => hawake (hwakes.mpr h)⟩
      have hnext := ih (i := i.tick.2) (by rw [tick_hooks]; exact hooks) (by simpa using hawake)
      have hends : ¬ i.Ends leave := by cases leave <;> simp [Ends, hgoes.1, hgoes.2]
      simp only [Bool.not_eq_false] at hawake
      simp [hbreak, hawake, hgoes, hends, hnext]

end Idling

namespace Execution
variable {β σ η : Type} [Host η] [Bus β] {e : Execution β σ η}

/-- The execution loop where the loop of idle ticks has given its answer. A break ends the call. -/
def afterIdling (watch : Watchdog) : Bool × Hosted β σ η → Execution β σ η
  | (true, s) =>
    ⟨s.map fun m => m.mapPending fun p => { p with breakRequest := false }, watch, .returned⟩
  | (false, s) => endPass watch s.finishPass

theorem run_of_loop {watch : Watchdog} (h : e.phase = .idle watch) (fuel : Nat) :
    match (⟨watch, e.state⟩ : Idling β σ η).loop fuel with
    | some outcome =>
      ∃ k ≤ fuel, e.run ControlInstructions.table k = afterIdling e.watch outcome
    | none => ∃ watch', (e.run ControlInstructions.table fuel).phase = .idle watch' := by
  induction fuel generalizing e watch with
  | zero => exact ⟨watch, h⟩
  | succ fuel ih =>
    let i : Idling β σ η := ⟨watch, e.state⟩
    have hstep : e.step ControlInstructions.table =
        if i.tick.1 then afterIdling e.watch (true, i.tick.2.state)
        else if i.tick.2.state.machine.regs.pending.stop then
          ⟨i.tick.2.state, e.watch, .idle i.tick.2.watch⟩
        else afterIdling e.watch (false, i.tick.2.state) := step_idle _ h
    rw [Idling.loop_succ]
    -- One step, and then the loop is at its end, or goes on by induction.
    by_cases hbreak : i.tick.1 = true
    · rw [if_pos hbreak] at hstep ⊢
      exact ⟨1, by omega, (run_succ _ 0 e).trans hstep⟩
    by_cases hstop : i.tick.2.state.machine.regs.pending.stop = true
    · rw [if_neg hbreak, if_pos hstop] at hstep ⊢
      have hidle : (e.step ControlInstructions.table).phase = .idle i.tick.2.watch := by rw [hstep]
      have hnext := ih hidle
      rw [run_step]
      rw [hstep] at hnext ⊢
      revert hnext
      cases i.tick.2.loop fuel with
      | none => exact id
      | some outcome =>
        rintro ⟨k, hk, hrun⟩
        refine ⟨k + 1, by omega, ?_⟩
        rw [run_step, hstep]
        exact hrun
    · rw [if_neg hbreak, if_neg hstop] at hstep ⊢
      exact ⟨1, by omega, (run_succ _ 0 e).trans hstep⟩

structure StopSafe (s : Hosted β σ η) : Prop where
  fetched : ∀ n, ∃ rs, s.machine.Shows Event.fetch?
    (execute ControlInstructions.table n s).state.machine rs ∧ ∀ r ∈ rs, r.pending.stop = false
  unfetched : ∀ n, (∀ k < n, (execute ControlInstructions.table k s).Stopped) →
    s.machine.Shows Event.fetch? (execute ControlInstructions.table n s).state.machine []
  ended : ∀ n, (execute ControlInstructions.table n s).Stopped →
    ¬ (execute ControlInstructions.table (n + 1) s).Stopped →
    ∃ watch level, (execute ControlInstructions.table n s).EndsStop watch level
  rests : ∀ n k, (∀ j ≤ k, (execute ControlInstructions.table (n + j) s).Stopped) →
    (execute ControlInstructions.table n s).state.machine.regs.Rests
      (execute ControlInstructions.table (n + k) s).state.machine.regs
  answered : ∀ n watch, (execute ControlInstructions.table n s).phase = .idle watch →
    ∀ fuel leave t,
      let i : Idling β σ η := ⟨watch, (execute ControlInstructions.table n s).state⟩
      i.loop fuel = some (leave, t) ↔
        ∃ j < fuel, i.EndsAt j leave ∧ (i.after j).tick.2.state = t
  resumed : ∀ n watch, (execute ControlInstructions.table n s).phase = .idle watch →
    ∀ fuel outcome,
      let e := execute ControlInstructions.table n s
      (⟨watch, e.state⟩ : Idling β σ η).loop fuel = some outcome →
        ∃ k ≤ fuel, execute ControlInstructions.table (n + k) s = afterIdling e.watch outcome

variable {s : Hosted β σ η}

theorem execute_fetched (hooks : s.machine.hooks.Respects Registers.KeepsStop)
    (hnested : ∀ n, Host.isNested (execute ControlInstructions.table n s).state.host = false)
    (n : Nat) : ∃ rs, s.machine.Shows Event.fetch?
      (execute ControlInstructions.table n s).state.machine rs ∧
        ∀ r ∈ rs, r.pending.stop = false := by
  induction n with
  | zero =>
    have hstart := (start_talks (fun _ => Event.fetch?_of_ofHost) s).1.evolves
      Registers.kept_true.toKeptByException
    exact ⟨[], .of_evolves hstart, by simp⟩
  | succ n ih =>
    obtain ⟨rs, hshows, hrs⟩ := ih
    rw [execute_succ]
    refine ⟨_, hshows.trans (step_shows _), fun r hr => ?_⟩
    rcases List.mem_append.mp hr with hr | hr
    · exact hrs r hr
    split at hr
    · rename_i hopcode
      have hready := ready_evolves (P := fun _ => True) Registers.kept_stop.toKeptByException
        (fun _ _ => trivial) (execute ControlInstructions.table n s)
      rw [List.mem_singleton.mp hr]
      exact hready.regs.trans (execute_awake_of_respects hooks hnested n hopcode)
    · cases hr

theorem execute_unfetched (hooks : s.machine.hooks.Respects Registers.KeepsStop)
    (hnested : ∀ n, Host.isNested (execute ControlInstructions.table n s).state.host = false)
    (n : Nat) (hstop : ∀ k < n, (execute ControlInstructions.table k s).Stopped) :
    s.machine.Shows Event.fetch? (execute ControlInstructions.table n s).state.machine [] := by
  induction n with
  | zero =>
    have hstart := (start_talks (fun _ => Event.fetch?_of_ofHost) s).1.evolves
      Registers.kept_true.toKeptByException
    exact .of_evolves hstart
  | succ n ih =>
    have hbefore := ih fun k hk => hstop k (by omega)
    have hphase : (execute ControlInstructions.table n s).phase ≠ .opcode := fun hopcode =>
      absurd ((hstop n (by omega)).symm.trans (execute_awake_of_respects hooks hnested n hopcode))
        (by decide)
    have hstep := step_shows (execute ControlInstructions.table n s)
    rw [if_neg hphase] at hstep
    rw [execute_succ]
    exact hbefore.trans hstep

theorem execute_of_stop (hooks : s.machine.hooks.Respects Registers.KeepsStop)
    (hnested : ∀ n, Host.isNested (execute ControlInstructions.table n s).state.host = false)
    {n : Nat} (hstop : (execute ControlInstructions.table n s).Stopped) :
    (¬ (execute ControlInstructions.table (n + 1) s).Stopped ↔
        (execute ControlInstructions.table n s).WakesUp) ∧
      (¬ (execute ControlInstructions.table n s).WakesUp →
        (execute ControlInstructions.table n s).state.machine.regs.Rests
          (execute ControlInstructions.table (n + 1) s).state.machine.regs) := by
  rw [execute_succ, Stopped, Bool.not_eq_true]
  exact step_of_stop ((execute_continues s n).respects hooks)
    (execute_awake_of_respects hooks hnested n) (hnested n) hstop

theorem execute_rests (hooks : s.machine.hooks.Respects Registers.KeepsStop)
    (hnested : ∀ n, Host.isNested (execute ControlInstructions.table n s).state.host = false)
    (n k : Nat) (hstop : ∀ j ≤ k, (execute ControlInstructions.table (n + j) s).Stopped) :
    (execute ControlInstructions.table n s).state.machine.regs.Rests
      (execute ControlInstructions.table (n + k) s).state.machine.regs := by
  induction k with
  | zero => exact .refl _
  | succ k ih =>
    obtain ⟨hended, hrests⟩ := execute_of_stop hooks hnested (hstop k (by omega))
    exact (ih fun j hj => hstop j (by omega)).trans
      (hrests fun hwakes => hended.mpr hwakes (hstop (k + 1) (by omega)))

/-- In a call that is not nested, with exception hooks that leave STOP alone: no opcode is fetched
while the processor is stopped, and only an interrupt that an idle tick finds above the mask ends
it. -/
theorem stop_safe (hooks : s.machine.hooks.Respects Registers.KeepsStop)
    (hnested : ∀ n, Host.isNested (execute ControlInstructions.table n s).state.host = false) :
    StopSafe s where
  fetched := execute_fetched hooks hnested
  unfetched := execute_unfetched hooks hnested
  ended _ hstop hended := ((execute_of_stop hooks hnested hstop).1.mp hended).endsStop
  rests := execute_rests hooks hnested
  answered n watch hidle := Idling.loop_eq_some_iff ((execute_continues s n).respects hooks)
    (execute_idlesStopped s n watch hidle)
  resumed n watch hidle fuel outcome h := by
    have hrun := run_of_loop hidle fuel
    rw [h] at hrun
    obtain ⟨k, hk, hrun⟩ := hrun
    refine ⟨k, hk, Eq.trans ?_ hrun⟩
    exact run_add ControlInstructions.table n k (start s)

def dozing : Hosted Ram Unit Host.Stuck :=
  let ram := (((Ram.ofSize 256).pokeLong 0x78 0xB0).loadWords 0xA0 [0x4E72, 0x2000]).loadWords 0xB0
    [0x4E71]
  let m := Machine.ofSettings Settings.default ram ()
  ⟨(m.setRegister .sp 0x100).setRegister .pc 0xA0, { level := some 6 }⟩

theorem stop_safe_dozing :
    dozing.machine.hooks.Respects Registers.KeepsStop ∧
      (∀ n, Host.isNested (execute ControlInstructions.table n dozing).state.host = false) ∧
      StopSafe dozing ∧
      ∃ watch level, (execute ControlInstructions.table 2 dozing).EndsStop watch level := by
  have hooks : dozing.machine.hooks.NoInterceptors := fun _ => rfl
  have hsafe := stop_safe (hooks.respects _) (s := dozing) fun _ => rfl
  exact ⟨hooks.respects _, fun _ => rfl, hsafe, hsafe.ended 2 (by decide +kernel) (by decide +kernel)⟩

end Execution
end Mc68000
