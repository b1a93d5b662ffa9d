import Mc68000.Proofs.Calls
import Mc68000.Proofs.Likeness

/-!
# Runs that are alike

Machines that are alike stay alike through a step of the loop, with hosts that answer alike. What
the loop does when it looks for a break is left open: a run may be compared with one that looks for
breaks in another way, or not at all.
-/

namespace Mc68000

namespace Host
variable {α η : Type} [Host η]

def Same (H : η → η → Prop) (p p' : α × η) : Prop := p'.1 = p.1 ∧ H p.2 p'.2

/-- Hosts related by `H` give the same answers and go on doing so, the clock and the look for a
break apart. -/
structure AnswersAlike (H : η → η → Prop) : Prop extends Equivalence H where
  delay {h h' : η} : H h h' → H (Host.delay h) (Host.delay h')
  isNested {h h' : η} : H h h' → Host.isNested h' = Host.isNested h
  isBreakLocation {h h' : η} : H h h' →
    ∀ pc, Host.isBreakLocation h' pc = Host.isBreakLocation h pc
  handleInstructionBreak {h h' : η} : H h h' →
    H (Host.handleInstructionBreak h) (Host.handleInstructionBreak h')
  endOfCycle {h h' : η} : H h h' →
    ∀ early, Same H (Host.endOfCycle h early) (Host.endOfCycle h' early)
  suspendRequested {h h' : η} : H h h' → Host.suspendRequested h' = Host.suspendRequested h
  interruptLevel {h h' : η} : H h h' → Same H (Host.interruptLevel h) (Host.interruptLevel h')
  takeInterruptChange {h h' : η} : H h h' →
    Same H (Host.takeInterruptChange h) (Host.takeInterruptChange h')
  interruptBase {h h' : η} : H h h' → Host.interruptBase h' = Host.interruptBase h
  isAsleep {h h' : η} : H h h' → Host.isAsleep h' = Host.isAsleep h
  hasButtonEvent {h h' : η} : H h h' → Host.hasButtonEvent h' = Host.hasButtonEvent h
  postButtonEvent {h h' : η} : H h h' → ∀ event now,
    H (Host.postButtonEvent h event now) (Host.postButtonEvent h' event now)
  eventSource {h h' : η} : H h h' →
    ∀ source, Same H (Host.eventSource h source) (Host.eventSource h' source)
  setEventSource {h h' : η} : H h h' →
    ∀ source on, H (Host.setEventSource h source on) (Host.setEventSource h' source on)
  cycle {h h' : η} : H h h' → ∀ sleeping, H (Host.cycle h sleeping) (Host.cycle h' sleeping)
  cycleSlowly {h h' : η} : H h h' →
    ∀ sleeping, H (Host.cycleSlowly h sleeping) (Host.cycleSlowly h' sleeping)

theorem AnswersAlike.eq : AnswersAlike (Eq : η → η → Prop) := by
  constructor
  case toEquivalence => exact ⟨fun _ => rfl, Eq.symm, Eq.trans⟩
  all_goals
    rintro h _ rfl
    intros
    first
    | rfl
    | exact ⟨rfl, rfl⟩

/-- Reading the clock has no effect on the other answers. -/
def ClockAside (H : η → η → Prop) : Prop := ∀ h, H h (Host.nowMillis h).2

end Host

namespace Hosted
variable {α β σ η : Type} {c : Comparison σ} {H : η → η → Prop} {s s' : Hosted β σ η}

structure Alike (c : Comparison σ) (H : η → η → Prop) (s s' : Hosted β σ η) : Prop where
  machine : s.machine.Alike c s'.machine
  host : H s.host s'.host

inductive Agrees (c : Comparison σ) (H : η → η → Prop) : α × Hosted β σ η → α × Hosted β σ η → Prop
  | intro (x : α) {t t' : Hosted β σ η} (h : Alike c H t t') : Agrees c H (x, t) (x, t')

namespace Agrees
variable {p p' : α × Hosted β σ η}

theorem of_parts (hfst : p'.1 = p.1) (hsnd : Alike c H p.2 p'.2) : Agrees c H p p' := by
  obtain ⟨x, t⟩ := p
  obtain ⟨x', t'⟩ := p'
  cases hfst
  exact .intro x hsnd

theorem fst (h : Agrees c H p p') : p'.1 = p.1 := by
  obtain ⟨x, h⟩ := h
  rfl

theorem snd (h : Agrees c H p p') : Alike c H p.2 p'.2 := by
  obtain ⟨x, h⟩ := h
  exact h

end Agrees

namespace Alike

theorem map (h : Alike c H s s') {f : Machine β σ → Machine β σ}
    (hf : (f s.machine).Alike c (f s'.machine)) : Alike c H (s.map f) (s'.map f) :=
  ⟨hf, h.host⟩

theorem log (h : Alike c H s s') (e : Event) : Alike c H (s.log e) (s'.log e) :=
  ⟨h.machine.log rfl, h.host⟩

theorem ask (h : Alike c H s s') (question : η → α) (call : α → HostCall)
    (hsame : question s'.host = question s.host) :
    Agrees c H (s.ask question call) (s'.ask question call) := by
  simp only [Hosted.ask]
  rw [hsame]
  exact .intro _ (h.log _)

theorem consult (h : Alike c H s s') (question : η → α × η) (call : α → HostCall)
    (hsame : Host.Same H (question s.host) (question s'.host)) :
    Agrees c H (s.consult question call) (s'.consult question call) := by
  obtain ⟨hanswer, hhost⟩ := hsame
  rw [consult_eq, consult_eq, hanswer]
  exact .intro _ ⟨h.machine.log rfl, hhost⟩

theorem request (h : Alike c H s s') (act : η → η) (call : HostCall)
    (hact : H (act s.host) (act s'.host)) :
    Alike c H (s.request act call) (s'.request act call) :=
  ⟨h.machine.log rfl, hact⟩

end Alike

variable [Host η]

namespace Alike
variable (hH : Host.AnswersAlike H)
include hH

theorem isNested (h : Alike c H s s') : Agrees c H s.isNested s'.isNested :=
  h.ask Host.isNested .isNested (hH.isNested h.host)

theorem breakpoint (h : Alike c H s s') : Alike c H s.breakpoint s'.breakpoint := by
  have hnested := h.isNested hH
  rw [breakpoint_eq, breakpoint_eq, h.machine.pc]
  generalize s.isNested = p, s'.isNested = p' at hnested ⊢
  obtain ⟨nested, ht⟩ := hnested
  rename_i t t'
  have hasked := ht.ask (fun h => Host.isBreakLocation h s.machine.regs.pc)
    (.isBreakLocation s.machine.regs.pc) (hH.isBreakLocation ht.host _)
  dsimp only
  split
  · exact ht
  generalize t.ask _ _ = q, t'.ask _ _ = q' at hasked ⊢
  obtain ⟨hit, hu⟩ := hasked
  dsimp only
  split
  · exact hu.request _ _ (hH.handleInstructionBreak hu.host)
  · exact hu

theorem earlyEndOfCycle (h : Alike c H s s') :
    Agrees c H s.earlyEndOfCycle s'.earlyEndOfCycle := by
  simp only [Hosted.earlyEndOfCycle]
  rw [h.machine.pending]
  split
  · exact h.consult _ _ (hH.endOfCycle h.host true)
  · exact .intro _ h

theorem lateEndOfCycle (h : Alike c H s s') :
    Agrees c H s.lateEndOfCycle s'.lateEndOfCycle := by
  simp only [Hosted.lateEndOfCycle]
  rw [h.machine.pending]
  split
  · exact (h.map (h.machine.mapPending _)).consult _ _ (hH.endOfCycle h.host false)
  · exact .intro _ h

theorem pollInterrupts (h : Alike c H s s') : Alike c H s.pollInterrupts s'.pollInterrupts := by
  have hpolled := h.consult Host.takeInterruptChange .takeInterruptChange
    (hH.takeInterruptChange h.host)
  simp only [Hosted.pollInterrupts]
  generalize s.consult _ _ = p, s'.consult _ _ = p' at hpolled ⊢
  obtain ⟨changed, ht⟩ := hpolled
  dsimp only
  split
  · exact ht.map (ht.machine.mapPending _)
  · exact ht

theorem cycleSlowly (h : Alike c H s s') (sleeping : Bool) :
    Alike c H (s.cycleSlowly sleeping) (s'.cycleSlowly sleeping) := by
  have hslow := h.request (fun h => Host.cycleSlowly h sleeping) (.cycleSlowly sleeping)
    (hH.cycleSlowly h.host sleeping)
  rw [cycleSlowly_eq, cycleSlowly_eq]
  generalize s.request _ _ = t, s'.request _ _ = t' at hslow ⊢
  have hasked := hslow.ask Host.suspendRequested .suspendRequested
    (hH.suspendRequested hslow.host)
  generalize t.ask _ _ = p, t'.ask _ _ = p' at hasked ⊢
  obtain ⟨suspend, ht⟩ := hasked
  dsimp only
  split
  · exact ht.map (ht.machine.mapPending _)
  · exact ht

theorem cycle (h : Alike c H s s') (sleeping : Bool) :
    Alike c H (s.cycle sleeping) (s'.cycle sleeping) := by
  have hnested := h.isNested hH
  rw [cycle_eq, cycle_eq]
  generalize s.isNested = p, s'.isNested = p' at hnested ⊢
  obtain ⟨nested, ht⟩ := hnested
  rename_i t t'
  dsimp only
  split
  · exact ht
  let ticked := t.request (fun h => Host.cycle h sleeping) (.cycle sleeping)
  let ticked' := t'.request (fun h => Host.cycle h sleeping) (.cycle sleeping)
  have hticked : Alike c H ticked ticked' := ht.request _ _ (hH.cycle ht.host sleeping)
  have hpolled := (hticked.pollInterrupts hH).machine
  have hcounted : Alike c H ticked.pollInterrupts.countTick ticked'.pollInterrupts.countTick :=
    (hticked.pollInterrupts hH).map
      { hpolled with slowCounter := congrArg (· + 1) hpolled.slowCounter }
  rw [hcounted.machine.slowCounter, hcounted.machine.slowCycleMask]
  split
  · exact hcounted.cycleSlowly hH sleeping
  · exact hcounted

theorem tick (h : Alike c H s s') : Alike c H s.tick s'.tick := by
  have hdelayed := h.request Host.delay .delay (hH.delay h.host)
  have hcharged := hdelayed.machine.charge s.machine.settings.idleTickCycles
  simp only [Hosted.tick]
  refine Alike.cycle hH (hdelayed.map ?_) true
  rw [hdelayed.machine.idleTickCycles]
  exact hcharged

theorem pauseSource (h : Alike c H s s') (sources : List EventSource) (source : EventSource) :
    Agrees c H (Hosted.pauseSource (sources, s) source)
      (Hosted.pauseSource (sources, s') source) := by
  have hfound := h.consult (fun h => Host.eventSource h source) (.eventSource source)
    (hH.eventSource h.host source)
  rw [pauseSource_eq, pauseSource_eq]
  dsimp only
  generalize s.consult _ _ = p, s'.consult _ _ = p' at hfound ⊢
  obtain ⟨found, ht⟩ := hfound
  dsimp only
  split
  · exact .intro _ (ht.request _ _ (hH.setEventSource ht.host source false))
  · exact .intro _ ht

theorem foldl_pauseSource (sources : List EventSource) (h : Alike c H s s')
    (paused : List EventSource) :
    Agrees c H (sources.foldl Hosted.pauseSource (paused, s))
      (sources.foldl Hosted.pauseSource (paused, s')) := by
  induction sources generalizing paused s s' with
  | nil => exact .intro _ h
  | cons source sources ih =>
    have hpaused := h.pauseSource hH paused source
    rw [List.foldl_cons, List.foldl_cons]
    generalize Hosted.pauseSource (paused, s) source = p,
      Hosted.pauseSource (paused, s') source = p' at hpaused ⊢
    obtain ⟨paused, ht⟩ := hpaused
    exact ih ht paused

theorem resumeSource (h : Alike c H s s') (source : EventSource) :
    Alike c H (s.resumeSource source) (s'.resumeSource source) := by
  have hfound := h.consult (fun h => Host.eventSource h source) (.eventSource source)
    (hH.eventSource h.host source)
  rw [resumeSource_eq, resumeSource_eq]
  generalize s.consult _ _ = p, s'.consult _ _ = p' at hfound ⊢
  obtain ⟨found, ht⟩ := hfound
  dsimp only
  split
  · exact ht.request _ _ (hH.setEventSource ht.host source true)
  · exact ht

theorem foldl_resumeSource (sources : List EventSource) (h : Alike c H s s') :
    Alike c H (sources.foldl Hosted.resumeSource s) (sources.foldl Hosted.resumeSource s') := by
  induction sources generalizing s s' with
  | nil => exact h
  | cons source sources ih => exact ih (h.resumeSource hH source)

theorem postPower (h : Alike c H s s') (pressed : Bool) :
    Alike c H (s.postPower pressed) (s'.postPower pressed) :=
  h.request _ _ (hH.postButtonEvent h.host _ pressed)

theorem pressPower (h : Alike c H s s') : Alike c H s.pressPower s'.pressPower := by
  have hpaused := h.foldl_pauseSource hH EventSource.all []
  simp only [Hosted.pressPower]
  generalize EventSource.all.foldl Hosted.pauseSource ([], s) = p,
    EventSource.all.foldl Hosted.pauseSource ([], s') = p' at hpaused ⊢
  obtain ⟨suspended, ht⟩ := hpaused
  dsimp only
  split
  · exact ht
  · have hposted := ((ht.log (.powerPressed suspended)).postPower hH true).postPower hH false
    exact hposted.foldl_resumeSource hH suspended

theorem pendingLevel (h : Alike c H s s') : Agrees c H s.pendingLevel s'.pendingLevel := by
  have hasked := h.consult Host.interruptLevel .interruptLevel (hH.interruptLevel h.host)
  simp only [Hosted.pendingLevel]
  generalize s.consult _ _ = p, s'.consult _ _ = p' at hasked ⊢
  obtain ⟨level, ht⟩ := hasked
  exact .intro _ ht

variable [Bus β]

theorem deliverInterrupt (h : Alike c H s s') (level : Option UInt8)
    {wake : Registers → Registers} (hwake : Registers.IgnoresPacked wake) :
    Alike c H (s.deliverInterrupt level wake) (s'.deliverInterrupt level wake) := by
  rw [deliverInterrupt_eq, deliverInterrupt_eq]
  cases level with
  | none => exact h
  | some level =>
    have hasked := h.ask Host.interruptBase .interruptBase (hH.interruptBase h.host)
    dsimp only
    rw [h.machine.status]
    split
    · generalize s.ask _ _ = p, s'.ask _ _ = p' at hasked ⊢
      obtain ⟨base, ht⟩ := hasked
      have hawake : Registers.IgnoresPacked fun r => wake { r with stopped := false } :=
        fun r sr => hwake { r with stopped := false } sr
      exact ht.map ((ht.machine.takeInterrupt base level).mapRegs hawake).deliverFault
    · exact h

theorem answerInterrupt (h : Alike c H s s') (use : Pending → Pending)
    {wake : Registers → Registers} (hwake : Registers.IgnoresPacked wake) :
    Alike c H (s.answerInterrupt use wake) (s'.answerInterrupt use wake) := by
  have hread := h.pendingLevel hH
  simp only [Hosted.answerInterrupt]
  generalize s.pendingLevel = p, s'.pendingLevel = p' at hread ⊢
  obtain ⟨level, ht⟩ := hread
  exact (ht.map (ht.machine.mapPending use)).deliverInterrupt hH level hwake

theorem dueInterrupt (h : Alike c H s s') : Alike c H s.dueInterrupt s'.dueInterrupt := by
  rw [dueInterrupt_eq, dueInterrupt_eq, h.machine.pending, h.machine.overflowed]
  split
  · exact h.answerInterrupt hH _ fun _ sr => ⟨sr, rfl⟩
  · exact h

theorem idleInterrupt (h : Alike c H s s') : Alike c H s.idleInterrupt s'.idleInterrupt := by
  rw [idleInterrupt_eq, idleInterrupt_eq, h.machine.pending]
  split
  · exact h.answerInterrupt hH _ fun _ sr => ⟨sr, rfl⟩
  · exact h

theorem interrupted (h : Alike c H s s') : Alike c H s.interrupted s'.interrupted := by
  have hdue := (h.map h.machine.armTrace).dueInterrupt hH
  exact hdue.map hdue.machine.promoteInterrupt

end Alike

def Hidden (c : Comparison σ) (H : η → η → Prop) (s t : Hosted β σ η) : Prop :=
  s.machine.Logs (fun e => c.seen e = none) t.machine ∧ H s.host t.host

omit [Host η] in
theorem Alike.hidden {t t' : Hosted β σ η} (hH : Equivalence H) (h : Alike c H s s')
    (ht : Hidden c H s t) (ht' : Hidden c H s' t') : Alike c H t t' :=
  ⟨h.machine.logs ht.1 ht'.1, hH.trans (hH.symm ht.2) (hH.trans h.host ht'.2)⟩

section
variable (hH : Host.AnswersAlike H) (hclock : c.clock → Host.ClockAside H)
include hH hclock

theorem arm_hidden (htimeout : c.clock ∨ s.machine.settings.deadManTimeoutMs = none) :
    Hidden c H s (Watchdog.arm s).2 := by
  simp only [Watchdog.arm]
  split
  · exact ⟨.refl _, hH.refl _⟩
  · have hc := htimeout.resolve_right (by simp_all)
    exact ⟨.log _ (c.seen_nowMillis _), hclock hc s.host⟩

theorem check_hidden (w : Watchdog)
    (htimeout : c.clock ∨ s.machine.settings.deadManTimeoutMs = none) :
    Hidden c H s (w.check s).2 := by
  rw [watchdog_check_eq]
  split
  · exact ⟨.refl _, hH.refl _⟩
  · have hc := htimeout.resolve_right (by simp_all)
    have hread : s.machine.Logs (fun e => c.seen e = none)
        (s.consult Host.nowMillis .nowMillis).2.machine := .log _ (c.seen_nowMillis _)
    dsimp only
    split
    · exact ⟨hread.trans (.log _ (c.seen_overdue _ _ _)), hclock hc s.host⟩
    · exact ⟨hread, hclock hc s.host⟩

namespace Alike

theorem arm (h : Alike c H s s') : Alike c H (Watchdog.arm s).2 (Watchdog.arm s').2 :=
  h.hidden hH.toEquivalence (arm_hidden hH hclock (h.machine.timeouts.imp_right And.left))
    (arm_hidden hH hclock (h.machine.timeouts.imp_right And.right))

theorem check (h : Alike c H s s') (w w' : Watchdog) :
    Alike c H (w.check s).2 (w'.check s').2 :=
  h.hidden hH.toEquivalence (check_hidden hH hclock w (h.machine.timeouts.imp_right And.left))
    (check_hidden hH hclock w' (h.machine.timeouts.imp_right And.right))

theorem enterIdle (h : Alike c H s s') : Alike c H s.enterIdle.2 s'.enterIdle.2 := by
  have hwarned : Alike c H s.warnMasked s'.warnMasked := by
    simp only [warnMasked]
    rw [h.machine.status, h.machine.pc]
    split
    · exact h.log _
    · exact h
  have hasleep := hwarned.ask Host.isAsleep .isAsleep (hH.isAsleep hwarned.host)
  rw [enterIdle_eq, enterIdle_eq]
  generalize s.warnMasked.ask _ _ = p, s'.warnMasked.ask _ _ = p' at hasleep ⊢
  obtain ⟨asleep, ht⟩ := hasleep
  rename_i t t'
  have hqueued := ht.ask Host.hasButtonEvent .hasButtonEvent (hH.hasButtonEvent ht.host)
  dsimp only
  split
  · generalize t.ask _ _ = q, t'.ask _ _ = q' at hqueued ⊢
    obtain ⟨queued, hu⟩ := hqueued
    dsimp only
    split
    · exact hu.arm hH hclock
    · exact (hu.pressPower hH).arm hH hclock
  · exact ht.arm hH hclock

end Alike
end

variable [Bus β]

def finishWith (check : Hosted β σ η → Bool × Hosted β σ η) (s : Hosted β σ η) :
    Bool × Hosted β σ η :=
  let (leave, s) := s.interrupted.lateEndOfCycle
  if leave then (true, s) else check s

end Hosted

inductive Phase.Alike : Phase → Phase → Prop
  | opcode : Alike .opcode .opcode
  | special : Alike .special .special
  | idle (watch watch' : Watchdog) : Alike (.idle watch) (.idle watch')
  | returned : Alike .returned .returned

theorem Phase.Alike.of_opcode {p p' : Phase} (h : p.Alike p') (hp : p' = .opcode) :
    p = .opcode := by
  cases h with
  | opcode => rfl
  | special | idle | returned => cases hp

namespace Execution
variable {β σ η : Type} {c : Comparison σ} {H : η → η → Prop}

structure Alike (c : Comparison σ) (H : η → η → Prop) (e e' : Execution β σ η) : Prop where
  state : Hosted.Alike c H e.state e'.state
  phase : Phase.Alike e.phase e'.phase

variable [Host η] [Bus β] {e e' : Execution β σ η}

/-- The steps of a loop that looks for breaks in other ways: `doze` is the look of an idle tick, and
`check` that at the end of a pass. -/
def specialStepWith (check : Hosted β σ η → Bool × Hosted β σ η) (e : Execution β σ η) :
    Execution β σ η :=
  if e.state.isNested.1 then endPass e.watch (check e.state.isNested.2)
  else if e.probed.1 then ⟨e.probed.2, e.watch, .returned⟩
  else if e.traced.machine.regs.pending.stop then
    ⟨e.traced.enterIdle.2, e.watch, .idle e.traced.enterIdle.1⟩
  else endPass e.watch (Hosted.finishWith check e.traced)

def idleStepWith (doze check : Hosted β σ η → Bool × Hosted β σ η) (watch : Watchdog)
    (e : Execution β σ η) : Execution β σ η :=
  let woken := doze (e.ticked watch).2.idleInterrupt
  if woken.1 then
    ⟨woken.2.map fun m => m.mapPending fun p => { p with breakRequest := false }, e.watch,
      .returned⟩
  else if woken.2.machine.regs.pending.stop then ⟨woken.2, e.watch, .idle (e.ticked watch).1⟩
  else endPass e.watch (Hosted.finishWith check woken.2)

def stepWith (doze check : Hosted β σ η → Bool × Hosted β σ η) (e : Execution β σ η) :
    Execution β σ η :=
  match e.phase with
  | .opcode => e.opcodeStep ControlInstructions.table
  | .special => e.specialStepWith check
  | .idle watch => e.idleStepWith doze check watch
  | .returned => e

theorem stepWith_checkForBreak (e : Execution β σ η) :
    e.stepWith Hosted.checkForBreak Hosted.checkForBreak = e.step ControlInstructions.table := rfl

/-- Two runs that are alike, or that both end a pass with a look for a break in states that are. -/
inductive Meets (c : Comparison σ) (H : η → η → Prop)
    (check check' : Hosted β σ η → Bool × Hosted β σ η) :
    Execution β σ η → Execution β σ η → Prop
  | alike {e e' : Execution β σ η} (h : Alike c H e e') : Meets c H check check' e e'
  | pass (watch watch' : Watchdog) {t t' : Hosted β σ η} (h : Hosted.Alike c H t t') :
    Meets c H check check' (endPass watch (check t)) (endPass watch' (check' t'))

section
variable {doze doze' check check' : Hosted β σ η → Bool × Hosted β σ η} (hH : Host.AnswersAlike H)
include hH

theorem finishWith_meets {s s' : Hosted β σ η} (h : Hosted.Alike c H s s')
    (watch watch' : Watchdog) :
    Meets c H check check' (endPass watch (Hosted.finishWith check s))
      (endPass watch' (Hosted.finishWith check' s')) := by
  have hlate := (h.interrupted hH).lateEndOfCycle hH
  simp only [Hosted.finishWith]
  generalize s.interrupted.lateEndOfCycle = p, s'.interrupted.lateEndOfCycle = p' at hlate ⊢
  obtain ⟨leave, ht⟩ := hlate
  cases leave with
  | true => exact .alike ⟨ht, .returned⟩
  | false => exact .pass watch watch' ht

variable (hclock : c.clock → Host.ClockAside H)
include hclock

omit [Bus β] in
theorem start_alike {s s' : Hosted β σ η} (h : Hosted.Alike c H s s') :
    Alike c H (start s) (start s') := by
  have harmed := h.arm hH hclock
  refine ⟨harmed, ?_⟩
  rw [start_phase, start_phase]
  have hpending : (start s').state.machine.regs.pending = (start s).state.machine.regs.pending :=
    harmed.machine.pending
  rw [hpending]
  split
  · exact .special
  · exact .opcode

theorem opcodeStep_alike (h : Hosted.Alike c H e.state e'.state) :
    Alike c H (e.opcodeStep ControlInstructions.table)
      (e'.opcodeStep ControlInstructions.table) := by
  have hbreakpoint := h.breakpoint hH
  have hready : Hosted.Alike c H e.ready.2 e'.ready.2 :=
    (hbreakpoint.map hbreakpoint.machine.recordRegisters).check hH hclock _ _
  have hdone := (hready.map hready.machine.executeOpcode).cycle hH false
  refine ⟨hdone, ?_⟩
  rw [opcodeStep_eq, opcodeStep_eq]
  dsimp only
  rw [hdone.machine.pending]
  split
  · exact .opcode
  · exact .special

theorem specialStepWith_meets (h : Hosted.Alike c H e.state e'.state) :
    Meets c H check check' (e.specialStepWith check) (e'.specialStepWith check') := by
  have hnested := h.isNested hH
  have hprobed : Hosted.Agrees c H e.probed e'.probed := hnested.snd.earlyEndOfCycle hH
  have htraced : Hosted.Alike c H e.traced e'.traced :=
    hprobed.snd.map hprobed.snd.machine.traceIfDue
  simp only [specialStepWith]
  rw [hnested.fst, hprobed.fst, htraced.machine.pending]
  split
  · exact .pass _ _ hnested.snd
  split
  · exact .alike ⟨hprobed.snd, .returned⟩
  split
  · exact .alike ⟨htraced.enterIdle hH hclock, .idle _ _⟩
  · exact finishWith_meets hH htraced _ _

omit [Bus β] in
theorem ticked_alike (h : Hosted.Alike c H e.state e'.state) (watch watch' : Watchdog) :
    Hosted.Alike c H (e.ticked watch).2 (e'.ticked watch').2 :=
  (h.check hH hclock watch watch').tick hH

omit hclock in
theorem idleStepWith_meets {watch watch' : Watchdog}
    (h : Hosted.Agrees c H (doze (e.ticked watch).2.idleInterrupt)
      (doze' (e'.ticked watch').2.idleInterrupt)) :
    Meets c H check check' (e.idleStepWith doze check watch)
      (e'.idleStepWith doze' check' watch') := by
  simp only [idleStepWith]
  generalize doze (e.ticked watch).2.idleInterrupt = p,
    doze' (e'.ticked watch').2.idleInterrupt = p' at h ⊢
  obtain ⟨leave, ht⟩ := h
  dsimp only
  split
  · refine .alike ⟨?_, .returned⟩
    exact ⟨ht.machine.mapPending _, ht.host⟩
  rw [ht.machine.pending]
  split
  · exact .alike ⟨ht, .idle _ _⟩
  · exact finishWith_meets hH ht _ _

end

end Execution
end Mc68000
