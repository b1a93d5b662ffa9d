import Mc68000.Execution.Step
import Mc68000.Proofs.Exception
import Mathlib.Logic.Relation

/-!
# Talking to the host

Much of the loop only talks: it adds events to the journal, the host sees callbacks, and the rest of
the machine is as before. Housekeeping and interrupts change the machine in between.
-/

namespace Mc68000

/-- The host after one callback. The question whether the interrupt level has changed is not among
them: its answer is used up with it. -/
inductive Host.Callback {η : Type} [Host η] (h : η) : η → Prop
  | nowMillis : Callback h (Host.nowMillis h).2
  | delay : Callback h (Host.delay h)
  | handleInstructionBreak : Callback h (Host.handleInstructionBreak h)
  | endOfCycle (early : Bool) : Callback h (Host.endOfCycle h early).2
  | checkForBreak : Callback h (Host.checkForBreak h).2
  | interruptLevel : Callback h (Host.interruptLevel h).2
  | postButtonEvent (event : ButtonEvent) (now : Bool) :
    Callback h (Host.postButtonEvent h event now)
  | eventSource (source : EventSource) : Callback h (Host.eventSource h source).2
  | setEventSource (source : EventSource) (on : Bool) : Callback h (Host.setEventSource h source on)
  | cycle (sleeping : Bool) : Callback h (Host.cycle h sleeping)
  | cycleSlowly (sleeping : Bool) : Callback h (Host.cycleSlowly h sleeping)

abbrev Host.Calls {η : Type} [Host η] : η → η → Prop := Relation.ReflTransGen Host.Callback

def Host.pending {η : Type} [Host η] (h : η) : Option UInt8 :=
  (Host.interruptLevel h).1.filter Machine.isInterruptLevel

/-- A host with an interrupt line that is stuck. After so many ticks it asks for a break, and says
that the interrupt level has changed. -/
structure Host.Stuck where
  level : Option UInt8 := none
  limit : Nat := 64
  ticks : Nat := 0

instance : Host Host.Stuck where
  nowMillis h := (0, h)
  delay h := h
  checkForBreak h := (h.limit ≤ h.ticks, h)
  interruptLevel h := (h.level, h)
  takeInterruptChange h := (h.limit ≤ h.ticks, h)
  cycle h _ := { h with ticks := h.ticks + 1 }

/-- Nothing of the registers has changed but requests: to look for an interrupt, to break, and to
call at the end of a cycle. -/
def Registers.Rests (r r' : Registers) : Prop :=
  ∃ check due brk eoc, r' = r.mapPending fun p =>
    { p with interruptCheck := check, interruptDue := due, breakRequest := brk, endOfCycle := eoc }

namespace Registers.Rests
variable {r r₁ r₂ : Registers}

theorem refl (r : Registers) : r.Rests r := ⟨_, _, _, _, rfl⟩

theorem of_eq (h : r₁ = r) : r.Rests r₁ := h ▸ refl r

theorem trans (h : r.Rests r₁) (h₁ : r₁.Rests r₂) : r.Rests r₂ := by
  obtain ⟨_, _, _, _, rfl⟩ := h
  obtain ⟨check, due, brk, eoc, rfl⟩ := h₁
  exact ⟨check, due, brk, eoc, rfl⟩

theorem stop (h : r.Rests r₁) : r₁.pending.stop = r.pending.stop := by
  obtain ⟨_, _, _, _, rfl⟩ := h
  rfl

theorem pc (h : r.Rests r₁) : r₁.pc = r.pc := by
  obtain ⟨_, _, _, _, rfl⟩ := h
  rfl

theorem status (h : r.Rests r₁) : r₁.status = r.status := by
  obtain ⟨_, _, _, _, rfl⟩ := h
  rfl

theorem traceDue (h : r.Rests r₁) : r₁.pending.traceDue = r.pending.traceDue := by
  obtain ⟨_, _, _, _, rfl⟩ := h
  rfl

end Registers.Rests

namespace Hosted
variable {β σ η α : Type} {P : Event → Prop} {R : Registers → Registers → Prop}

theorem consult_eq (s : Hosted β σ η) (question : η → α × η) (call : α → HostCall) :
    s.consult question call = ((question s.host).1,
      ⟨s.machine.log (.host (call (question s.host).1)), (question s.host).2⟩) := rfl

variable [Host η]

/-- Events of this kind were added to the journal and the host saw callbacks; nothing else. -/
def Talks (P : Event → Prop) (s s' : Hosted β σ η) : Prop :=
  Machine.Logs P s.machine s'.machine ∧ Host.Calls s.host s'.host

namespace Talks
variable {s s₁ s₂ : Hosted β σ η}

theorem refl (s : Hosted β σ η) : Talks P s s := ⟨.refl _, .refl⟩

theorem trans (h₁ : Talks P s s₁) (h₂ : Talks P s₁ s₂) : Talks P s s₂ :=
  ⟨h₁.1.trans h₂.1, h₁.2.trans h₂.2⟩

theorem log (s : Hosted β σ η) {e : Event} (he : P e) : Talks P s (s.log e) :=
  ⟨.log _ he, .refl⟩

theorem ask (s : Hosted β σ η) (question : η → α) (call : α → HostCall)
    (he : P (.host (call (question s.host)))) : Talks P s (s.ask question call).2 :=
  .log s he

theorem consult (s : Hosted β σ η) (question : η → α × η) (call : α → HostCall)
    (hcall : Host.Callback s.host (question s.host).2)
    (he : P (.host (call (question s.host).1))) : Talks P s (s.consult question call).2 :=
  ⟨.log _ he, .single hcall⟩

theorem request (s : Hosted β σ η) (act : η → η) (call : HostCall)
    (hcall : Host.Callback s.host (act s.host)) (he : P (.host call)) :
    Talks P s (s.request act call) :=
  ⟨.log _ he, .single hcall⟩

theorem continues (h : Talks P s s₁) : Machine.Continues s.machine s₁.machine :=
  (h.1.evolves Registers.kept_true.toKeptByException).continues

theorem rests (h : Talks P s s₁) : s.machine.regs.Rests s₁.machine.regs := .of_eq h.1.regs

end Talks

theorem breakpoint_eq (s : Hosted β σ η) :
    s.breakpoint =
      if s.isNested.1 then s.isNested.2
      else
        let hit := s.isNested.2.ask (fun h => Host.isBreakLocation h s.machine.regs.pc)
          (.isBreakLocation s.machine.regs.pc)
        if hit.1 then hit.2.request Host.handleInstructionBreak .handleInstructionBreak
        else hit.2 := rfl

theorem breakpoint_talks (hP : ∀ e : Event, e.ofChat → P e) (s : Hosted β σ η) :
    Talks P s s.breakpoint := by
  have hnested : Talks P s s.isNested.2 := .ask s Host.isNested .isNested (hP _ rfl)
  rw [breakpoint_eq]
  dsimp only
  split
  · exact hnested
  · have hasked := hnested.trans (.ask _ (fun h => Host.isBreakLocation h s.machine.regs.pc)
      (.isBreakLocation s.machine.regs.pc) (hP _ rfl))
    split
    · exact hasked.trans (.request _ _ _ .handleInstructionBreak (hP _ rfl))
    · exact hasked

theorem watchdog_arm_talks (hP : ∀ e : Event, e.ofAside → P e) (s : Hosted β σ η) :
    Talks P s (Watchdog.arm s).2 := by
  simp only [Watchdog.arm]
  split
  · exact .refl s
  · exact .consult s Host.nowMillis .nowMillis .nowMillis (hP _ rfl)

theorem watchdog_check_eq (w : Watchdog) (s : Hosted β σ η) :
    w.check s =
      match s.machine.settings.deadManTimeoutMs with
      | none => (w, s)
      | some timeout =>
        let read := s.consult Host.nowMillis .nowMillis
        if timeout < w.elapsed read.1 then
          (⟨read.1⟩, read.2.log (.overdue read.1 (w.elapsed read.1) s.machine.regs.pc))
        else (w, read.2) := rfl

theorem watchdog_check_talks (hP : ∀ e : Event, e.ofAside → P e) (w : Watchdog)
    (s : Hosted β σ η) : Talks P s (w.check s).2 := by
  have hread : Talks P s (s.consult Host.nowMillis .nowMillis).2 :=
    .consult s Host.nowMillis .nowMillis .nowMillis (hP _ rfl)
  rw [watchdog_check_eq]
  split
  · exact .refl s
  · dsimp only
    split
    · exact hread.trans (.log _ (hP _ rfl))
    · exact hread

theorem earlyEndOfCycle_talks (hP : ∀ e : Event, e.ofChat → P e) (s : Hosted β σ η) :
    Talks P s s.earlyEndOfCycle.2 := by
  simp only [earlyEndOfCycle]
  split
  · exact .consult s _ _ (.endOfCycle true) (hP _ rfl)
  · exact .refl s

theorem pendingLevel_talks (hP : ∀ e : Event, e.ofTalk → P e) (s : Hosted β σ η) :
    Talks P s s.pendingLevel.2 :=
  .consult s _ .interruptLevel .interruptLevel (hP _ rfl)

theorem pauseSource_eq (before : List EventSource × Hosted β σ η) (source : EventSource) :
    pauseSource before source =
      let found := before.2.consult (fun h => Host.eventSource h source) (.eventSource source)
      if found.1 = some true then
        (before.1 ++ [source], found.2.request (fun h => Host.setEventSource h source false)
          (.setEventSource source false))
      else (before.1, found.2) := rfl

theorem pauseSource_talks (hP : ∀ e : Event, e.ofChat → P e)
    (before : List EventSource × Hosted β σ η) (source : EventSource) :
    Talks P before.2 (pauseSource before source).2 := by
  have hfound : Talks P before.2 (before.2.consult (fun h => Host.eventSource h source)
      (.eventSource source)).2 := .consult _ _ _ (.eventSource source) (hP _ rfl)
  rw [pauseSource_eq]
  dsimp only
  split
  · exact hfound.trans (.request _ _ _ (.setEventSource source false) (hP _ rfl))
  · exact hfound

theorem resumeSource_eq (s : Hosted β σ η) (source : EventSource) :
    s.resumeSource source =
      let found := s.consult (fun h => Host.eventSource h source) (.eventSource source)
      if found.1.isSome then
        found.2.request (fun h => Host.setEventSource h source true) (.setEventSource source true)
      else found.2 := rfl

theorem resumeSource_talks (hP : ∀ e : Event, e.ofChat → P e) (s : Hosted β σ η)
    (source : EventSource) : Talks P s (s.resumeSource source) := by
  have hfound : Talks P s (s.consult (fun h => Host.eventSource h source)
      (.eventSource source)).2 := .consult _ _ _ (.eventSource source) (hP _ rfl)
  rw [resumeSource_eq]
  dsimp only
  split
  · exact hfound.trans (.request _ _ _ (.setEventSource source true) (hP _ rfl))
  · exact hfound

theorem foldl_pauseSource_talks (hP : ∀ e : Event, e.ofChat → P e) (sources : List EventSource)
    (before : List EventSource × Hosted β σ η) :
    Talks P before.2 (sources.foldl pauseSource before).2 := by
  induction sources generalizing before with
  | nil => exact .refl _
  | cons source sources ih => exact (pauseSource_talks hP before source).trans (ih _)

theorem foldl_resumeSource_talks (hP : ∀ e : Event, e.ofChat → P e) (sources : List EventSource)
    (s : Hosted β σ η) : Talks P s (sources.foldl resumeSource s) := by
  induction sources generalizing s with
  | nil => exact .refl _
  | cons source sources ih => exact (resumeSource_talks hP s source).trans (ih _)

theorem postPower_talks (hP : ∀ e : Event, e.ofChat → P e) (s : Hosted β σ η) (pressed : Bool) :
    Talks P s (s.postPower pressed) :=
  .request s (fun h => Host.postButtonEvent h ⟨.power, pressed⟩ pressed)
    (.postButtonEvent ⟨.power, pressed⟩ pressed) (.postButtonEvent ⟨.power, pressed⟩ pressed)
    (hP _ rfl)

theorem pressPower_talks (hP : ∀ e : Event, e.ofChat → P e) (s : Hosted β σ η) :
    Talks P s s.pressPower := by
  have hpaused := foldl_pauseSource_talks hP EventSource.all ([], s)
  simp only [pressPower]
  generalize EventSource.all.foldl pauseSource ([], s) = paused at hpaused ⊢
  obtain ⟨suspended, t⟩ := paused
  dsimp only
  split
  · exact hpaused
  · have hlogged := hpaused.trans (.log t (hP (.powerPressed suspended) rfl))
    have hposted := (hlogged.trans (postPower_talks hP _ true)).trans (postPower_talks hP _ false)
    exact hposted.trans (foldl_resumeSource_talks hP suspended _)

def warnMasked (s : Hosted β σ η) : Hosted β σ η :=
  if 7 ≤ s.machine.regs.status.mask then s.log (.stopMasked s.machine.regs.pc) else s

theorem enterIdle_eq (s : Hosted β σ η) :
    s.enterIdle =
      let asleep := s.warnMasked.ask Host.isAsleep .isAsleep
      if asleep.1 then
        let queued := asleep.2.ask Host.hasButtonEvent .hasButtonEvent
        Watchdog.arm (if queued.1 then queued.2 else queued.2.pressPower)
      else Watchdog.arm asleep.2 := rfl

def beforeIdle (s : Hosted β σ η) : Hosted β σ η :=
  let asleep := s.warnMasked.ask Host.isAsleep .isAsleep
  if asleep.1 then
    let queued := asleep.2.ask Host.hasButtonEvent .hasButtonEvent
    if queued.1 then queued.2 else queued.2.pressPower
  else asleep.2

theorem enterIdle_eq_arm (s : Hosted β σ η) : s.enterIdle = Watchdog.arm s.beforeIdle := by
  rw [enterIdle_eq, beforeIdle]
  dsimp only
  split <;> rfl

theorem warnMasked_talks (hP : ∀ e : Event, e.ofChat → P e) (s : Hosted β σ η) :
    Talks P s s.warnMasked := by
  simp only [warnMasked]
  split
  · exact .log s (hP _ rfl)
  · exact .refl s

theorem beforeIdle_talks (hP : ∀ e : Event, e.ofChat → P e) (s : Hosted β σ η) :
    Talks P s s.beforeIdle := by
  have hasleep := (warnMasked_talks hP s).trans (.ask _ Host.isAsleep .isAsleep (hP _ rfl))
  have hqueued := hasleep.trans (.ask _ Host.hasButtonEvent .hasButtonEvent (hP _ rfl))
  simp only [beforeIdle]
  split
  · split
    · exact hqueued
    · exact hqueued.trans (pressPower_talks hP _)
  · exact hasleep

theorem enterIdle_talks (hP : ∀ e : Event, e.ofAside → P e) (s : Hosted β σ η) :
    Talks P s s.enterIdle.2 := by
  rw [enterIdle_eq_arm]
  exact (beforeIdle_talks (fun e he => hP e (Event.ofAside_of_ofChat he)) s).trans
    (watchdog_arm_talks hP _)

def pollInterrupts (s : Hosted β σ η) : Hosted β σ η :=
  let polled := s.consult Host.takeInterruptChange .takeInterruptChange
  if polled.1 then polled.2.map Machine.interruptsChanged else polled.2

def countTick (s : Hosted β σ η) : Hosted β σ η :=
  s.map fun m => { m with slowCounter := m.slowCounter + 1 }

theorem cycleSlowly_eq (s : Hosted β σ η) (sleeping : Bool) :
    s.cycleSlowly sleeping =
      let asked := (s.request (fun h => Host.cycleSlowly h sleeping) (.cycleSlowly sleeping)).ask
        Host.suspendRequested .suspendRequested
      if asked.1 then asked.2.map Machine.checkAfterCycle else asked.2 := rfl

theorem cycle_eq (s : Hosted β σ η) (sleeping : Bool) :
    s.cycle sleeping =
      if s.isNested.1 then s.isNested.2
      else
        let ticked := s.isNested.2.request (fun h => Host.cycle h sleeping) (.cycle sleeping)
        let counted := ticked.pollInterrupts.countTick
        if sleeping || counted.machine.slowCounter &&& counted.machine.settings.slowCycleMask == 0
        then counted.cycleSlowly sleeping
        else counted := rfl

theorem pollInterrupts_evolves (hK : Registers.KeptByHousekeeping R)
    (hP : ∀ e : Event, e.ofTalk → P e)
    (s : Hosted β σ η) : Machine.Evolves P R s.machine s.pollInterrupts.machine := by
  have hpolled : Machine.Evolves P R s.machine
      (s.consult Host.takeInterruptChange .takeInterruptChange).2.machine :=
    .log hK s.machine (hP _ rfl)
  simp only [pollInterrupts]
  split
  · exact hpolled.trans hK (Machine.interruptsChanged_evolves hK _)
  · exact hpolled

theorem cycleSlowly_evolves (hK : Registers.KeptByHousekeeping R) (hP : ∀ e : Event, e.ofTalk → P e)
    (s : Hosted β σ η) (sleeping : Bool) :
    Machine.Evolves P R s.machine (s.cycleSlowly sleeping).machine := by
  have hslow : Talks P s
      (s.request (fun h => Host.cycleSlowly h sleeping) (.cycleSlowly sleeping)) :=
    .request s _ _ (.cycleSlowly sleeping) (hP _ rfl)
  have hasked :=
    (hslow.trans (.ask _ Host.suspendRequested .suspendRequested (hP _ rfl))).1.evolves
      hK.toKeptByException
  rw [cycleSlowly_eq]
  dsimp only
  split
  · exact hasked.trans hK (Machine.checkAfterCycle_evolves hK _)
  · exact hasked

theorem cycle_evolves (hK : Registers.KeptByHousekeeping R) (hP : ∀ e : Event, e.ofTalk → P e)
    (s : Hosted β σ η) (sleeping : Bool) :
    Machine.Evolves P R s.machine (s.cycle sleeping).machine := by
  have hnested : Talks P s s.isNested.2 := .ask s Host.isNested .isNested (hP _ rfl)
  have hticked := (hnested.trans (.request _ (fun h => Host.cycle h sleeping) (.cycle sleeping)
    (.cycle sleeping) (hP _ rfl))).1.evolves hK.toKeptByException
  have hcount : ∀ t : Hosted β σ η, Machine.Evolves P R t.machine t.countTick.machine :=
    fun t => .of_parts (hK.refl _) rfl rfl rfl rfl rfl
  have hcounted := (hticked.trans hK (pollInterrupts_evolves hK hP _)).trans hK (hcount _)
  rw [cycle_eq]
  dsimp only
  split
  · exact hnested.1.evolves hK
  · split
    · exact hcounted.trans hK (cycleSlowly_evolves hK hP _ sleeping)
    · exact hcounted

theorem cycle_continues (s : Hosted β σ η) (sleeping : Bool) :
    Machine.Continues s.machine (s.cycle sleeping).machine :=
  cycle_evolves Registers.kept_true (fun _ _ => trivial) s sleeping

theorem checkForBreak_eq (s : Hosted β σ η) :
    s.checkForBreak =
      if s.machine.regs.pending.breakRequest then
        (true, s.map fun m => m.mapPending fun p => { p with breakRequest := false })
      else s.consult Host.checkForBreak .checkForBreak := rfl

theorem lateEndOfCycle_evolves (hK : Registers.KeptByHousekeeping R)
    (hP : ∀ e : Event, e.ofTalk → P e)
    (s : Hosted β σ η) : Machine.Evolves P R s.machine s.lateEndOfCycle.2.machine := by
  simp only [lateEndOfCycle]
  split
  · have hused : Machine.Evolves P R s.machine
        (s.machine.mapPending fun p => { p with endOfCycle := false }) :=
      .mapRegs _ (hK.endOfCycle _ false)
    exact hused.trans hK (.log hK _ (hP _ rfl))
  · exact .refl hK _

theorem lateEndOfCycle_continues (s : Hosted β σ η) :
    Machine.Continues s.machine s.lateEndOfCycle.2.machine :=
  lateEndOfCycle_evolves Registers.kept_true (fun _ _ => trivial) s

theorem checkForBreak_rests (s : Hosted β σ η) :
    s.machine.regs.Rests s.checkForBreak.2.machine.regs := by
  rw [checkForBreak_eq]
  split
  · exact ⟨_, _, _, _, rfl⟩
  · exact .refl _

theorem lateEndOfCycle_rests (s : Hosted β σ η) :
    s.machine.regs.Rests s.lateEndOfCycle.2.machine.regs := by
  simp only [lateEndOfCycle]
  split
  · exact ⟨_, _, _, _, rfl⟩
  · exact .refl _

theorem pollInterrupts_rests (s : Hosted β σ η) :
    s.machine.regs.Rests s.pollInterrupts.machine.regs := by
  simp only [pollInterrupts]
  split
  · exact ⟨_, _, _, _, rfl⟩
  · exact .refl _

theorem cycleSlowly_rests (s : Hosted β σ η) (sleeping : Bool) :
    s.machine.regs.Rests (s.cycleSlowly sleeping).machine.regs := by
  rw [cycleSlowly_eq]
  dsimp only
  split
  · exact ⟨_, _, _, _, rfl⟩
  · exact .refl _

theorem cycle_rests (s : Hosted β σ η) (sleeping : Bool) :
    s.machine.regs.Rests (s.cycle sleeping).machine.regs := by
  let ticked := s.isNested.2.request (fun h => Host.cycle h sleeping) (.cycle sleeping)
  have hcounted : s.machine.regs.Rests ticked.pollInterrupts.countTick.machine.regs :=
    pollInterrupts_rests ticked
  rw [cycle_eq]
  dsimp only
  split
  · exact .refl _
  split
  · exact hcounted.trans (cycleSlowly_rests _ sleeping)
  · exact hcounted

def AboveMask (s : Hosted β σ η) : Prop :=
  ∃ level, Host.pending s.host = some level ∧ s.machine.regs.status.mask < level

def InterruptDue (s : Hosted β σ η) : Prop :=
  s.machine.regs.pending.interruptDue = true ∧ s.machine.guard.overflowed = false ∧ s.AboveMask

/-- An idle tick at this point delivers an interrupt. Whether the kernel stack has overflowed is not
asked. -/
def WakeDue (s : Hosted β σ η) : Prop :=
  (s.machine.regs.pending.interruptCheck = true ∨ s.machine.regs.pending.interruptDue = true) ∧
    s.AboveMask

def tick (s : Hosted β σ η) : Hosted β σ η :=
  ((s.request Host.delay .delay).map fun m => m.charge m.settings.idleTickCycles).cycle true

theorem tick_evolves (hK : Registers.KeptByHousekeeping R) (hP : ∀ e : Event, e.ofTalk → P e)
    (hD : P (.host .delay)) (s : Hosted β σ η) : Machine.Evolves P R s.machine s.tick.machine := by
  have hdelay : Talks P s (s.request Host.delay .delay) := .request s _ _ .delay hD
  have hcharged := (hdelay.1.evolves hK.toKeptByException).trans hK
    (Machine.charge_evolves hK.toKeptByException _ s.machine.settings.idleTickCycles)
  simp only [tick]
  exact hcharged.trans hK (cycle_evolves hK hP
    ((s.request Host.delay .delay).map fun m => m.charge m.settings.idleTickCycles) true)

theorem tick_rests (s : Hosted β σ η) : s.machine.regs.Rests s.tick.machine.regs :=
  cycle_rests ((s.request Host.delay .delay).map fun m => m.charge m.settings.idleTickCycles) true

variable [Bus β]

theorem isInterruptLevel_of_pending {h : η} {level : UInt8} (hl : Host.pending h = some level) :
    Machine.isInterruptLevel level = true := by
  simp only [Host.pending] at hl
  exact (Option.filter_eq_some_iff.mp hl).2

def acceptInterrupt (wake : Registers → Registers) (base level : UInt8) (m : Machine β σ) :
    Machine β σ :=
  ((m.takeInterrupt base level).mapRegs fun r => wake { r with stopped := false }).deliverFault

def interruptTaken (wake : Registers → Registers) (level : UInt8) (m : Machine β σ) :
    Machine β σ :=
  (m.mapRegs fun r => r.setMask level).interruptsChanged.mapRegs fun r =>
    wake { r with stopped := false }

theorem acceptInterrupt_eq (wake : Registers → Registers) (base : UInt8) {level : UInt8}
    (hlevel : Machine.isInterruptLevel level = true) (m : Machine β σ) :
    acceptInterrupt wake base level m =
      (interruptTaken wake level ((m.log (.interrupt base level m.regs.status.mask)).takeException
        (base + level))).deliverFault := by
  simp only [acceptInterrupt, interruptTaken, Machine.takeInterrupt]
  rw [if_pos hlevel]

omit [Host η] [Bus β] in
theorem interruptTaken_evolves {wake : Registers → Registers} {level : UInt8} {m : Machine β σ}
    (h : R m.regs (interruptTaken wake level m).regs) :
    Machine.Evolves P R m (interruptTaken wake level m) :=
  .of_parts h rfl rfl rfl rfl rfl

theorem deliverInterrupt_eq (s : Hosted β σ η) (level : Option UInt8)
    (wake : Registers → Registers) :
    s.deliverInterrupt level wake =
      match level with
      | none => s
      | some level =>
        if s.machine.regs.status.mask < level then
          let asked := s.ask Host.interruptBase .interruptBase
          asked.2.map (acceptInterrupt wake asked.1 level)
        else s := rfl

theorem acceptInterrupt_evolves (hK : Registers.Kept R)
    (hP : ∀ e : Event, e.ofInterrupt → P e) {wake : Registers → Registers}
    (hwake : ∀ r, R r (wake { r with stopped := false })) {m : Machine β σ}
    (hH : m.hooks.Respects R) (base level : UInt8) :
    Machine.Evolves P R m (acceptInterrupt wake base level m) := by
  have hF : ∀ e : Event, e.ofFault → P e := fun e he => hP e (Event.ofInterrupt_of_ofFault he)
  have htaken := Machine.takeInterrupt_evolves hK
    (fun e he => hF e (Event.ofFault_of_ofException he)) (fun _ _ _ => hP _ rfl)
    (fun _ => hP _ rfl) hH base level
  have hwoken := htaken.trans hK (.mapRegs (f := fun r => wake { r with stopped := false }) _
    (hwake _))
  exact hwoken.trans hK (Machine.deliverFault_evolves hK hF (hwoken.respects hH))

theorem acceptInterrupt_logged (wake : Registers → Registers) (base : UInt8) {level : UInt8}
    (hlevel : Machine.isInterruptLevel level = true) (m : Machine β σ) :
    Machine.Logged (fun e => e.isInterrupt) m (acceptInterrupt wake base level m) ∧
      Machine.Logged (fun e => e.isException) m (acceptInterrupt wake base level m) := by
  have hrest : ∀ n : Machine β σ,
      Machine.Grows n (n.mapRegs fun r => wake { r with stopped := false }).deliverFault :=
    fun n => (Machine.deliverFault_continues (n.mapRegs fun r =>
      wake { r with stopped := false })).grows
  obtain ⟨hinterrupt, hexception⟩ := Machine.takeInterrupt_logged m base hlevel
  exact ⟨hinterrupt.trans_grows (hrest _), hexception.trans_grows (hrest _)⟩

/-- Read the level, use up the conditions that asked for it, and deliver the interrupt. -/
def answerInterrupt (s : Hosted β σ η) (use : Pending → Pending) (wake : Registers → Registers) :
    Hosted β σ η :=
  (s.pendingLevel.2.map fun m => m.mapPending use).deliverInterrupt s.pendingLevel.1 wake

theorem answerInterrupt_of_not_above {s : Hosted β σ η} (h : ¬ s.AboveMask)
    (use : Pending → Pending) (wake : Registers → Registers) :
    s.answerInterrupt use wake = s.pendingLevel.2.map fun m => m.mapPending use := by
  have hlevel : s.pendingLevel.1 = Host.pending s.host := rfl
  simp only [answerInterrupt]
  rw [deliverInterrupt_eq, hlevel]
  split
  · rfl
  · rename_i level hl
    exact if_neg fun hm => h ⟨level, hl, hm⟩

def askBase (s : Hosted β σ η) (use : Pending → Pending) : UInt8 × Hosted β σ η :=
  (s.pendingLevel.2.map fun m => m.mapPending use).ask Host.interruptBase .interruptBase

theorem answerInterrupt_of_above {s : Hosted β σ η} {level : UInt8}
    (hl : Host.pending s.host = some level) (hm : s.machine.regs.status.mask < level)
    (use : Pending → Pending) (wake : Registers → Registers) :
    s.answerInterrupt use wake =
      (s.askBase use).2.map (acceptInterrupt wake (s.askBase use).1 level) := by
  have hlevel : s.pendingLevel.1 = some level := hl
  simp only [answerInterrupt]
  rw [deliverInterrupt_eq, hlevel]
  exact if_pos hm

theorem answerInterrupt_evolves (hK : Registers.Kept R) (hP : ∀ e : Event, e.ofTalk → P e)
    (hI : ∀ e : Event, e.ofInterrupt → P e) {use : Pending → Pending}
    {wake : Registers → Registers} (huse : ∀ r, R r (r.mapPending use))
    (hwake : ∀ r, R r (wake { r with stopped := false })) {s : Hosted β σ η}
    (hH : s.machine.hooks.Respects R) :
    Machine.Evolves P R s.machine (s.answerInterrupt use wake).machine := by
  have hused : Machine.Evolves P R s.machine
      (s.pendingLevel.2.map fun m => m.mapPending use).machine :=
    ((pendingLevel_talks hP s).1.evolves hK).trans hK (.mapPending _ (huse _))
  by_cases habove : s.AboveMask
  · obtain ⟨level, hl, hm⟩ := habove
    rw [answerInterrupt_of_above hl hm]
    have hasked := hused.trans hK (.log hK _
      (hP (.host (.interruptBase (Host.interruptBase s.pendingLevel.2.host))) rfl))
    exact hasked.trans hK (acceptInterrupt_evolves hK hI hwake (hasked.respects hH) _ level)
  · rw [answerInterrupt_of_not_above habove]
    exact hused

theorem answerInterrupt_logged {s : Hosted β σ η} (h : s.AboveMask) (use : Pending → Pending)
    (wake : Registers → Registers) :
    Machine.Logged (fun e => e.isInterrupt) s.machine (s.answerInterrupt use wake).machine ∧
      Machine.Logged (fun e => e.isException) s.machine (s.answerInterrupt use wake).machine := by
  obtain ⟨level, hl, hm⟩ := h
  rw [answerInterrupt_of_above hl hm]
  have hasked : Machine.Grows s.machine (s.askBase use).2.machine := ⟨[_, _], rfl⟩
  obtain ⟨hinterrupt, hexception⟩ := acceptInterrupt_logged wake (s.askBase use).1
    (isInterruptLevel_of_pending hl) (s.askBase use).2.machine
  exact ⟨.grows_trans hasked hinterrupt, .grows_trans hasked hexception⟩

def dueUsed (p : Pending) : Pending := { p with interruptDue := false }

def wakened (r : Registers) : Registers := r.mapPending fun p => { p with stop := false }

theorem dueInterrupt_eq (s : Hosted β σ η) :
    s.dueInterrupt =
      if s.machine.regs.pending.interruptDue && !s.machine.guard.overflowed then
        s.answerInterrupt dueUsed id
      else s := rfl

theorem idleInterrupt_eq (s : Hosted β σ η) :
    s.idleInterrupt =
      if s.machine.regs.pending.interruptCheck || s.machine.regs.pending.interruptDue then
        s.answerInterrupt Pending.withoutInterrupt wakened
      else s := rfl

variable {s : Hosted β σ η}

theorem dueInterrupt_evolves (hK : Registers.Kept R) (hP : ∀ e : Event, e.ofTalk → P e)
    (hI : ∀ e : Event, e.ofInterrupt → P e) (hused : ∀ r : Registers, R r (r.mapPending dueUsed))
    (hwake : ∀ r : Registers, R r { r with stopped := false })
    (hH : s.machine.hooks.Respects R) :
    Machine.Evolves P R s.machine s.dueInterrupt.machine := by
  rw [dueInterrupt_eq]
  split
  · exact answerInterrupt_evolves hK hP hI hused hwake hH
  · exact .refl hK _

theorem idleInterrupt_evolves (hK : Registers.Kept R) (hP : ∀ e : Event, e.ofTalk → P e)
    (hI : ∀ e : Event, e.ofInterrupt → P e)
    (hused : ∀ r : Registers, R r (r.mapPending Pending.withoutInterrupt))
    (hwake : ∀ r : Registers, R r (wakened { r with stopped := false }))
    (hH : s.machine.hooks.Respects R) :
    Machine.Evolves P R s.machine s.idleInterrupt.machine := by
  rw [idleInterrupt_eq]
  split
  · exact answerInterrupt_evolves hK hP hI hused hwake hH
  · exact .refl hK _

theorem dueInterrupt_continues (s : Hosted β σ η) :
    Machine.Continues s.machine s.dueInterrupt.machine :=
  dueInterrupt_evolves Registers.kept_true (fun _ _ => trivial) (fun _ _ => trivial)
    (fun _ => trivial) (fun _ => trivial) (Registry.respects_true _)

theorem idleInterrupt_continues (s : Hosted β σ η) :
    Machine.Continues s.machine s.idleInterrupt.machine :=
  idleInterrupt_evolves Registers.kept_true (fun _ _ => trivial) (fun _ _ => trivial)
    (fun _ => trivial) (fun _ => trivial) (Registry.respects_true _)

theorem dueInterrupt_evolves_of_not_due (hK : Registers.KeptByException R)
    (hP : ∀ e : Event, e.ofTalk → P e) (hused : ∀ r : Registers, R r (r.mapPending dueUsed))
    (h : ¬ s.InterruptDue) : Machine.Evolves P R s.machine s.dueInterrupt.machine := by
  rw [dueInterrupt_eq]
  split
  · rename_i hlook
    simp only [Bool.and_eq_true, Bool.not_eq_true'] at hlook
    rw [answerInterrupt_of_not_above fun habove => h ⟨hlook.1, hlook.2, habove⟩]
    exact ((pendingLevel_talks hP s).1.evolves hK).trans hK (.mapPending _ (hused _))
  · exact .refl hK _

theorem dueInterrupt_rests_of_not_due (h : ¬ s.InterruptDue) :
    s.machine.regs.Rests s.dueInterrupt.machine.regs := by
  rw [dueInterrupt_eq]
  split
  · rename_i hlook
    simp only [Bool.and_eq_true, Bool.not_eq_true'] at hlook
    rw [answerInterrupt_of_not_above fun habove => h ⟨hlook.1, hlook.2, habove⟩]
    exact ⟨_, _, _, _, rfl⟩
  · exact .refl _

theorem dueInterrupt_logged (h : s.InterruptDue) :
    Machine.Logged (fun e => e.isInterrupt) s.machine s.dueInterrupt.machine ∧
      Machine.Logged (fun e => e.isException) s.machine s.dueInterrupt.machine := by
  obtain ⟨hdue, hguard, habove⟩ := h
  rw [dueInterrupt_eq, if_pos (by simp [hdue, hguard])]
  exact answerInterrupt_logged habove _ _

theorem idleInterrupt_evolves_of_not_due (hK : Registers.KeptByException R)
    (hP : ∀ e : Event, e.ofTalk → P e)
    (hused : ∀ r : Registers, R r (r.mapPending Pending.withoutInterrupt)) (h : ¬ s.WakeDue) :
    Machine.Evolves P R s.machine s.idleInterrupt.machine := by
  rw [idleInterrupt_eq]
  split
  · rename_i hlook
    simp only [Bool.or_eq_true] at hlook
    rw [answerInterrupt_of_not_above fun habove => h ⟨hlook, habove⟩]
    exact ((pendingLevel_talks hP s).1.evolves hK).trans hK (.mapPending _ (hused _))
  · exact .refl hK _

theorem idleInterrupt_rests_of_not_due (h : ¬ s.WakeDue) :
    s.machine.regs.Rests s.idleInterrupt.machine.regs := by
  rw [idleInterrupt_eq]
  split
  · rename_i hlook
    rw [answerInterrupt_of_not_above fun habove => h ⟨by simpa using hlook, habove⟩]
    exact ⟨_, _, _, _, rfl⟩
  · exact .refl _

theorem idleInterrupt_logged (h : s.WakeDue) :
    Machine.Logged (fun e => e.isInterrupt) s.machine s.idleInterrupt.machine ∧
      Machine.Logged (fun e => e.isException) s.machine s.idleInterrupt.machine := by
  obtain ⟨hlook, habove⟩ := h
  rw [idleInterrupt_eq, if_pos (by simpa using hlook)]
  exact answerInterrupt_logged habove _ _

end Hosted
end Mc68000
