import Mc68000.Proofs.Entry
import Mc68000.Proofs.InterruptTiming
import Mc68000.Proofs.Outcome

/-!
# Interrupts interrupt one another

An interrupt is delivered only above the mask, and leaves the mask at its own level. Nothing but the
load of a status word lowers the mask again, so until then every interrupt has a higher level than
the one before it.
-/

namespace Mc68000

namespace Registers

/-- For exception hooks: the status is as before, and the word that was packed from it. -/
def LeavesStatus (r r' : Registers) : Prop := r'.status = r.status ∧ r'.sr = r.sr

def SameMask (r r' : Registers) : Prop := r'.status.mask = r.status.mask

def KeepsCheck (r r' : Registers) : Prop :=
  r.pending.interruptCheck = true → r'.pending.interruptCheck = true

def PacksMask (r : Registers) : Prop := Status.maskOf r.sr = r.status.mask &&& 7

def KeepsMask (r r' : Registers) : Prop := SameMask r r' ∧ (r.PacksMask → r'.PacksMask)

theorem mask_enterSupervisor (r : Registers) :
    r.enterSupervisor.status.mask = r.status.mask := by
  unfold enterSupervisor swapStacks
  split <;> rfl

theorem sr_enterSupervisor (r : Registers) : r.enterSupervisor.sr = r.sr := by
  unfold enterSupervisor swapStacks
  split <;> rfl

theorem packsMask_packStatus (r : Registers) : r.packStatus.PacksMask :=
  congrArg Status.mask (Status.ofWord_toWord r.status)

theorem kept_sameMask : KeptByHousekeeping SameMask where
  refl _ := rfl
  trans hab hbc := hbc.trans hab
  pc _ _ := rfl
  address _ _ _ _ := rfl
  pack _ := rfl
  supervisor := mask_enterSupervisor
  dropTrace _ := rfl
  breakRequest _ := rfl
  interruptCheck _ := rfl
  endOfCycle _ _ := rfl

theorem kept_keepsMask : KeptByException KeepsMask where
  refl _ := ⟨rfl, id⟩
  trans hab hbc := ⟨hbc.1.trans hab.1, fun h => hbc.2 (hab.2 h)⟩
  pc _ _ := ⟨rfl, id⟩
  address _ _ _ _ := ⟨rfl, id⟩
  pack r := ⟨rfl, fun _ => r.packsMask_packStatus⟩
  supervisor r := by
    refine ⟨mask_enterSupervisor r, fun h => ?_⟩
    rw [PacksMask, sr_enterSupervisor, mask_enterSupervisor]
    exact h
  dropTrace _ := ⟨rfl, id⟩
  breakRequest _ := ⟨rfl, id⟩

theorem kept_check : KeptByException KeepsCheck where
  refl _ := id
  trans hab hbc h := hbc (hab h)
  pc _ _ := id
  address _ _ _ _ := id
  pack _ := id
  supervisor r h := by rwa [pending_enterSupervisor]
  dropTrace _ := id
  breakRequest _ := id

end Registers

namespace Registry.Respects
variable {β σ : Type} {r : Registry β σ} (h : r.Respects Registers.LeavesStatus)
include h

theorem sameMask : r.Respects Registers.SameMask :=
  h.mono fun _ _ hleaves => congrArg Status.mask hleaves.1

theorem keepsMask : r.Respects Registers.KeepsMask :=
  h.mono fun a b hleaves => by
    refine ⟨congrArg Status.mask hleaves.1, fun hpacks => ?_⟩
    rw [Registers.PacksMask, hleaves.1, hleaves.2]
    exact hpacks

end Registry.Respects

namespace Machine
variable {β σ : Type} [Bus β] {m : Machine β σ}

/-- The frame of an exception is at the stack pointer of its handler, and the word in it has this
interrupt mask. -/
structure Stacks (m : Machine β σ) (frame : Entry β) (mask : UInt8) : Prop where
  memory : m.bus = frame.entered m.regs.vbr
  sp : m.regs.sp = frame.sp
  mask : Status.maskOf frame.sr = mask

theorem takeException_stacks (hH : m.hooks.Respects Registers.KeepsMask) (v : ExceptionVector) :
    m.Logged (· = .exceptionHandled v) (m.takeException v) ∨
      ∃ frame, (m.takeException v).Stacks frame (m.regs.status.mask &&& 7) ∧ frame.vector = v := by
  have hK := Registers.kept_keepsMask
  let recorded := (m.mapRegs Registers.packStatus).recordException v
  have hrecorded : recorded.regs.PacksMask := m.regs.packsMask_packStatus
  have hcalled : Evolves (fun _ => True) Registers.KeepsMask recorded (m.interceptException v).2 :=
    callHooks_exception_evolves (m := recorded) hK (fun _ _ => trivial) hH v
  have hrecordedGrows : Grows m recorded := ⟨[_], rfl⟩
  have hgrows : Grows m (m.interceptException v).2 := hrecordedGrows.trans hcalled.grows
  rw [takeException_eq]
  split
  · exact .inl (Logged.grows_trans hgrows (.of_log _ rfl))
  · let n := (m.interceptException v).2
    refine .inr ⟨{ n.entry v with sr := n.regs.sr }, ⟨?_, sp_enterException n v, ?_⟩, rfl⟩
    · rw [vbr_enterException]
      exact bus_enterException n v
    · exact (hcalled.regs.2 hrecorded).trans (congrArg (· &&& 7) hcalled.regs.1)

end Machine

namespace Hosted
variable {β σ η : Type} [Host η] [Bus β] {s s₁ s₂ : Hosted β σ η} {level : UInt8}
  {levels levels₁ : List UInt8} {R S : Registers → Registers → Prop}
open Machine (Evolves Shows)

/-- What the delivery of an interrupt does, from the point where the host is asked for the base of
its vector. -/
structure Delivery (level : UInt8) (s s' : Hosted β σ η) : Prop where
  inRange : 1 ≤ level ∧ level ≤ 7
  above : s.machine.regs.status.mask < level
  shows : s.machine.Shows Event.level? s'.machine [level]
  vector : ∃ v later, s.machine.Shows Event.delivery? s'.machine
      (.interrupt (Host.interruptBase s.host) level s.machine.regs.status.mask ::
        .exception ⟨v, s.machine.regs.pc, s.machine.regs.sp⟩ :: later) ∧
    v.toNat = ((Host.interruptBase s.host).toNat + level.toNat) % 256
  raised : ∃ m : Machine β σ, s'.machine = m.deliverFault ∧ m.regs.status.mask = level ∧
    m.regs.pending.interruptCheck = true ∧
    (s.machine.Logged (· = .exceptionHandled (Host.interruptBase s.host + level)) m ∨
      ∃ frame, m.Stacks frame s.machine.regs.status.mask ∧
        frame.vector = Host.interruptBase s.host + level)
  mask : s'.machine.regs.status.mask = level
  requested : s.machine.hooks.Respects Registers.KeepsCheck →
    s'.machine.regs.pending.interruptCheck = true

def Wakes (wake : Registers → Registers) : Prop :=
  ∀ r, ∃ p, wake r = { r with pending := p } ∧ p.interruptCheck = r.pending.interruptCheck

omit [Host η] [Bus β] in
theorem interruptTaken_raises {wake : Registers → Registers} (hwake : Wakes wake)
    (hlevel : level ≤ 7) (m : Machine β σ) :
    (interruptTaken wake level m).regs.status.mask = level ∧
      (interruptTaken wake level m).regs.pending.interruptCheck = true := by
  obtain ⟨p, hregs, hcheck⟩ := hwake { (m.mapRegs fun r => r.setMask level).interruptsChanged.regs
    with stopped := false }
  simp only [interruptTaken, Machine.mapRegs] at hregs ⊢
  rw [hregs]
  exact ⟨Status.and_seven hlevel, hcheck⟩

omit [Host η] in
theorem interruptTaken_stacks {wake : Registers → Registers} (hwake : Wakes wake)
    {m : Machine β σ} {frame : Entry β} {mask : UInt8} (h : m.Stacks frame mask) :
    (interruptTaken wake level m).Stacks frame mask := by
  obtain ⟨p, hregs, -⟩ := hwake { (m.mapRegs fun r => r.setMask level).interruptsChanged.regs
    with stopped := false }
  have hregs' : (interruptTaken wake level m).regs = _ := hregs
  refine ⟨?_, ?_, h.mask⟩
  · rw [hregs']
    exact h.memory
  · rw [hregs']
    exact h.sp

theorem acceptInterrupt_delivery (hH : s.machine.hooks.Respects Registers.LeavesStatus)
    {wake : Registers → Registers} (hwake : Wakes wake) (hlevel : 1 ≤ level ∧ level ≤ 7)
    (hm : s.machine.regs.status.mask < level) :
    let asked := s.ask Host.interruptBase .interruptBase
    Delivery level s (asked.2.map (acceptInterrupt wake asked.1 level)) := by
  intro asked
  have hrange : Machine.isInterruptLevel level = true := by
    simpa [Machine.isInterruptLevel] using hlevel
  let logged := asked.2.machine.log (.interrupt asked.1 level s.machine.regs.status.mask)
  have hlogged : s.machine.Grows logged := ⟨[_, _], rfl⟩
  have hstacks : logged.Logged _ _ ∨ _ := Machine.takeException_stacks (m := logged)
    hH.keepsMask (asked.1 + level)
  have htaken := Machine.takeException_continues logged (asked.1 + level)
  obtain ⟨later, hvector⟩ := acceptInterrupt_delivers wake asked.1 hrange asked.2.machine
  have hshows := acceptInterrupt_shows_level wake asked.1 hrange asked.2.machine
  have haccepted : (asked.2.map (acceptInterrupt wake asked.1 level)).machine =
      (interruptTaken wake level (logged.takeException (asked.1 + level))).deliverFault :=
    acceptInterrupt_eq wake asked.1 hrange asked.2.machine
  -- From here on the exception is known by these facts only.
  generalize logged.takeException (asked.1 + level) = taken at hstacks htaken haccepted
  obtain ⟨hmask, hcheck⟩ := interruptTaken_raises hwake hlevel.2 taken
  have hfault : ∀ {R : Registers → Registers → Prop}, Registers.KeptByException R →
      s.machine.hooks.Respects R → Evolves (fun _ => True) R (interruptTaken wake level taken)
        (interruptTaken wake level taken).deliverFault := fun hK hR =>
    Machine.deliverFault_evolves hK (fun _ _ => trivial) (htaken.respects hR)
  refine ⟨hlevel, hm, ?_, ⟨asked.1 + level, later, ?_, UInt8.toNat_add _ _⟩,
    ⟨interruptTaken wake level taken, haccepted, hmask, hcheck, ?_⟩, ?_, fun hR => ?_⟩
  · have hasked : Shows Event.level? s.machine asked.2.machine [] := ⟨[_], rfl, rfl⟩
    exact hasked.trans hshows
  · have hasked : Shows Event.delivery? s.machine asked.2.machine [] := ⟨[_], rfl, rfl⟩
    exact hasked.trans hvector
  · have hsmall : s.machine.regs.status.mask ≤ 7 := UInt8.le_trans (UInt8.le_of_lt hm) hlevel.2
    refine hstacks.imp (fun hhandled => ?_) ?_
    · exact (Machine.Logged.grows_trans hlogged hhandled).trans_grows ⟨[], rfl⟩
    · rintro ⟨frame, hframe, hv⟩
      have hmask : s.machine.regs.status.mask &&& 7 = s.machine.regs.status.mask :=
        Status.and_seven hsmall
      exact ⟨frame, hmask ▸ interruptTaken_stacks hwake hframe, hv⟩
  · rw [haccepted]
    exact (hfault Registers.kept_sameMask hH.sameMask).regs.trans hmask
  · rw [haccepted]
    exact (hfault Registers.kept_check hR).regs hcheck

/-- The levels of the interrupts that a stretch of a run delivers. In between the registers change
within `R`. -/
inductive Course (R : Registers → Registers → Prop) :
    Hosted β σ η → List UInt8 → Hosted β σ η → Prop
  | quiet {s s' : Hosted β σ η}
    (h : Evolves (fun e => e.level? = none) R s.machine s'.machine) : Course R s [] s'
  | delivery {s s' : Hosted β σ η} {level : UInt8} (h : Delivery level s s') :
    Course R s [level] s'
  | append {s s₁ s₂ : Hosted β σ η} {levels levels₁ : List UInt8} (h : Course R s levels s₁)
    (h₁ : Course R s₁ levels₁ s₂) : Course R s (levels ++ levels₁) s₂

/-- Interrupts of these levels take the mask from one value to the other. -/
structure Rises (mask : UInt8) (levels : List UInt8) (mask' : UInt8) : Prop where
  increasing : levels.Pairwise (· < ·)
  above : ∀ level ∈ levels, mask < level
  atMost : ∀ level ∈ levels, level ≤ mask'
  le : mask ≤ mask'
  inRange : ∀ level ∈ levels, level ≤ 7

theorem Rises.append {mask mask₁ mask₂ : UInt8} (h : Rises mask levels mask₁)
    (h₁ : Rises mask₁ levels₁ mask₂) : Rises mask (levels ++ levels₁) mask₂ where
  increasing := List.pairwise_append.mpr ⟨h.increasing, h₁.increasing, fun lower hl higher hh =>
    UInt8.lt_of_le_of_lt (h.atMost lower hl) (h₁.above higher hh)⟩
  above := List.forall_mem_append.mpr
    ⟨h.above, fun level hl => UInt8.lt_of_le_of_lt h.le (h₁.above level hl)⟩
  atMost := List.forall_mem_append.mpr
    ⟨fun level hl => UInt8.le_trans (h.atMost level hl) h₁.le, h₁.atMost⟩
  le := UInt8.le_trans h.le h₁.le
  inRange := List.forall_mem_append.mpr ⟨h.inRange, h₁.inRange⟩

theorem Rises.length_le {mask mask' : UInt8} (h : Rises mask levels mask') :
    levels.length ≤ 7 - mask.toNat := by
  obtain ⟨hincreasing, habove, -, -, hrange⟩ := h
  induction levels generalizing mask with
  | nil => exact Nat.zero_le _
  | cons level levels ih =>
    obtain ⟨hfirst, hrest⟩ := List.pairwise_cons.mp hincreasing
    have hlevels := ih hrest hfirst fun l hl => hrange l (List.mem_cons_of_mem _ hl)
    have hlow : mask.toNat < level.toNat :=
      UInt8.lt_iff_toNat_lt.mp (habove level List.mem_cons_self)
    have hhigh : level.toNat ≤ 7 := UInt8.le_iff_toNat_le.mp (hrange level List.mem_cons_self)
    rw [List.length_cons]
    omega

namespace Course

theorem mono (h : Course R s levels s₁) (hRS : ∀ a b, R a b → S a b) : Course S s levels s₁ := by
  induction h with
  | quiet h => exact .quiet (h.with_regs (hRS _ _ h.regs))
  | delivery h => exact .delivery h
  | append _ _ ih ih₁ => exact ih.append ih₁

theorem shows (h : Course R s levels s₁) : Shows Event.level? s.machine s₁.machine levels := by
  induction h with
  | quiet h => exact .of_evolves h
  | delivery h => exact h.shows
  | append _ _ ih ih₁ => exact ih.trans ih₁

theorem rises (h : Course Registers.SameMask s levels s₁) :
    Rises s.machine.regs.status.mask levels s₁.machine.regs.status.mask := by
  induction h with
  | quiet h => exact ⟨.nil, by simp, by simp, UInt8.le_of_eq h.regs.symm, by simp⟩
  | delivery h =>
    rw [h.mask]
    exact ⟨List.pairwise_singleton _ _, by simpa using h.above, by simp, UInt8.le_of_lt h.above,
      by simpa using h.inRange.2⟩
  | append _ _ ih ih₁ => exact ih.append ih₁

end Course

def OnlyRaises (s s' : Hosted β σ η) : Prop := ∃ levels, Course Registers.SameMask s levels s'

theorem OnlyRaises.trans (h : OnlyRaises s s₁) (h₁ : OnlyRaises s₁ s₂) : OnlyRaises s s₂ := by
  obtain ⟨levels, h⟩ := h
  obtain ⟨levels₁, h₁⟩ := h₁
  exact ⟨levels ++ levels₁, h.append h₁⟩

theorem OnlyRaises.of_evolves
    (h : Evolves (fun e => e.level? = none) Registers.SameMask s.machine s₁.machine) :
    OnlyRaises s s₁ := ⟨[], .quiet h⟩

theorem answerInterrupt_onlyRaises (hH : s.machine.hooks.Respects Registers.LeavesStatus)
    (use : Pending → Pending) {wake : Registers → Registers} (hwake : Wakes wake) :
    OnlyRaises s (s.answerInterrupt use wake) := by
  have hK := Registers.kept_sameMask.toKeptByException
  have hlevel := pendingLevel_talks (Event.of_talk fun _ => Event.level?_of_ofHost) s
  have hread : OnlyRaises s (s.pendingLevel.2.map fun m => m.mapPending use) :=
    .of_evolves ((hlevel.1.evolves hK).trans hK (.mapPending _ rfl))
  by_cases habove : s.AboveMask
  · obtain ⟨level, hl, hm⟩ := habove
    have hrange : 1 ≤ level ∧ level ≤ 7 := by
      simpa [Machine.isInterruptLevel] using isInterruptLevel_of_pending hl
    rw [answerInterrupt_of_above hl hm]
    exact hread.trans ⟨[level], .delivery (acceptInterrupt_delivery
      (s := s.pendingLevel.2.map fun m => m.mapPending use) hH hwake hrange hm)⟩
  · rw [answerInterrupt_of_not_above habove]
    exact hread

theorem dueInterrupt_onlyRaises (hH : s.machine.hooks.Respects Registers.LeavesStatus) :
    OnlyRaises s s.dueInterrupt := by
  rw [dueInterrupt_eq]
  split
  · exact answerInterrupt_onlyRaises hH _ fun _ => ⟨_, rfl, rfl⟩
  · exact .of_evolves (.refl Registers.kept_sameMask.toKeptByException _)

theorem idleInterrupt_onlyRaises (hH : s.machine.hooks.Respects Registers.LeavesStatus) :
    OnlyRaises s s.idleInterrupt := by
  rw [idleInterrupt_eq]
  split
  · exact answerInterrupt_onlyRaises hH _ fun _ => ⟨_, rfl, rfl⟩
  · exact .of_evolves (.refl Registers.kept_sameMask.toKeptByException _)

theorem checkForBreak_onlyRaises (s : Hosted β σ η) : OnlyRaises s s.checkForBreak.2 :=
  .of_evolves (checkForBreak_evolves Registers.kept_sameMask.toKeptByException
    (Event.of_talk fun _ => Event.level?_of_ofHost) (fun _ => rfl) s)

theorem finishPass_onlyRaises (hH : s.machine.hooks.Respects Registers.LeavesStatus) :
    OnlyRaises s s.finishPass.2 := by
  have hK := Registers.kept_sameMask
  have harmed : Evolves (fun e => e.level? = none) Registers.SameMask s.machine
      (s.map Machine.armTrace).machine :=
    Machine.armTrace_evolves hK.toKeptByException (fun _ => rfl) fun _ => rfl
  have hdue := dueInterrupt_onlyRaises (s := s.map Machine.armTrace) (harmed.respects hH)
  have hpromoted : Evolves (fun e => e.level? = none) Registers.SameMask
      (s.map Machine.armTrace).dueInterrupt.machine s.interrupted.machine :=
    Machine.promoteInterrupt_evolves hK.toKeptByException (fun _ => rfl) _
  have hlate := hpromoted.trans hK.toKeptByException
    (lateEndOfCycle_evolves hK (Event.of_talk fun _ => Event.level?_of_ofHost) s.interrupted)
  have hpass := ((OnlyRaises.of_evolves harmed).trans hdue).trans (.of_evolves hlate)
  rw [finishPass_eq]
  split
  · exact hpass
  · exact hpass.trans (checkForBreak_onlyRaises _)

end Hosted

namespace Machine
variable {β σ : Type} [Bus β] {m n : Machine β σ}

theorem outcome_sameMask (hH : m.hooks.Respects Registers.SameMask)
    (h : ControlInstructions.Outcome m none n) : Registers.SameMask m.regs n.regs := by
  have hmask : ∀ {n : Machine β σ}, Ordinary m n → Registers.SameMask m.regs n.regs :=
    fun hn => congrArg Status.mask hn.regs.status
  cases h with
  | ordinary hn => exact hmask hn
  | exception hn v =>
    have htaken := takeException_evolves (P := fun _ => True) Registers.kept_sameMask
      (fun _ _ => trivial) (hn.hooks ▸ hH) v
    exact htaken.regs.trans (hmask hn)

theorem executeOpcode_sameMask (hH : m.hooks.Respects Registers.SameMask)
    (hload : m.loadedStatus = none) :
    Registers.SameMask m.regs (m.executeOpcode ControlInstructions.table).regs := by
  have hK := Registers.kept_sameMask.toKeptByException
  have hfetch := fetchOpcode_ordinary m
  have hH₁ : m.fetchOpcode.2.takeFault.2.hooks.Respects Registers.SameMask := hfetch.hooks ▸ hH
  have hfetched : Registers.SameMask m.regs m.fetchOpcode.2.takeFault.2.regs :=
    congrArg Status.mask hfetch.regs.status
  rw [loadedStatus] at hload
  rw [executeOpcode_eq]
  cases hfault : m.fetchOpcode.2.takeFault.1 with
  | some f =>
    have hraised := raiseFault_evolves (P := fun _ => True)
      (m := m.fetchOpcode.2.takeFault.2.setPc (m.fetchOpcode.2.takeFault.2.regs.pc - 2)) hK
      (fun _ _ => trivial) hH₁ f
    exact hraised.regs.trans hfetched
  | none =>
    rw [hfault] at hload
    dsimp only at hload
    have houtcome := ControlInstructions.dispatch_outcome m.fetchOpcode.1
      m.fetchOpcode.2.takeFault.2
    rw [hload] at houtcome
    have hdispatched := dispatched_evolves (P := fun _ => True) Registers.kept_true
      (fun _ _ => trivial) (fun _ _ => trivial) (Registry.respects_true _) m.fetchOpcode.1
      (m := m.fetchOpcode.2.takeFault.2) fun _ _ _ => trivial
    have hdelivered := deliverFault_evolves (P := fun _ => True) hK (fun _ _ => trivial)
      (hdispatched.respects hH₁)
    exact hdelivered.regs.trans ((outcome_sameMask hH₁ houtcome).trans hfetched)

end Machine

namespace Execution
variable {β σ η : Type} [Host η] [Bus β] {e : Execution β σ η}
open Hosted (Course Delivery OnlyRaises)
open Machine (Evolves Shows)

def LoadsStatus (e : Execution β σ η) : Prop :=
  e.phase = .opcode ∧ ∃ sr, e.ready.2.machine.loadedStatus = some sr

theorem opcodeStep_quiet (e : Execution β σ η) :
    Evolves (fun e => e.level? = none) (fun _ _ => True) e.state.machine
      (e.opcodeStep ControlInstructions.table).state.machine :=
  (opcodeStep_uninterrupted e).mono fun _ => Event.level?_of_uninterrupted

theorem opcodeStep_onlyRaises (hH : e.state.machine.hooks.Respects Registers.LeavesStatus)
    (hload : e.ready.2.machine.loadedStatus = none) :
    OnlyRaises e.state (e.opcodeStep ControlInstructions.table).state := by
  have hK := Registers.kept_sameMask
  have hready := ready_evolves (P := fun _ => True) hK.toKeptByException (fun _ _ => trivial) e
  have hdone := Machine.executeOpcode_sameMask (hready.respects hH.sameMask) hload
  have hcycle := Hosted.cycle_evolves (P := fun _ => True) hK (fun _ _ => trivial)
    (e.ready.2.map (Machine.executeOpcode ControlInstructions.table)) false
  exact .of_evolves ((opcodeStep_quiet e).with_regs
    (hcycle.regs.trans (hdone.trans hready.regs)))

theorem specialStep_onlyRaises (hH : e.state.machine.hooks.Respects Registers.LeavesStatus) :
    OnlyRaises e.state e.specialStep.state := by
  have hK := Registers.kept_sameMask.toKeptByException
  have hP : ∀ e : Event, e.ofHost → e.level? = none := fun _ => Event.level?_of_ofHost
  have hnested : OnlyRaises e.state e.state.isNested.2 := .of_evolves (.log hK _ rfl)
  have hprobed : OnlyRaises e.state e.probed.2 :=
    .of_evolves ((probed_talks (Event.of_talk hP) e).1.evolves hK)
  have htraced := traced_evolves hK (fun _ => Event.level?_of_ofPass) hH.sameMask
  have hidle : OnlyRaises e.traced e.traced.enterIdle.2 :=
    .of_evolves ((Hosted.enterIdle_talks (Event.of_aside hP) e.traced).1.evolves hK)
  rw [specialStep_eq]
  split
  · exact hnested.trans (Hosted.checkForBreak_onlyRaises _)
  split
  · exact hprobed
  split
  · exact (OnlyRaises.of_evolves htraced).trans hidle
  · exact (OnlyRaises.of_evolves htraced).trans
      (Hosted.finishPass_onlyRaises (htraced.respects hH))

theorem idleStep_onlyRaises (hH : e.state.machine.hooks.Respects Registers.LeavesStatus)
    (watch : Watchdog) : OnlyRaises e.state (e.idleStep watch).state := by
  have hticked := ticked_evolves Registers.kept_sameMask (fun _ => Event.level?_of_ofHost) rfl
    watch e
  have hwoken := ((OnlyRaises.of_evolves hticked).trans
    (Hosted.idleInterrupt_onlyRaises (hticked.respects hH))).trans
    (Hosted.checkForBreak_onlyRaises _)
  have hhooks := (woken_continues watch e).respects hH
  rw [idleStep_eq]
  dsimp only
  split
  · exact hwoken.trans (.of_evolves (.mapPending _ rfl))
  split
  · exact hwoken
  · exact hwoken.trans (Hosted.finishPass_onlyRaises hhooks)

theorem Next.onlyRaises {e' : Execution β σ η} (h : Next e e')
    (hH : e.state.machine.hooks.Respects Registers.LeavesStatus) (hload : ¬ e.LoadsStatus) :
    OnlyRaises e.state e'.state := by
  have hK := Registers.kept_sameMask.toKeptByException
  cases h with
  | call hreturned hs =>
    exact .of_evolves ((hs.evolves hK).trans hK
      (start_evolves hK (fun _ => Event.level?_of_ofHost) _))
  | step hgoes =>
    simp only [Execution.step]
    cases hphase : e.phase with
    | opcode =>
      refine opcodeStep_onlyRaises hH (Option.eq_none_iff_forall_ne_some.mpr fun sr hsr => ?_)
      exact hload ⟨hphase, sr, hsr⟩
    | special => exact specialStep_onlyRaises hH
    | idle watch => exact idleStep_onlyRaises hH watch
    | returned => exact absurd hphase hgoes

theorem Next.course {e' : Execution β σ η} (h : Next e e')
    (hH : e.state.machine.hooks.Respects Registers.LeavesStatus) :
    ∃ levels, Course (fun _ _ => True) e.state levels e'.state := by
  by_cases hload : e.LoadsStatus
  · refine ⟨[], .quiet ?_⟩
    rw [h.eq_step (by simp [hload.1]), step_opcode _ hload.1]
    exact opcodeStep_quiet e
  · obtain ⟨levels, hcourse⟩ := h.onlyRaises hH hload
    exact ⟨levels, hcourse.mono fun _ _ _ => trivial⟩

/-- Every interrupt of a run is a delivery above the mask that leaves the mask at its level. Where
no status word is loaded, the levels increase, and so there are no more than seven of them. -/
theorem interrupts_nest {e : Nat → Execution β σ η} (run : IsRun e)
    (hooks : (e 0).state.machine.hooks.Respects Registers.LeavesStatus) {i j : Nat} (hij : i ≤ j) :
    ∃ levels, Shows Event.level? (e i).state.machine (e j).state.machine levels ∧
      Course (fun _ _ => True) (e i).state levels (e j).state ∧
      ((∀ k, i ≤ k → k < j → ¬ (e k).LoadsStatus) →
        levels.Pairwise (· < ·) ∧ levels.length ≤ 7) := by
  have hooks' : ∀ k, (e k).state.machine.hooks.Respects Registers.LeavesStatus := fun k =>
    run.hooks k ▸ hooks
  have hK := Registers.kept_true.toKeptByException
  have hcourse : ∃ levels, Course (fun _ _ => True) (e i).state levels (e j).state := by
    induction hij with
    | refl => exact ⟨[], .quiet (.refl hK _)⟩
    | @step j _ ih =>
      obtain ⟨levels, hbefore⟩ := ih
      obtain ⟨levels₁, hnext⟩ := (run.next j).course (hooks' j)
      exact ⟨levels ++ levels₁, hbefore.append hnext⟩
  have hraises : (∀ k, i ≤ k → k < j → ¬ (e k).LoadsStatus) →
      OnlyRaises (e i).state (e j).state := by
    clear hcourse
    induction hij with
    | refl => exact fun _ => .of_evolves (.refl Registers.kept_sameMask.toKeptByException _)
    | @step j hij ih =>
      intro hloads
      exact (ih fun k hk hkj => hloads k hk (Nat.lt_succ_of_lt hkj)).trans
        ((run.next j).onlyRaises (hooks' j) (hloads j hij (Nat.lt_succ_self j)))
  obtain ⟨levels, hcourse⟩ := hcourse
  -- The journal shows the levels, so both courses have the same.
  refine ⟨levels, hcourse.shows, hcourse, fun hloads => ?_⟩
  obtain ⟨levels', hcourse'⟩ := hraises hloads
  obtain rfl : levels' = levels := hcourse'.shows.unique hcourse.shows
  have hrises := hcourse'.rises
  have hlength := hrises.length_le
  exact ⟨hrises.increasing, by omega⟩

theorem interrupts_nest_announcing :
    (calls announcing 0).state.machine.hooks.Respects Registers.LeavesStatus ∧
      (∀ k, 0 ≤ k → k < 4 → ¬ (calls announcing k).LoadsStatus) ∧
      Course (fun _ _ => True) (calls announcing 0).state [6] (calls announcing 4).state ∧
      [(6 : UInt8)].Pairwise (· < ·) ∧ [(6 : UInt8)].length ≤ 7 := by
  have hooks : (calls announcing 0).state.machine.hooks.Respects Registers.LeavesStatus :=
    fun _ _ he => absurd he List.not_mem_nil
  have hnone : ∀ k < 4, (calls announcing k).ready.2.machine.loadedStatus = none := by
    decide +kernel
  have hloads : ∀ k, 0 ≤ k → k < 4 → ¬ (calls announcing k).LoadsStatus := by
    rintro k - hk ⟨-, sr, hsr⟩
    rw [hnone k hk] at hsr
    cases hsr
  have hjournal : let before := (calls announcing 0).state.machine.journal
      let after := (calls announcing 4).state.machine.journal
      (after.take (after.length - before.length)).reverse.filterMap Event.level? = [6] := by
    decide +kernel
  obtain ⟨levels, hshows, hcourse, hnest⟩ :=
    interrupts_nest (calls_isRun announcing) hooks (Nat.zero_le 4)
  obtain rfl : levels = [6] := hshows.unique
    (hjournal ▸ .of_take Event.level? ((calls_isRun announcing).grows (Nat.zero_le 4)))
  exact ⟨hooks, hloads, hcourse, hnest hloads⟩

end Execution
end Mc68000
