import Mc68000.Machine.Control
import Mc68000.Proofs.NestedCall
import Mc68000.Proofs.StopRecords

/-!
# When slow housekeeping comes

The ticks of housekeeping are counted, from the making or the last reset of a processor on and
without those of nested calls. The counter wraps, but the interval of slow housekeeping is a power
of two that divides its range. So the interval is kept however many ticks there are.
-/

namespace Mc68000

namespace Settings

theorem isLowMask_iff (mask : UInt32) :
    isLowMask mask = true ↔ (mask.toNat + 1).isPowerOfTwo := by
  have hword : isLowMask mask = true ↔ mask.toNat &&& (mask.toNat + 1) % 2 ^ 32 = 0 := by
    rw [isLowMask, beq_iff_eq, ← UInt32.toNat_inj, UInt32.toNat_and, UInt32.toNat_add]
    rfl
  rw [hword]
  by_cases hlast : mask.toNat + 1 = 2 ^ 32
  · rw [hlast, Nat.mod_self, Nat.and_zero]
    exact ⟨fun _ => ⟨32, rfl⟩, fun _ => rfl⟩
  · have hlt : mask.toNat + 1 < 2 ^ 32 := by
      have := mask.toNat_lt
      omega
    rw [Nat.mod_eq_of_lt hlt, Nat.and_comm]
    exact Nat.and_sub_one_eq_zero_iff_isPowerOfTwo (Nat.succ_ne_zero mask.toNat)

structure Acceptable (s : Settings) : Prop where
  slowCycleMask : (s.slowCycleMask.toNat + 1).isPowerOfTwo
  registerHistory : s.registerHistory.toNat ≤ 65536
  exceptionHistory : s.exceptionHistory.toNat ≤ 65536

def Blamed (s : Settings) : SettingsError → Prop
  | .slowCycleMask mask => mask = s.slowCycleMask ∧ ¬ (mask.toNat + 1).isPowerOfTwo
  | .historyCapacity capacity =>
    (capacity = s.registerHistory ∨ capacity = s.exceptionHistory) ∧ 65536 < capacity.toNat

theorem validate_cases (s : Settings) :
    (s.Acceptable ∧ s.validate = .ok ()) ∨
      ¬ s.Acceptable ∧ ∃ e, s.validate = .error e ∧ s.Blamed e := by
  have hhistory : ∀ capacity : UInt64, maxHistory < capacity ↔ 65536 < capacity.toNat :=
    fun _ => UInt64.lt_iff_toNat_lt
  have hmask := isLowMask_iff s.slowCycleMask
  -- The cases are the checks in their order; the first that fails is the one reported.
  simp only [validate, hhistory, Bool.not_eq_true']
  split
  · rename_i hlow
    rw [hlow, Bool.false_eq_true, false_iff] at hmask
    exact .inr ⟨fun h => hmask h.slowCycleMask, _, rfl, rfl, hmask⟩
  · rename_i hlow
    rw [Bool.not_eq_false] at hlow
    split
    · rename_i hlong
      exact .inr ⟨fun h => absurd h.registerHistory (by omega), _, rfl, .inl rfl, hlong⟩
    split
    · rename_i hlong
      exact .inr ⟨fun h => absurd h.exceptionHistory (by omega), _, rfl, .inr rfl, hlong⟩
    · exact .inl ⟨⟨hmask.mp hlow, by omega, by omega⟩, rfl⟩

theorem and_mask_eq_zero_iff {mask : UInt32} (h : (mask.toNat + 1).isPowerOfTwo) (n : Nat) :
    UInt32.ofNat n &&& mask = 0 ↔ mask.toNat + 1 ∣ n := by
  obtain ⟨k, hk⟩ := h
  have hle : k ≤ 32 := by
    have hmask := mask.toNat_lt
    have hpow : 2 ^ k ≤ 2 ^ 32 := by omega
    exact (Nat.pow_le_pow_iff_right (by decide)).mp hpow
  have hmask : mask.toNat = 2 ^ k - 1 := by omega
  -- The interval divides the range of the counter, so wrapping leaves the remainder alone.
  rw [← UInt32.toNat_inj, UInt32.toNat_and, UInt32.toNat_ofNat', hmask,
    Nat.and_two_pow_sub_one_eq_mod, Nat.mod_mod_of_dvd _ (Nat.pow_dvd_pow 2 hle), ← hmask, hk]
  exact Nat.dvd_iff_mod_eq_zero.symm

end Settings

structure Tick where
  sleeping : Bool
  changed : Bool
  suspend : Bool

namespace Tick

def isSlow (t : Tick) (mask : UInt32) (n : Nat) : Bool :=
  t.sleeping || decide (mask.toNat + 1 ∣ n)

def calls (t : Tick) (mask : UInt32) (n : Nat) : List HostCall :=
  [.cycle t.sleeping, .takeInterruptChange t.changed] ++
    if t.isSlow mask n then [.cycleSlowly t.sleeping, .suspendRequested t.suspend] else []

/-- What ticks ask of the host, when `n` were counted before the first of them. -/
def schedule (mask : UInt32) : Nat → List Tick → List HostCall
  | _, [] => []
  | n, t :: ts => t.calls mask (n + 1) ++ schedule mask (n + 1) ts

theorem schedule_append (mask : UInt32) (n : Nat) (ts us : List Tick) :
    schedule mask n (ts ++ us) = schedule mask n ts ++ schedule mask (n + ts.length) us := by
  induction ts generalizing n with
  | nil => rfl
  | cons t ts ih =>
    rw [List.cons_append, schedule, ih, schedule, List.append_assoc, List.length_cons,
      Nat.add_right_comm, Nat.add_assoc n]

end Tick

namespace Hosted
variable {β σ η : Type} [Host η] {s : Hosted β σ η} {n : Nat}

def polled (s : Hosted β σ η) (sleeping : Bool) : Bool × η :=
  Host.takeInterruptChange (Host.cycle s.host sleeping)

def nextTick (s : Hosted β σ η) (sleeping : Bool) : Tick where
  sleeping := sleeping
  changed := (s.polled sleeping).1
  suspend := Host.suspendRequested (Host.cycleSlowly (s.polled sleeping).2 sleeping)

omit [Host η] in
theorem interruptsChanged_if (t : Hosted β σ η) (changed : Bool) :
    (if changed then t.map Machine.interruptsChanged else t) =
      t.map fun m => m.mapPending fun p =>
        { p with interruptCheck := p.interruptCheck || changed } := by
  cases changed with
  | false =>
    simp only [Bool.or_false]
    rfl
  | true =>
    simp only [Bool.or_true]
    rfl

omit [Host η] in
theorem checkAfterCycle_if (t : Hosted β σ η) (suspend : Bool) :
    (if suspend then t.map Machine.checkAfterCycle else t) =
      t.map fun m => m.mapPending fun p => { p with endOfCycle := p.endOfCycle || suspend } := by
  cases suspend with
  | false =>
    simp only [Bool.or_false]
    rfl
  | true =>
    simp only [Bool.or_true]
    rfl

def afterTick (m : Machine β σ) (t : Tick) (n : Nat) : Machine β σ :=
  let mask := m.settings.slowCycleMask
  { m with
    slowCounter := UInt32.ofNat n
    regs := m.regs.mapPending fun p =>
      { p with
        interruptCheck := p.interruptCheck || t.changed
        endOfCycle := p.endOfCycle || (t.isSlow mask n && t.suspend) }
    journal := ((t.calls mask n).map Event.host).reverse ++
      .host (.isNested false) :: m.journal }

theorem cycle_of_not_nested (hnested : Host.isNested s.host = false)
    (hmask : (s.machine.settings.slowCycleMask.toNat + 1).isPowerOfTwo)
    (hcounter : s.machine.slowCounter = UInt32.ofNat n) (sleeping : Bool) :
    s.cycle sleeping =
      let t := s.nextTick sleeping
      let host := (s.polled sleeping).2
      ⟨afterTick s.machine t (n + 1),
        if t.isSlow s.machine.settings.slowCycleMask (n + 1) then Host.cycleSlowly host sleeping
        else host⟩ := by
  have hasked : s.isNested.1 = false := hnested
  have hnext : s.machine.slowCounter + 1 = UInt32.ofNat (n + 1) := by
    rw [hcounter, UInt32.ofNat_add]
    rfl
  have hslow : (sleeping ||
      s.machine.slowCounter + 1 &&& s.machine.settings.slowCycleMask == 0) =
        (s.nextTick sleeping).isSlow s.machine.settings.slowCycleMask (n + 1) := by
    have hzero : (UInt32.ofNat (n + 1) &&& s.machine.settings.slowCycleMask == 0) =
        decide (s.machine.settings.slowCycleMask.toNat + 1 ∣ n + 1) := by
      rw [Bool.beq_eq_decide_eq]
      exact decide_eq_decide.mpr (Settings.and_mask_eq_zero_iff hmask (n + 1))
    rw [hnext, hzero]
    rfl
  let ticked := s.isNested.2.request (fun h => Host.cycle h sleeping) (.cycle sleeping)
  have hpolled : ticked.pollInterrupts.countTick =
      ⟨{ s.machine with
          slowCounter := UInt32.ofNat (n + 1)
          regs := s.machine.regs.mapPending fun p =>
            { p with interruptCheck := p.interruptCheck || (s.polled sleeping).1 }
          journal := .host (.takeInterruptChange (s.polled sleeping).1) ::
            .host (.cycle sleeping) :: .host (.isNested false) :: s.machine.journal },
        (s.polled sleeping).2⟩ := by
    rw [← hnext, ← hnested]
    exact congrArg countTick (interruptsChanged_if _ _)
  have hcycle : s.cycle sleeping =
      if (s.nextTick sleeping).isSlow s.machine.settings.slowCycleMask (n + 1) then
        ticked.pollInterrupts.countTick.cycleSlowly sleeping
      else ticked.pollInterrupts.countTick := by
    rw [cycle_eq, if_neg (by simp [hasked]), ← hslow]
    dsimp only
    rw [hpolled, ← hnext]
  rw [hcycle, hpolled]
  dsimp only [afterTick, Tick.calls]
  cases (s.nextTick sleeping).isSlow s.machine.settings.slowCycleMask (n + 1) with
  | false =>
    simp only [Bool.false_and, Bool.or_false]
    rfl
  | true =>
    rw [if_pos rfl, cycleSlowly_eq]
    exact (checkAfterCycle_if _ _).trans rfl

end Hosted

def Event.housekeeping? : Event → Option HostCall
  | .host call => if (Event.host call).ofTick then some call else none
  | _ => none

namespace Event
variable {e : Event}

theorem housekeeping_of_not_ofTick (h : e.ofTick = false) : e.housekeeping? = none := by
  cases e with
  | host call => exact if_neg (by rw [h]; exact Bool.false_ne_true)
  | _ => rfl

theorem housekeeping_of_ofAside (h : e.ofAside) : e.housekeeping? = none := by
  obtain ⟨-, hbetween⟩ := Bool.and_eq_true_iff.mp h
  exact housekeeping_of_not_ofTick (by simpa using hbetween)

theorem housekeeping_of_ofOpcode (h : e.ofOpcode) : e.housekeeping? = none := by
  cases e with
  | host call => cases h
  | _ => rfl

theorem housekeeping_of_ofFault (h : e.ofFault) : e.housekeeping? = none :=
  housekeeping_of_ofOpcode (ofOpcode_of_ofFault h)

theorem housekeeping_of_ofException (h : e.ofException) : e.housekeeping? = none :=
  housekeeping_of_ofFault (ofFault_of_ofException h)

end Event

namespace Machine
variable {β σ : Type} {R : Registers → Registers → Prop} {m m₁ m₂ : Machine β σ}

structure Unticked (m m' : Machine β σ) : Prop where
  settings : m'.settings = m.settings
  slowCounter : m'.slowCounter = m.slowCounter
  calls : Shows Event.housekeeping? m m' []

namespace Unticked

theorem trans (h : Unticked m m₁) (h₁ : Unticked m₁ m₂) : Unticked m m₂ :=
  ⟨h₁.settings.trans h.settings, h₁.slowCounter.trans h.slowCounter, h.calls.trans h₁.calls⟩

theorem of_evolves (h : Evolves (fun e => e.housekeeping? = none) R m m₁)
    (hcounter : m₁.slowCounter = m.slowCounter) : Unticked m m₁ :=
  ⟨h.settings, hcounter, .of_evolves h⟩

theorem refl (m : Machine β σ) : Unticked m m := ⟨rfl, rfl, [], rfl, rfl⟩

theorem log (m : Machine β σ) {e : Event} (he : e.housekeeping? = none) :
    Unticked m (m.log e) :=
  .of_evolves (R := fun _ _ => True) (.log Registers.kept_true.toKeptByException m he) rfl

theorem mapRegs (m : Machine β σ) (f : Registers → Registers) : Unticked m (m.mapRegs f) :=
  ⟨rfl, rfl, [], rfl, rfl⟩

theorem mapPending (m : Machine β σ) (f : Pending → Pending) : Unticked m (m.mapPending f) :=
  mapRegs m _

end Unticked

theorem recordRegisters_unticked (m : Machine β σ) : Unticked m m.recordRegisters := by
  simp only [recordRegisters]
  split
  · exact ⟨rfl, rfl, [], rfl, rfl⟩
  · exact .refl m

theorem armTrace_unticked (m : Machine β σ) : Unticked m m.armTrace := by
  simp only [armTrace]
  split
  · exact ⟨rfl, rfl, [_], rfl, rfl⟩
  · exact .refl m

theorem promoteInterrupt_unticked (m : Machine β σ) : Unticked m m.promoteInterrupt := by
  simp only [promoteInterrupt]
  split
  · exact .mapPending m _
  · exact .refl m

variable [Bus β]

theorem executeOpcode_unticked (m : Machine β σ) :
    Unticked m (m.executeOpcode ControlInstructions.table) := by
  have hgoes := executeOpcode_evolves (P := fun e => e.housekeeping? = none) (m := m)
    Registers.kept_true (fun _ => Event.housekeeping_of_ofOpcode) (Registry.respects_true _)
    fun _ _ => trivial
  exact .of_evolves hgoes (slowCounter_executeOpcode m)

theorem takeException_unticked (m : Machine β σ) (v : ExceptionVector) :
    Unticked m (m.takeException v) := by
  have hgoes := takeException_evolves (P := fun e => e.housekeeping? = none) (m := m)
    Registers.kept_true.toKeptByException (fun _ => Event.housekeeping_of_ofException)
    (Registry.respects_true _) v
  exact .of_evolves hgoes (SameCounts.kept.takeException m v).slowCounter

theorem deliverFault_unticked (m : Machine β σ) : Unticked m m.deliverFault := by
  have hgoes := deliverFault_evolves (P := fun e => e.housekeeping? = none) (m := m)
    Registers.kept_true.toKeptByException (fun _ => Event.housekeeping_of_ofFault)
    (Registry.respects_true _)
  exact .of_evolves hgoes (SameCounts.kept.deliverFault m).slowCounter

theorem traceIfDue_unticked (m : Machine β σ) : Unticked m m.traceIfDue := by
  simp only [traceIfDue]
  split
  · have hlog : Unticked m (m.log .trace) := .log m rfl
    exact (hlog.trans (takeException_unticked _ _)).trans (deliverFault_unticked _)
  · exact .refl m

theorem raiseFault_unticked (m : Machine β σ) (f : Fault) : Unticked m (m.raiseFault f) := by
  have hgoes := raiseFault_evolves (P := fun e => e.housekeeping? = none) (m := m)
    Registers.kept_true.toKeptByException (fun _ => Event.housekeeping_of_ofFault)
    (Registry.respects_true _) f
  exact .of_evolves hgoes (SameCounts.kept.raiseFault m f).slowCounter

theorem takeInterrupt_unticked (m : Machine β σ) (base level : UInt8) :
    Unticked m (m.takeInterrupt base level) := by
  simp only [takeInterrupt]
  split
  · have hlog : Unticked m (m.log (.interrupt base level m.regs.status.mask)) := .log m rfl
    have hraised : ∀ n : Machine β σ,
        Unticked n (n.mapRegs fun r => r.setMask level).interruptsChanged :=
      fun _ => ⟨rfl, rfl, [], rfl, rfl⟩
    exact (hlog.trans (takeException_unticked _ _)).trans (hraised _)
  · exact .log m rfl

end Machine

namespace Hosted
variable {β σ η : Type} [Host η]
open Machine (Unticked)

theorem Talks.unticked {s s' : Hosted β σ η} (h : Talks (fun e => e.ofAside) s s') :
    Unticked s.machine s'.machine := by
  have hgoes := (h.1.evolves Registers.kept_true.toKeptByException).mono
    fun _ => Event.housekeeping_of_ofAside
  obtain ⟨es, hm, -⟩ := h.1
  exact .of_evolves hgoes (by rw [hm])

theorem lateEndOfCycle_unticked (s : Hosted β σ η) :
    Unticked s.machine s.lateEndOfCycle.2.machine := by
  simp only [lateEndOfCycle]
  split
  · exact (Unticked.mapPending s.machine _).trans (.log _ rfl)
  · exact .refl _

theorem checkForBreak_unticked (s : Hosted β σ η) :
    Unticked s.machine s.checkForBreak.2.machine := by
  rw [checkForBreak_eq]
  split
  · exact .mapPending s.machine _
  · exact .log _ rfl

variable [Bus β]

theorem answerInterrupt_unticked (s : Hosted β σ η) (use : Pending → Pending)
    (wake : Registers → Registers) :
    Unticked s.machine (s.answerInterrupt use wake).machine := by
  have hlevel : Unticked s.machine s.pendingLevel.2.machine := .log _ rfl
  have hused : Unticked s.machine (s.pendingLevel.2.map fun m => m.mapPending use).machine :=
    hlevel.trans (.mapPending _ use)
  by_cases habove : s.AboveMask
  · obtain ⟨level, hl, hm⟩ := habove
    have hasked : Unticked s.machine (s.askBase use).2.machine := hused.trans (.log _ rfl)
    rw [answerInterrupt_of_above hl hm]
    exact ((hasked.trans (Machine.takeInterrupt_unticked _ _ level)).trans (.mapRegs _ _)).trans
      (Machine.deliverFault_unticked _)
  · rw [answerInterrupt_of_not_above habove]
    exact hused

theorem dueInterrupt_unticked (s : Hosted β σ η) :
    Unticked s.machine s.dueInterrupt.machine := by
  rw [dueInterrupt_eq]
  split
  · exact answerInterrupt_unticked s _ _
  · exact .refl _

theorem idleInterrupt_unticked (s : Hosted β σ η) :
    Unticked s.machine s.idleInterrupt.machine := by
  rw [idleInterrupt_eq]
  split
  · exact answerInterrupt_unticked s _ _
  · exact .refl _

theorem finishPass_unticked (s : Hosted β σ η) :
    Unticked s.machine s.finishPass.2.machine := by
  have hinterrupted : Unticked s.machine s.interrupted.machine :=
    ((Machine.armTrace_unticked _).trans (dueInterrupt_unticked (s.map Machine.armTrace))).trans
      (Machine.promoteInterrupt_unticked _)
  have hlate := hinterrupted.trans (lateEndOfCycle_unticked _)
  rw [finishPass_eq]
  split
  · exact hlate
  · exact hlate.trans (checkForBreak_unticked _)

end Hosted

namespace Machine
variable {β σ : Type} [Bus β] {t : Settings} {n : Nat} {m m₁ : Machine β σ}

/-- With these settings, so many ticks were counted since the machine was made or last reset,
whoever was the host. Whatever else leaves the settings and the counter alone may come in between. -/
inductive Since (t : Settings) : Nat → Machine β σ → Prop
  | made (bus : β) (observers : σ) {m : Machine β σ}
    (hm : ofSettings? t bus observers = .ok m) : Since t 0 m
  | reset {n : Nat} {m : Machine β σ} (h : Since t n m) (hardware : Bool) :
    Since t 0 (m.reset hardware)
  | nested {n : Nat} {η : Type} [Host η] {s : Hosted β σ η} (h : Since t n s.machine)
    (hnested : Host.isNested s.host = true) (sleeping : Bool) :
    Since t n (s.cycle sleeping).machine
  | counted {n : Nat} {η : Type} [Host η] {s : Hosted β σ η} (h : Since t n s.machine)
    (hnested : Host.isNested s.host = false) (sleeping : Bool) :
    Since t (n + 1) (s.cycle sleeping).machine
  | otherwise {n : Nat} {m m' : Machine β σ} (h : Since t n m)
    (hsettings : m'.settings = m.settings) (hcounter : m'.slowCounter = m.slowCounter) :
    Since t n m'

theorem reset_counts (m : Machine β σ) (hardware : Bool) :
    (m.reset hardware).settings = m.settings ∧ (m.reset hardware).slowCounter = 0 := by
  have hdelivered : ∀ n : Machine β σ, n.settings = m.settings → n.slowCounter = 0 →
      n.deliverFault.settings = m.settings ∧ n.deliverFault.slowCounter = 0 := by
    intro n hsettings hcounter
    have hfault := deliverFault_unticked n
    exact ⟨hfault.settings.trans hsettings, hfault.slowCounter.trans hcounter⟩
  cases hardware <;> exact hdelivered _ rfl rfl

structure Tallies (t : Settings) (n : Nat) (m : Machine β σ) : Prop where
  acceptable : t.Acceptable
  settings : m.settings = t
  slowCounter : m.slowCounter = UInt32.ofNat n

namespace Since

theorem tallies (h : Since t n m) : Tallies t n m := by
  induction h with
  | made bus observers hm =>
    rcases t.validate_cases with ⟨hok, hvalid⟩ | ⟨-, e, hinvalid, -⟩
    · rw [ofSettings?, hvalid] at hm
      cases hm
      exact ⟨hok, rfl, rfl⟩
    · rw [ofSettings?, hinvalid] at hm
      cases hm
  | @reset n m h hardware ih =>
    obtain ⟨hsettings, hcounter⟩ := reset_counts m hardware
    exact ⟨ih.acceptable, hsettings.trans ih.settings, hcounter⟩
  | nested h hnested sleeping ih =>
    rw [Hosted.cycle_of_nested hnested]
    exact ⟨ih.acceptable, ih.settings, ih.slowCounter⟩
  | counted h hnested sleeping ih =>
    have hmask := ih.settings ▸ ih.acceptable.slowCycleMask
    rw [Hosted.cycle_of_not_nested hnested hmask ih.slowCounter]
    exact ⟨ih.acceptable, ih.settings, rfl⟩
  | otherwise h hsettings hcounter ih =>
    exact ⟨ih.acceptable, hsettings.trans ih.settings, hcounter.trans ih.slowCounter⟩

theorem unticked (h : Since t n m) (hquiet : Unticked m m₁) : Since t n m₁ :=
  h.otherwise hquiet.settings hquiet.slowCounter

end Since
end Machine

namespace Hosted
variable {β σ η : Type} [Bus β] {t : Settings} {n : Nat} {s : Hosted β σ η}
open Machine (Unticked Since)

/-- Ticks were counted, `n` having been counted before, and the host was asked what they ask. -/
structure Housekept (t : Settings) (n : Nat) (ts : List Tick) (s s' : Hosted β σ η) : Prop where
  since : Since t (n + ts.length) s'.machine
  calls : Machine.Shows Event.housekeeping? s.machine s'.machine
    (Tick.schedule t.slowCycleMask n ts)

namespace Housekept
variable {ts us : List Tick} {s₁ s₂ : Hosted β σ η}

theorem trans (h : Housekept t n ts s s₁) (h₁ : Housekept t (n + ts.length) us s₁ s₂) :
    Housekept t n (ts ++ us) s s₂ where
  since := by
    rw [List.length_append, ← Nat.add_assoc]
    exact h₁.since
  calls := by
    rw [Tick.schedule_append]
    exact h.calls.trans h₁.calls

theorem of_unticked (h : Since t n s.machine) (hquiet : Unticked s.machine s₁.machine) :
    Housekept t n [] s s₁ :=
  ⟨h.unticked hquiet, hquiet.calls⟩

theorem unticked (h : Housekept t n ts s s₁) (hquiet : Unticked s₁.machine s₂.machine) :
    Housekept t n ts s s₂ := by
  rw [← ts.append_nil]
  exact h.trans (of_unticked h.since hquiet)

end Housekept

omit [Bus β] in
theorem afterTick_shows (m : Machine β σ) (t : Tick) (n : Nat) :
    Machine.Shows Event.housekeeping? m (afterTick m t n) (t.calls m.settings.slowCycleMask n) := by
  have hcalls : ((t.calls m.settings.slowCycleMask n).map Event.host).filterMap
      Event.housekeeping? = t.calls m.settings.slowCycleMask n := by
    simp only [Tick.calls]
    split <;> rfl
  refine ⟨((t.calls m.settings.slowCycleMask n).map Event.host).reverse ++
    [.host (.isNested false)], ?_, ?_⟩
  · rw [List.append_assoc]
    rfl
  · rw [List.reverse_append, List.reverse_reverse, List.filterMap_append, hcalls]
    rfl

variable [Host η]

theorem cycle_housekept (h : Since t n s.machine) (sleeping : Bool) :
    ∃ ts, Housekept t n ts s (s.cycle sleeping) := by
  cases hnested : Host.isNested s.host with
  | true =>
    refine ⟨[], h.nested hnested sleeping, ?_⟩
    rw [cycle_of_nested hnested]
    exact .of_event (.host (.isNested (Host.isNested s.host))) rfl
  | false =>
    refine ⟨[s.nextTick sleeping], h.counted hnested sleeping, ?_⟩
    have hmask := h.tallies.settings ▸ h.tallies.acceptable.slowCycleMask
    rw [cycle_of_not_nested hnested hmask h.tallies.slowCounter, ← h.tallies.settings,
      Tick.schedule, Tick.schedule, List.append_nil]
    exact afterTick_shows s.machine (s.nextTick sleeping) (n + 1)

theorem cycle_housekept_amid (h : Since t n s.machine) (sleeping : Bool) {s₁ s₂ : Hosted β σ η}
    (hbefore : Unticked s.machine s₁.machine)
    (hafter : Unticked (s₁.cycle sleeping).machine s₂.machine) :
    ∃ ts, Housekept t n ts s s₂ := by
  have hquiet := Housekept.of_unticked h hbefore
  obtain ⟨ts, hticked⟩ := cycle_housekept hquiet.since sleeping
  exact ⟨ts, (hquiet.trans hticked).unticked hafter⟩

end Hosted

namespace Execution
variable {β σ η : Type} [Host η] [Bus β] {e : Execution β σ η} {t : Settings} {n : Nat}
open Machine (Unticked Since)
open Hosted (Housekept)

theorem opcodeStep_housekept (h : Since t n e.state.machine) :
    ∃ ts, Housekept t n ts e.state (e.opcodeStep ControlInstructions.table).state := by
  have hbreakpoint := Hosted.breakpoint_talks (fun _ => Event.ofAside_of_ofChat) e.state
  have hchecked := Hosted.watchdog_check_talks (fun _ he => he) e.watch
    (e.state.breakpoint.map Machine.recordRegisters)
  have hready : Unticked e.state.machine e.ready.2.machine :=
    (hbreakpoint.unticked.trans (Machine.recordRegisters_unticked _)).trans hchecked.unticked
  let executed := e.ready.2.map (Machine.executeOpcode ControlInstructions.table)
  have hexecuted : Unticked e.state.machine executed.machine :=
    hready.trans (Machine.executeOpcode_unticked _)
  exact Hosted.cycle_housekept_amid h false hexecuted (.refl _)

theorem specialStep_unticked (e : Execution β σ η) :
    Unticked e.state.machine e.specialStep.state.machine := by
  have hasked : Unticked e.state.machine e.state.isNested.2.machine := .log _ rfl
  have hprobed := hasked.trans
    (Hosted.earlyEndOfCycle_talks (fun _ => Event.ofAside_of_ofChat) e.state.isNested.2).unticked
  have htraced : Unticked e.state.machine e.traced.machine :=
    hprobed.trans (Machine.traceIfDue_unticked _)
  rw [specialStep_eq]
  split
  · exact hasked.trans (Hosted.checkForBreak_unticked e.state.isNested.2)
  split
  · exact hprobed
  split
  · exact htraced.trans (Hosted.enterIdle_talks (fun _ he => he) e.traced).unticked
  · exact htraced.trans (Hosted.finishPass_unticked e.traced)

theorem idleStep_housekept (h : Since t n e.state.machine) (watch : Watchdog) :
    ∃ ts, Housekept t n ts e.state (e.idleStep watch).state := by
  have hchecked := Hosted.watchdog_check_talks (fun _ he => he) watch e.state
  have hcharged : ∀ s : Hosted β σ η, Unticked s.machine
      ((s.request Host.delay .delay).map fun m => m.charge m.settings.idleTickCycles).machine :=
    fun _ => ⟨rfl, rfl, [_], rfl, rfl⟩
  have hwoken := (Hosted.idleInterrupt_unticked (e.ticked watch).2).trans
    (Hosted.checkForBreak_unticked (e.ticked watch).2.idleInterrupt)
  refine Hosted.cycle_housekept_amid h true (hchecked.unticked.trans (hcharged _)) (hwoken.trans ?_)
  rw [idleStep_eq]
  dsimp only
  split
  · exact .mapPending _ _
  split
  · exact .refl _
  · exact Hosted.finishPass_unticked _

theorem step_housekept (h : Since t n e.state.machine) :
    ∃ ts, Housekept t n ts e.state (e.step ControlInstructions.table).state := by
  simp only [step]
  split
  · exact opcodeStep_housekept h
  · exact ⟨[], .of_unticked h (specialStep_unticked e)⟩
  · exact idleStep_housekept h _
  · exact ⟨[], .of_unticked h (.refl _)⟩

theorem execute_housekept {s : Hosted β σ η} (h : Since t n s.machine) (fuel : Nat) :
    ∃ ts, Housekept t n ts s (execute ControlInstructions.table fuel s).state := by
  have hstarted : Housekept t n [] s (start s).state :=
    .of_unticked h (Hosted.watchdog_arm_talks (fun _ he => he) s).unticked
  refine run_keeps ControlInstructions.table (I := fun e => ∃ ts, Housekept t n ts s e.state)
    ?_ ⟨[], hstarted⟩ fuel
  rintro e ⟨ts, hts⟩
  -- A step numbers its ticks from the count at the end of the steps before it.
  obtain ⟨us, hus⟩ := step_housekept hts.since
  exact ⟨ts ++ us, hts.trans hus⟩

end Execution

namespace Machine
variable {β σ : Type} [Bus β] {m m₁ : Machine β σ}

theorem setRegisters_unticked (m : Machine β σ) (r : Registers) :
    Unticked m (m.setRegisters r) := by
  have hK := Registers.kept_true.toKeptByException
  let unpacked : Machine β σ := { m with regs := r.unpackStatus }
  let announced := unpacked.announcePc r.unpackStatus.pc
  have hunpacked : Unticked m unpacked := .mapRegs m fun _ => r.unpackStatus
  have hannounced : Unticked unpacked announced :=
    .of_evolves (announcePc_evolves hK (fun _ he => Event.housekeeping_of_ofException
      (Event.ofException_of_ofEntry he)) unpacked _)
      (SameCounts.kept.notify unpacked (.newPc r.unpackStatus.pc)).slowCounter
  have hsp : Unticked announced (announced.notify (.newSp .changed)) :=
    .of_evolves (notify_evolves hK (fun _ _ => rfl) announced rfl)
      (SameCounts.kept.notify announced _).slowCounter
  exact ((hunpacked.trans hannounced).trans hsp).trans (deliverFault_unticked _)

theorem load_unticked {φ : Type} [SessionFile φ] {file : φ} (hm : m.load file = .ok m₁) :
    Unticked m m₁ := by
  rw [load] at hm
  cases hr : readRegisters file with
  | error e =>
    rw [hr] at hm
    cases hm
  | ok r =>
    rw [hr] at hm
    cases hm
    have hlog : Unticked m (m.log (.registersLoaded r.pc r.sr r.stopped)) := .log m rfl
    exact hlog.trans (setRegisters_unticked _ r)

theorem Reachable.exists_since (h : m.Reachable) : ∃ n, Since m.settings n m := by
  suffices hcounted : ∃ t n, Since t n m by
    obtain ⟨t, n, h⟩ := hcounted
    exact ⟨n, h.tallies.settings ▸ h⟩
  induction h with
  | configured settings bus observers hm => exact ⟨settings, 0, .made bus observers hm⟩
  | execute hm host fuel ih =>
    obtain ⟨t, n, h⟩ := ih
    obtain ⟨ts, hts⟩ := Execution.execute_housekept (s := ⟨_, host⟩) h fuel
    exact ⟨t, _, hts.since⟩
  | reset hm hardware ih =>
    obtain ⟨t, n, h⟩ := ih
    exact ⟨t, 0, h.reset hardware⟩
  | setRegisters hm r hr ih =>
    obtain ⟨t, n, h⟩ := ih
    exact ⟨t, n, h.unticked (setRegisters_unticked _ r)⟩
  | load hm file hm' ih =>
    obtain ⟨t, n, h⟩ := ih
    exact ⟨t, n, h.unticked (load_unticked hm')⟩
  | takeException hm v ih =>
    obtain ⟨t, n, h⟩ := ih
    exact ⟨t, n, h.unticked (takeException_unticked _ v)⟩
  | takeInterrupt hm base level ih =>
    obtain ⟨t, n, h⟩ := ih
    exact ⟨t, n, h.unticked (takeInterrupt_unticked _ base level)⟩
  | busError hm address size forRead ih | addressError hm address size forRead ih =>
    obtain ⟨t, n, h⟩ := ih
    exact ⟨t, n, h.unticked (raiseFault_unticked _ _)⟩
  | setRegister _ _ _ ih | save _ _ ih | requestBreak _ ih | interruptsChanged _ ih
  | checkAfterCycle _ ih | hooked _ _ _ ih | surroundings _ _ _ ih =>
    obtain ⟨t, n, h⟩ := ih
    exact ⟨t, n, h.otherwise rfl rfl⟩

end Machine

namespace Hosted
variable {β σ η : Type} [Host η] [Bus β] {t : Settings}
open Machine (Since)

structure Cadence (t : Settings) (n : Nat) (s : Hosted β σ η) : Prop where
  /-- A nested tick only finds out that it is nested. It is not counted. -/
  nested : Host.isNested s.host = true → ∀ sleeping,
    s.cycle sleeping = s.log (.host (.isNested true)) ∧ Since t n (s.cycle sleeping).machine
  /-- Another tick is the next one by number. It changes the counter, what is pending and the
  journal, and is slow when the host sleeps or by its number. -/
  counted : Host.isNested s.host = false → ∀ sleeping,
    let tick := s.nextTick sleeping
    let host := (s.polled sleeping).2
    s.cycle sleeping =
        ⟨afterTick s.machine tick (n + 1),
          if tick.isSlow t.slowCycleMask (n + 1) then Host.cycleSlowly host sleeping else host⟩ ∧
      Since t (n + 1) (s.cycle sleeping).machine
  /-- A call of the execution loop, nested or not and cut short anywhere, does all the housekeeping
  of its ticks and no other. -/
  executed : ∀ fuel, ∃ ts,
    Housekept t n ts s (execute ControlInstructions.table fuel s).state

/-- Settings are refused unless the interval of slow housekeeping is a power of two and the histories
are not too long. With all others the ticks are counted, whatever is done to the machine, and slow
housekeeping keeps its interval over any number of them. -/
theorem housekeeping_cadence :
    (∀ (t : Settings) (bus : β) (observers : σ),
      t.Acceptable ∧ Machine.ofSettings? t bus observers = .ok (.ofSettings t bus observers) ∨
        ¬ t.Acceptable ∧ ∃ e, Machine.ofSettings? t bus observers = .error e ∧ t.Blamed e) ∧
    (∀ m : Machine β σ, m.Reachable → ∃ n, Since m.settings n m) ∧
    ∀ t n (s : Hosted β σ η), Since t n s.machine → Cadence t n s := by
  refine ⟨?_, fun _ => Machine.Reachable.exists_since, ?_⟩
  · intro t bus observers
    rcases t.validate_cases with ⟨hok, hvalid⟩ | ⟨hbad, e, hinvalid, hblamed⟩
    · exact .inl ⟨hok, by rw [Machine.ofSettings?, hvalid]; rfl⟩
    · exact .inr ⟨hbad, e, by rw [Machine.ofSettings?, hinvalid]; rfl, hblamed⟩
  · intro t n s h
    refine ⟨fun hnested sleeping => ⟨?_, h.nested hnested sleeping⟩, fun hnested sleeping => ?_,
      Execution.execute_housekept h⟩
    · rw [cycle_of_nested hnested, ← hnested]
      rfl
    · have hsettings := h.tallies.settings
      have hcycle := cycle_of_not_nested hnested (hsettings ▸ h.tallies.acceptable.slowCycleMask)
        h.tallies.slowCounter sleeping
      rw [hsettings] at hcycle
      exact ⟨hcycle, h.counted hnested sleeping⟩

def seldom : Settings := { Settings.default with slowCycleMask := 0xFFFFFFFF }

theorem acceptable_seldom : seldom.Acceptable := ⟨⟨32, rfl⟩, by decide, by decide⟩

theorem exists_since (ht : t.Acceptable) (n : Nat) :
    ∃ s : Hosted Ram Unit Host.Stuck, Since t n s.machine := by
  induction n with
  | zero =>
    rcases t.validate_cases with ⟨-, hvalid⟩ | ⟨hbad, -⟩
    · refine ⟨⟨.ofSettings t (Ram.ofSize 256) (), {}⟩, .made (Ram.ofSize 256) () ?_⟩
      rw [Machine.ofSettings?, hvalid]
      rfl
    · exact absurd ht hbad
  | succ n ih =>
    obtain ⟨s, hs⟩ := ih
    exact ⟨s.cycle false, hs.counted rfl false⟩

theorem housekeeping_cadence_seldom :
    ∃ s : Hosted Ram Unit Host.Stuck, Since seldom 0x1FFFFFFFF s.machine ∧
      (s.cycle false).machine.journal.head? = some (.host (.suspendRequested false)) := by
  obtain ⟨s, hs⟩ := exists_since acceptable_seldom 0x1FFFFFFFF
  obtain ⟨hcycle, -⟩ := (housekeeping_cadence.2.2 seldom _ s hs).counted rfl false
  have hslow : ∀ u : Tick, u.isSlow seldom.slowCycleMask (0x1FFFFFFFF + 1) = true := by
    intro u
    rw [Tick.isSlow, Bool.or_eq_true, decide_eq_true_eq]
    exact .inr ⟨2, rfl⟩
  refine ⟨s, hs, ?_⟩
  rw [hcycle]
  dsimp only [afterTick, Tick.calls]
  rw [hs.tallies.settings, hslow, if_pos rfl]
  rfl

end Hosted
end Mc68000
