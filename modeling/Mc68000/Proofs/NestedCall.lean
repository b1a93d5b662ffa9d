import Mc68000.Memory.Ram
import Mc68000.Proofs.Counters
import Mc68000.Proofs.DoubleFault
import Mc68000.Proofs.TraceTiming

/-!
# Nested calls keep to themselves

A nested call runs on behalf of the host, in the middle of another call. It executes opcodes and
looks for breaks, and that is all: what is pending when it begins is for the outer call, and is
still pending when it returns.
-/

namespace Mc68000

/-- What a nested call may do: opcodes, with the exceptions that come of them. It reads the clock,
asks the host whether it is nested still, and looks for a break. -/
def Event.ofNested : Event → Bool
  | .host (.nowMillis _) | .host (.isNested _) | .host (.checkForBreak _) | .overdue .. => true
  | e => e.ofOpcode

theorem Event.ofNested_of_ofOpcode {e : Event} (h : e.ofOpcode = true) : e.ofNested = true := by
  cases e <;> simp_all [ofNested, ofOpcode, ofInstruction, ofFault, ofException]

namespace Registers

structure KeepsOuter (r r' : Registers) : Prop where
  interruptCheck : r.pending.interruptCheck = true → r'.pending.interruptCheck = true
  interruptDue : r.pending.interruptDue = true → r'.pending.interruptDue = true
  endOfCycle : r.pending.endOfCycle = true → r'.pending.endOfCycle = true
  stop : r.pending.stop = true → r'.pending.stop = true

theorem KeepsOuter.of_pending {r r' : Registers} (h : r'.pending = r.pending) :
    r.KeepsOuter r' := by
  constructor <;> rw [h] <;> exact id

theorem KeepsOuter.trans {a b c : Registers} (hab : a.KeepsOuter b) (hbc : b.KeepsOuter c) :
    a.KeepsOuter c where
  interruptCheck h := hbc.interruptCheck (hab.interruptCheck h)
  interruptDue h := hbc.interruptDue (hab.interruptDue h)
  endOfCycle h := hbc.endOfCycle (hab.endOfCycle h)
  stop h := hbc.stop (hab.stop h)

theorem endOfCycle_loadStatus (r : Registers) (w : UInt16) :
    (r.loadStatus w).pending.endOfCycle = r.pending.endOfCycle := by
  obtain ⟨r₁, hload, -, hpending⟩ := r.loadStatus_eq w
  rw [hload, ← hpending]
  simp only [followStatus]
  split <;> rfl

theorem loadStatus_keepsOuter (r : Registers) (w : UInt16) : r.KeepsOuter (r.loadStatus w) where
  interruptCheck _ := interruptCheck_unpackStatus _
  interruptDue h := by rw [interruptDue_loadStatus, h]
  endOfCycle h := by rw [endOfCycle_loadStatus, h]
  stop h := by rw [loadStatus, stop_unpackStatus, h]

theorem kept_keepsOuter : KeptByException KeepsOuter where
  refl _ := .of_pending rfl
  trans := KeepsOuter.trans
  pc _ _ := .of_pending rfl
  address _ _ _ _ := .of_pending rfl
  pack _ := .of_pending rfl
  supervisor r := .of_pending r.pending_enterSupervisor
  dropTrace _ := ⟨id, id, id, id⟩
  breakRequest _ := ⟨id, id, id, id⟩

end Registers

namespace Machine
variable {β σ : Type} {m m₁ m₂ : Machine β σ}

def Untraced (m m' : Machine β σ) : Prop :=
  ∃ vs, Shows Event.vector? m m' vs ∧ ExceptionVector.trace ∉ vs

namespace Untraced

theorem trans (h : Untraced m m₁) (h₁ : Untraced m₁ m₂) : Untraced m m₂ := by
  obtain ⟨vs, hshows, hvs⟩ := h
  obtain ⟨vs₁, hshows₁, hvs₁⟩ := h₁
  refine ⟨vs ++ vs₁, hshows.trans hshows₁, ?_⟩
  rw [List.mem_append]
  exact fun hv => hv.elim hvs hvs₁

theorem of_shows (h : Shows Event.vector? m m₁ []) : Untraced m m₁ := ⟨[], h, List.not_mem_nil⟩

end Untraced

variable [Bus β]

theorem takeException_untraced (m : Machine β σ) {v : ExceptionVector}
    (hv : v ≠ ExceptionVector.trace) : Untraced m (m.takeException v) :=
  ⟨[v], takeException_shows (fun _ => Event.vector?_of_ofEntry) m v,
    fun h => hv (List.mem_singleton.mp h).symm⟩

theorem raiseFault_untraced (m : Machine β σ) (f : Fault) : Untraced m (m.raiseFault f) := by
  refine ⟨_, raiseFault_shows_vector m f, fun h => ?_⟩
  have hv := List.mem_singleton.mp h
  cases hkind : f.kind with
  | bus | address =>
    rw [hkind] at hv
    exact absurd hv (by decide)

theorem deliverFault_untraced (m : Machine β σ) : Untraced m m.deliverFault := by
  have hasked : Untraced m m.takeFault.2 := .of_shows (takeFault_ordinary m).shows
  rw [deliverFault_eq]
  split
  · exact hasked
  · exact hasked.trans (raiseFault_untraced _ _)

end Machine

namespace ControlInstructions
variable {β σ : Type} [Bus β] {m : Machine β σ}
open Machine (Untraced)

theorem trapVector_ne_trace (w : UInt16) :
    ExceptionVector.trapBase + (w &&& 0xF).toUInt8 ≠ ExceptionVector.trace := by
  intro h
  have hdigit : (w &&& 0xF).toNat ≤ 15 := Nat.and_le_right
  have hv := congrArg UInt8.toNat h
  rw [UInt8.toNat_add, UInt16.toNat_toUInt8] at hv
  simp only [ExceptionVector.trapBase, ExceptionVector.trace, UInt8.reduceToNat] at hv
  omega

theorem illegalVector_ne_trace (w : UInt16) : Machine.illegalVector w ≠ ExceptionVector.trace := by
  simp only [Machine.illegalVector]
  split
  · decide
  split <;> decide

theorem refuse_untraced (m : Machine β σ) {v : ExceptionVector} (hv : v ≠ ExceptionVector.trace) :
    Untraced m ((m.setPc (m.regs.pc - 2)).takeException v) := by
  have hback : Untraced m (m.setPc (m.regs.pc - 2)) := .of_shows ⟨[], rfl, rfl⟩
  exact hback.trans (Machine.takeException_untraced _ hv)

theorem Outcome.shows_of_load {sr : UInt16} {m' : Machine β σ} (h : Outcome m (some sr) m') :
    Machine.Shows Event.vector? m m' [] := by
  cases h with
  | @load n _ h _ h' =>
    have hload : Machine.Shows Event.vector? n (n.mapRegs fun r => r.loadStatus sr) [] :=
      ⟨[], rfl, rfl⟩
    exact (h.shows.trans hload).trans h'.shows
  | stop h _ => exact h.shows.trans ⟨[], rfl, rfl⟩

theorem privileged_untraced {h : Handler β σ} {w : UInt16}
    (hloads : m.regs.status.s = true → (loads w m).isSome = true)
    (houtcome : Outcome m (loads w m) (privileged h w m).2) :
    Untraced m (privileged h w m).2 := by
  by_cases hs : m.regs.status.s = true
  · obtain ⟨sr, hsr⟩ := Option.isSome_iff_exists.mp (hloads hs)
    rw [hsr] at houtcome
    exact .of_shows houtcome.shows_of_load
  · simp only [privileged]
    rw [if_neg hs]
    exact refuse_untraced m (by decide)

theorem dispatch_untraced (w : UInt16) (m : Machine β σ) : Untraced m (table.dispatch w m).2 := by
  have hordinary : ∀ {m' : Machine β σ}, Machine.Ordinary m m' → Untraced m m' :=
    fun h => .of_shows h.shows
  simp only [OpcodeTable.dispatch]
  apply handler_cases w fun h => Untraced m (h w m).2
  case hnop => exact hordinary (.refl m)
  case hstop =>
    rintro rfl
    exact privileged_untraced (fun hs => by simp [loads, hs]) (stop_outcome m)
  case hrte =>
    rintro rfl
    exact privileged_untraced (fun hs => by simp [loads, hs]) (rte_outcome m)
  case hrts => exact hordinary (rts_ordinary m w)
  case htrap => exact Machine.takeException_untraced m (trapVector_ne_trace w)
  case hillegal => exact refuse_untraced m (illegalVector_ne_trace w)
  case habsolute => exact hordinary (jsrAbsolute_ordinary m w)
  case hindirect => exact hordinary (jsrIndirect_ordinary m w)
  case hlink => exact hordinary (link_ordinary m w)
  case hmove =>
    rintro rfl
    exact privileged_untraced (fun hs => by simp [loads, hs]) (moveToSr_outcome m)

theorem dispatch_keepsOuter (hH : m.hooks.Respects Registers.KeepsOuter) (w : UInt16) :
    m.regs.KeepsOuter (table.dispatch w m).2.regs := by
  have houtcome := dispatch_outcome w m
  generalize loads w m = sr?, (table.dispatch w m).2 = m' at houtcome ⊢
  cases houtcome with
  | ordinary h => exact .of_pending h.regs.pending
  | @exception n h v =>
    have htaken : n.regs.KeepsOuter (n.takeException v).regs :=
      (Machine.takeException_evolves (P := fun _ => True) Registers.kept_keepsOuter
        (fun _ _ => trivial) (h.hooks ▸ hH) v).regs
    exact .trans (.of_pending h.regs.pending) htaken
  | @load n _ h sr h' =>
    have hload := Registers.loadStatus_keepsOuter n.regs sr
    exact .trans (.trans (.of_pending h.regs.pending) hload) (.of_pending h'.regs.pending)
  | @stop n h sr =>
    have hload := Registers.loadStatus_keepsOuter n.regs sr
    exact .trans (.trans (.of_pending h.regs.pending) hload) ⟨id, id, id, fun _ => rfl⟩

end ControlInstructions

namespace Machine
variable {β σ : Type} {m m₁ m₂ : Machine β σ}

structure Secluded (m m' : Machine β σ) : Prop where
  hooks : m'.hooks = m.hooks
  events : ∃ es, m'.journal = es ++ m.journal ∧ ∀ e ∈ es, e.ofNested = true
  untraced : Untraced m m'
  slowCounter : m'.slowCounter = m.slowCounter
  outer : m.regs.KeepsOuter m'.regs

namespace Secluded

theorem trans (h : Secluded m m₁) (h₁ : Secluded m₁ m₂) : Secluded m m₂ := by
  obtain ⟨es, hj, hes⟩ := h.events
  obtain ⟨fs, hj₁, hfs⟩ := h₁.events
  refine ⟨h₁.hooks.trans h.hooks, ⟨fs ++ es, by rw [hj₁, hj, List.append_assoc], fun e he => ?_⟩,
    h.untraced.trans h₁.untraced, h₁.slowCounter.trans h.slowCounter, h.outer.trans h₁.outer⟩
  exact (List.mem_append.mp he).elim (hfs e) (hes e)

theorem of_silent (hooks : m₁.hooks = m.hooks) (hjournal : m₁.journal = m.journal)
    (hcounter : m₁.slowCounter = m.slowCounter) (houter : m.regs.KeepsOuter m₁.regs) :
    Secluded m m₁ :=
  ⟨hooks, ⟨[], hjournal, by simp⟩, .of_shows ⟨[], hjournal, rfl⟩, hcounter, houter⟩

theorem refl (m : Machine β σ) : Secluded m m := of_silent rfl rfl rfl (.of_pending rfl)

theorem log (m : Machine β σ) {e : Event} (he : e.ofNested = true) (hv : e.vector? = none) :
    Secluded m (m.log e) :=
  ⟨rfl, ⟨[e], rfl, by simpa using he⟩, .of_shows ⟨[e], rfl, by simp [hv]⟩, rfl, .of_pending rfl⟩

end Secluded

theorem recordRegisters_secluded (m : Machine β σ) : Secluded m m.recordRegisters := by
  simp only [recordRegisters]
  split
  · exact .of_silent rfl rfl rfl (.of_pending rfl)
  · exact .refl m

variable [Bus β]

theorem executeOpcode_secluded (hH : m.hooks.Respects Registers.KeepsOuter) :
    Secluded m (m.executeOpcode ControlInstructions.table) := by
  have hgoes : Evolves (fun e => e.ofNested = true) (fun _ _ => True) m
      (m.executeOpcode ControlInstructions.table) :=
    executeOpcode_evolves Registers.kept_true (fun _ => Event.ofNested_of_ofOpcode)
      (Registry.respects_true _) fun _ _ => trivial
  have hfetch := fetchOpcode_ordinary m
  have hH₁ : m.fetchOpcode.2.takeFault.2.hooks.Respects Registers.KeepsOuter := hfetch.hooks ▸ hH
  suffices hrest : Untraced m (m.executeOpcode ControlInstructions.table) ∧
      m.regs.KeepsOuter (m.executeOpcode ControlInstructions.table).regs from
    ⟨hgoes.hooks, hgoes.journal, hrest.1, slowCounter_executeOpcode m, hrest.2⟩
  rw [executeOpcode_eq]
  split
  · rename_i f _
    have hback : Ordinary m (m.fetchOpcode.2.takeFault.2.setPc
        (m.fetchOpcode.2.takeFault.2.regs.pc - 2)) :=
      hfetch.trans (.of_parts (.of_program ..) rfl rfl)
    have hraised := raiseFault_evolves (P := fun _ => True) Registers.kept_keepsOuter
      (fun _ _ => trivial) (m := m.fetchOpcode.2.takeFault.2.setPc
        (m.fetchOpcode.2.takeFault.2.regs.pc - 2)) hH₁ f
    exact ⟨(Untraced.of_shows hback.shows).trans (raiseFault_untraced _ f),
      .trans (.of_pending hback.regs.pending) hraised.regs⟩
  · let n := dispatched ControlInstructions.table m.fetchOpcode.1 m.fetchOpcode.2.takeFault.2
    have hdispatched := ControlInstructions.dispatch_untraced m.fetchOpcode.1
      m.fetchOpcode.2.takeFault.2
    have hkeeps := ControlInstructions.dispatch_keepsOuter hH₁ m.fetchOpcode.1
    have hcharged := dispatched_ordinary ControlInstructions.table m.fetchOpcode.1
      m.fetchOpcode.2.takeFault.2
    have hhandler : (ControlInstructions.table.dispatch m.fetchOpcode.1
        m.fetchOpcode.2.takeFault.2).2.hooks = m.fetchOpcode.2.takeFault.2.hooks :=
      (ControlInstructions.dispatch_evolves (P := fun _ => True) Registers.kept_true
        (fun _ _ => trivial) (Registry.respects_true _) _ fun _ _ _ => trivial).hooks
    have hdelivered := deliverFault_evolves (P := fun _ => True) (m := n)
      Registers.kept_keepsOuter (fun _ _ => trivial)
      (hcharged.hooks ▸ hhandler ▸ hH₁)
    exact ⟨(((Untraced.of_shows hfetch.shows).trans hdispatched).trans
        (.of_shows hcharged.shows)).trans (deliverFault_untraced n),
      .trans (.trans (.trans (.of_pending hfetch.regs.pending) hkeeps)
        (.of_pending hcharged.regs.pending)) hdelivered.regs⟩

end Machine

namespace Hosted
variable {β σ η : Type} [Host η]

theorem watchdog_check_secluded (w : Watchdog) (s : Hosted β σ η) :
    Machine.Secluded s.machine (w.check s).2.machine := by
  have hread : Machine.Secluded s.machine (s.consult Host.nowMillis .nowMillis).2.machine :=
    .log s.machine rfl rfl
  rw [watchdog_check_eq]
  split
  · exact .refl _
  · dsimp only
    split
    · exact hread.trans (.log _ rfl rfl)
    · exact hread

theorem watchdog_arm_secluded (s : Hosted β σ η) :
    Machine.Secluded s.machine (Watchdog.arm s).2.machine := by
  simp only [Watchdog.arm]
  split
  · exact .refl _
  · exact .log s.machine rfl rfl

theorem checkForBreak_secluded (s : Hosted β σ η) :
    Machine.Secluded s.machine s.checkForBreak.2.machine := by
  rw [checkForBreak_eq]
  split
  · exact .of_silent rfl rfl rfl ⟨id, id, id, id⟩
  · exact .log s.machine rfl rfl

theorem checkForBreak_fst (s : Hosted β σ η) :
    s.checkForBreak.1 = true ↔
      s.machine.regs.pending.breakRequest = true ∨ (Host.checkForBreak s.host).1 = true := by
  rw [checkForBreak_eq]
  split
  · rename_i hbreak
    simp [hbreak]
  · rename_i hbreak
    simp [hbreak, consult_eq]

abbrev NotNested (m m' : Machine β σ) : Prop :=
  Machine.Logged (fun e => e = .host (.isNested false)) m m'

theorem isNested_of_not_logged {s : Hosted β σ η} {m : Machine β σ}
    (hm : Machine.Grows s.isNested.2.machine m) (h : ¬ NotNested s.machine m) :
    Host.isNested s.host = true := by
  refine Classical.byContradiction fun hno => h (.trans_grows ?_ hm)
  have hasked : s.isNested.1 = false := Bool.eq_false_iff.mpr hno
  exact ⟨[.host (.isNested s.isNested.1)], rfl, _, List.mem_singleton_self _, by rw [hasked]⟩

theorem cycle_of_nested {s : Hosted β σ η} (h : Host.isNested s.host = true) (sleeping : Bool) :
    s.cycle sleeping = s.isNested.2 := by
  have hasked : s.isNested.1 = true := h
  rw [cycle_eq, if_pos hasked]

theorem breakpoint_of_nested {s : Hosted β σ η} (h : Host.isNested s.host = true) :
    s.breakpoint = s.isNested.2 := by
  have hasked : s.isNested.1 = true := h
  rw [breakpoint_eq, if_pos hasked]

theorem cycle_grows (s : Hosted β σ η) (sleeping : Bool) :
    Machine.Grows s.isNested.2.machine (s.cycle sleeping).machine := by
  have hticked : Machine.Continues s.isNested.2.machine
      (s.isNested.2.request (fun h => Host.cycle h sleeping) (.cycle sleeping)).machine :=
    .log Registers.kept_true.toKeptByException _ trivial
  have hcounted : ∀ t : Hosted β σ η, Machine.Continues t.machine t.countTick.machine :=
    fun _ => .of_parts trivial rfl rfl rfl rfl rfl
  have hpolled := (hticked.trans (pollInterrupts_evolves Registers.kept_true
    (fun _ _ => trivial) _)).trans (hcounted _)
  rw [cycle_eq]
  dsimp only
  split
  · exact ⟨[], rfl⟩
  split
  · exact (hpolled.trans (cycleSlowly_evolves Registers.kept_true (fun _ _ => trivial) _ _)).grows
  · exact hpolled.grows

theorem breakpoint_grows (s : Hosted β σ η) :
    Machine.Grows s.isNested.2.machine s.breakpoint.machine := by
  have hasked : Talks (fun _ => True) s.isNested.2 (s.isNested.2.ask
      (fun h => Host.isBreakLocation h s.machine.regs.pc)
      (.isBreakLocation s.machine.regs.pc)).2 := .ask _ _ _ trivial
  rw [breakpoint_eq]
  dsimp only
  split
  · exact ⟨[], rfl⟩
  split
  · exact (hasked.trans (.request _ _ _ .handleInstructionBreak trivial)).continues.grows
  · exact hasked.continues.grows

end Hosted

namespace Execution
variable {β σ η : Type} [Host η] [Bus β] {e : Execution β σ η}
open Hosted (NotNested)

def Idles (e : Execution β σ η) : Prop := ∃ watch, e.phase = .idle watch

theorem opcodeStep_secluded (hH : e.state.machine.hooks.Respects Registers.KeepsOuter)
    (hnested : ¬ NotNested e.state.machine
      (e.opcodeStep ControlInstructions.table).state.machine) :
    Machine.Secluded e.state.machine (e.opcodeStep ControlInstructions.table).state.machine := by
  let executed := e.ready.2.map (Machine.executeOpcode ControlInstructions.table)
  have hstep : (e.opcodeStep ControlInstructions.table).state = executed.cycle false := rfl
  have hexecuted : Machine.Continues e.ready.2.machine executed.machine :=
    Machine.executeOpcode_evolves Registers.kept_true (fun _ _ => trivial)
      (Registry.respects_true _) fun _ _ => trivial
  have hready : Machine.Continues e.state.breakpoint.machine e.ready.2.machine :=
    (Machine.recordRegisters_evolves (P := fun _ => True) Registers.kept_true.toKeptByException
      _).trans Registers.kept_true
      (Hosted.watchdog_check_talks (fun _ _ => trivial) e.watch
        (e.state.breakpoint.map Machine.recordRegisters)).continues
  rw [hstep] at hnested ⊢
  have hfirst : Host.isNested e.state.host = true := by
    refine Hosted.isNested_of_not_logged ?_ hnested
    exact ((Hosted.breakpoint_grows e.state).trans hready.grows).trans
      (hexecuted.trans (Hosted.cycle_continues executed false)).grows
  have hbefore : Machine.Secluded e.state.machine e.ready.2.machine := by
    have hasked : Machine.Secluded e.state.machine e.state.isNested.2.machine := .log _ rfl rfl
    rw [ready, Hosted.breakpoint_of_nested hfirst]
    exact (hasked.trans (Machine.recordRegisters_secluded _)).trans
      (Hosted.watchdog_check_secluded e.watch (e.state.isNested.2.map Machine.recordRegisters))
  have hopcode := hbefore.trans (Machine.executeOpcode_secluded (hbefore.hooks ▸ hH))
  have hsecond : Host.isNested executed.host = true := by
    refine Hosted.isNested_of_not_logged (Hosted.cycle_grows executed false) fun h => hnested ?_
    exact .grows_trans ((ready_continues e).trans hexecuted).grows h
  rw [Hosted.cycle_of_nested hsecond]
  exact hopcode.trans (.log executed.machine rfl rfl)

theorem isNested_of_specialStep
    (hnested : ¬ NotNested e.state.machine e.specialStep.state.machine) :
    Host.isNested e.state.host = true := by
  refine Classical.byContradiction fun hno => ?_
  have hasked : e.state.isNested.1 = false := Bool.eq_false_iff.mpr hno
  have hprobed : Machine.Grows e.state.isNested.2.machine e.probed.2.machine :=
    (Hosted.earlyEndOfCycle_talks (P := fun _ => True) (fun _ _ => trivial) _).continues.grows
  refine hno (Hosted.isNested_of_not_logged (hprobed.trans ?_) hnested)
  by_cases hleave : e.probed.1 = true
  · rw [specialStep_eq, if_neg (by simp [hasked]), if_pos hleave]
    exact ⟨[], rfl⟩
  · have htraced : Machine.Continues e.probed.2.machine e.traced.machine :=
      Machine.traceIfDue_evolves Registers.kept_true trivial (fun _ _ => trivial)
        (Registry.respects_true _)
    exact htraced.grows.trans
      (specialStep_rest_grows (Bool.eq_false_iff.mpr hno) (Bool.eq_false_iff.mpr hleave))

theorem specialStep_of_nested (h : Host.isNested e.state.host = true) :
    e.specialStep = endPass e.watch e.state.isNested.2.checkForBreak := by
  have hasked : e.state.isNested.1 = true := h
  rw [specialStep_eq, if_pos hasked]

theorem step_secluded (hidle : ¬ e.Idles)
    (hH : e.state.machine.hooks.Respects Registers.KeepsOuter)
    (hnested : ¬ NotNested e.state.machine
      (e.step ControlInstructions.table).state.machine) :
    Machine.Secluded e.state.machine (e.step ControlInstructions.table).state.machine ∧
      ¬ (e.step ControlInstructions.table).Idles := by
  cases hphase : e.phase with
  | opcode =>
    rw [step_opcode _ hphase] at hnested ⊢
    refine ⟨opcodeStep_secluded hH hnested, ?_⟩
    rintro ⟨watch, hwatch⟩
    rw [opcodeStep_phase] at hwatch
    split at hwatch <;> cases hwatch
  | special =>
    rw [step_special _ hphase] at hnested ⊢
    rw [specialStep_of_nested (isNested_of_specialStep hnested)]
    have hasked : Machine.Secluded e.state.machine e.state.isNested.2.machine := .log _ rfl rfl
    refine ⟨hasked.trans (Hosted.checkForBreak_secluded e.state.isNested.2), ?_⟩
    rintro ⟨watch, hwatch⟩
    rcases endPass_phase e.watch e.state.isNested.2.checkForBreak with h | h <;>
      rw [h] at hwatch <;> cases hwatch
  | idle watch => exact absurd ⟨watch, hphase⟩ hidle
  | returned =>
    rw [step_of_returned _ hphase]
    exact ⟨.refl _, hidle⟩

structure NestedCall (s : Hosted β σ η) (n : Nat) : Prop where
  /-- Nothing is left in the journal but opcodes with their exceptions, readings of the clock, and
  questions whether the call is nested or to break. -/
  events : ∃ es, (execute ControlInstructions.table n s).state.machine.journal =
    es ++ s.machine.journal ∧ ∀ e ∈ es, e.ofNested = true
  untraced : Machine.Untraced s.machine (execute ControlInstructions.table n s).state.machine
  unidled : ∀ k ≤ n, ¬ (execute ControlInstructions.table k s).Idles
  slowCounter : (execute ControlInstructions.table n s).state.machine.slowCounter =
    s.machine.slowCounter
  outer : s.machine.regs.KeepsOuter (execute ControlInstructions.table n s).state.machine.regs
  /-- The call returns from a pass in which the machine or the host asks for a break. -/
  returns : ∀ k < n,
    let e := execute ControlInstructions.table k s
    e.phase ≠ .returned → ((execute ControlInstructions.table (k + 1) s).phase = .returned ↔
      e.phase = .special ∧ (e.state.machine.regs.pending.breakRequest = true ∨
        (Host.checkForBreak e.state.host).1 = true))

variable {s : Hosted β σ η}

theorem not_notNested_of_le {n k : Nat} (hk : k ≤ n)
    (hnested : ¬ NotNested s.machine (execute ControlInstructions.table n s).state.machine) :
    ¬ NotNested s.machine (execute ControlInstructions.table k s).state.machine := by
  intro h
  obtain ⟨j, rfl⟩ := Nat.exists_eq_add_of_le hk
  have hrun : execute ControlInstructions.table (k + j) s =
      (execute ControlInstructions.table k s).run ControlInstructions.table j := run_add _ k j _
  refine hnested (h.trans_grows ?_)
  rw [hrun]
  exact (run_continues _ j).grows

theorem step_not_notNested {n k : Nat} (hk : k < n)
    (hnested : ¬ NotNested s.machine (execute ControlInstructions.table n s).state.machine) :
    ¬ NotNested (execute ControlInstructions.table k s).state.machine
      ((execute ControlInstructions.table k s).step ControlInstructions.table).state.machine := by
  intro h
  have hbefore := (execute_continues s k).grows
  refine not_notNested_of_le hk hnested ?_
  rw [execute_succ]
  exact .grows_trans hbefore h

theorem execute_secluded (hH : s.machine.hooks.Respects Registers.KeepsOuter) (n : Nat)
    (hnested : ¬ NotNested s.machine (execute ControlInstructions.table n s).state.machine) :
    Machine.Secluded s.machine (execute ControlInstructions.table n s).state.machine ∧
      ¬ (execute ControlInstructions.table n s).Idles := by
  induction n with
  | zero =>
    refine ⟨Hosted.watchdog_arm_secluded s, ?_⟩
    rintro ⟨watch, hwatch⟩
    have hphase : (start s).phase = .idle watch := hwatch
    rw [start_phase] at hphase
    split at hphase <;> cases hphase
  | succ n ih =>
    -- That the call was nested throughout is read off the journal, which only grows.
    obtain ⟨hsecluded, hidle⟩ := ih (not_notNested_of_le (Nat.le_succ n) hnested)
    have hstep := step_secluded hidle (hsecluded.hooks ▸ hH)
      (step_not_notNested (Nat.lt_succ_self n) hnested)
    rw [execute_succ]
    exact ⟨hsecluded.trans hstep.1, hstep.2⟩

theorem specialStep_returned_iff (h : Host.isNested e.state.host = true) :
    e.specialStep.phase = .returned ↔ e.state.machine.regs.pending.breakRequest = true ∨
      (Host.checkForBreak e.state.host).1 = true := by
  have hcheck := Hosted.checkForBreak_fst e.state.isNested.2
  rw [specialStep_of_nested h, endPass]
  refine Iff.trans ?_ hcheck
  split <;> simp_all

/-- A call that is nested whenever it asks, with exception hooks that leave the pending conditions
alone, takes neither the trace exception nor interrupts, does not idle, asks nothing of the host but
the clock and for breaks, and leaves to the outer call what was pending. -/
theorem nested_call_isolated (hooks : s.machine.hooks.Respects Registers.KeepsPending) (n : Nat)
    (hnested : ¬ NotNested s.machine (execute ControlInstructions.table n s).state.machine) :
    NestedCall s n := by
  have hH : s.machine.hooks.Respects Registers.KeepsOuter :=
    hooks.mono fun _ _ => Registers.KeepsOuter.of_pending
  obtain ⟨hsecluded, -⟩ := execute_secluded hH n hnested
  have hidle : ∀ k ≤ n, ¬ (execute ControlInstructions.table k s).Idles :=
    fun k hk => (execute_secluded hH k (not_notNested_of_le hk hnested)).2
  refine ⟨hsecluded.events, hsecluded.untraced, hidle, hsecluded.slowCounter, hsecluded.outer,
    fun k hk => ?_⟩
  intro e hgoes
  rw [execute_succ]
  cases hphase : e.phase with
  | opcode =>
    rw [step_opcode _ hphase]
    exact ⟨fun h => absurd h (opcodeStep_phase_ne_returned _ _), fun h => absurd h.1 (by simp)⟩
  | special =>
    have hpass := step_not_notNested hk hnested
    rw [step_special _ hphase] at hpass ⊢
    rw [specialStep_returned_iff (isNested_of_specialStep hpass)]
    exact ⟨fun h => ⟨rfl, h⟩, And.right⟩
  | idle watch => exact absurd ⟨watch, hphase⟩ (hidle k (Nat.le_of_lt hk))
  | returned => exact absurd hphase hgoes

/-- A host that calls the machine for its own ends, while an interrupt waits. It asks for a break
when it is asked for the second time. -/
structure Caller where
  looks : Nat := 0

instance : Host Caller where
  nowMillis h := (0, h)
  delay h := h
  isNested _ := true
  checkForBreak h := (0 < h.looks, { h with looks := h.looks + 1 })
  interruptLevel h := (some 6, h)

def suspended : Hosted Ram Unit Caller :=
  let ram := (Ram.ofSize 256).loadWords 0xA0 [0x46FC, 0x2000, 0x4E71]
  let m := (Machine.ofSettings Settings.default ram ()).setPc 0xA0
  ⟨m.mapPending fun p =>
    { p with stop := true, interruptCheck := true, interruptDue := true, endOfCycle := true }, {}⟩

theorem nested_call_isolated_suspended :
    suspended.machine.hooks.Respects Registers.KeepsPending ∧
      ¬ NotNested suspended.machine
        (execute ControlInstructions.table 3 suspended).state.machine ∧
      (execute ControlInstructions.table 3 suspended).phase = .returned ∧
      (execute ControlInstructions.table 3 suspended).state.machine.regs.status.mask = 0 ∧
      NestedCall suspended 3 := by
  have hooks : suspended.machine.hooks.Respects Registers.KeepsPending :=
    fun _ _ he => absurd he List.not_mem_nil
  have hnested : ¬ NotNested suspended.machine
      (execute ControlInstructions.table 3 suspended).state.machine := by
    intro h
    have hasked : Machine.Logged (fun e => decide (e = .host (.isNested false))) suspended.machine
        (execute ControlInstructions.table 3 suspended).state.machine :=
      h.mono fun _ => decide_eq_true
    have hany := (Machine.Logged.iff_any (execute_continues suspended 3).grows).mp hasked
    revert hany
    decide +kernel
  exact ⟨hooks, hnested, by decide +kernel, by decide +kernel,
    nested_call_isolated hooks 3 hnested⟩

end Execution
end Mc68000
