import Mc68000.Machine.Control
import Mc68000.Memory.Ram
import Mc68000.Proofs.HostLikeness
import Mc68000.Proofs.Stopping

/-!
# Breaks are transparent

A break that ends a pass takes nothing out of the run. The loop leaves the state that it would have
gone on with, and the calls that follow do what the call would have done. A run that is cut into
calls is compared with one in which no look for a break finds any.
-/

namespace Mc68000

/-- What is left of an event without the calls of the host that a new call of the loop repeats, and
without warnings. -/
def Event.uncut? : Event → Option Event
  | .fetch r => some (.fetch r.packStatus)
  | .stackLow .. | .overdue .. => none
  | .host (.nowMillis _) | .host (.isNested _) | .host (.checkForBreak _) => none
  | e => some e

def Comparison.uncut {β σ : Type} (m : Machine β σ) : Comparison σ where
  seen := Event.uncut?
  observers := Eq
  before := m.journal
  before' := m.journal
  clock := m.settings.deadManTimeoutMs ≠ none
  seen_fetch _ _ := rfl
  seen_stackLow _ _ := rfl
  seen_nowMillis _ := rfl
  seen_overdue _ _ _ := rfl

theorem Registry.listeners_share {β σ : Type} (r : Registry β σ) {call : HookCall}
    (hc : call.intercepts = false) : ∀ l ∈ r.listeners call, ∀ s s' : Scene β σ,
      s'.observers = s.observers → (l.run s').2.observers = (l.run s).2.observers := by
  intro l hl s s' hs
  cases call with
  | exception v => cases hc
  | jsr ret dest | jsrIndirect ret dest | link size | rte dest | rts dest | newPc pc
  | newSp change =>
    simp only [Registry.listeners, Registry.listenersOf, List.mem_map] at hl
    obtain ⟨e, -, rfl⟩ := hl
    simp only [Registry.answering, Registry.observing, hs]

namespace Machine
variable {β σ : Type}

theorem foldl_callHook_share (call : HookCall) (ls : List (Registry.Listener β σ))
    (hls : ∀ l ∈ ls, ∀ s s' : Scene β σ, s'.observers = s.observers →
      (l.run s').2.observers = (l.run s).2.observers)
    (before before' : Bool × Machine β σ) (h : before'.2.observers = before.2.observers) :
    let done := (ls.foldl (callHook call) before).2
    let done' := (ls.foldl (callHook call) before').2
    done'.observers = done.observers ∧
      ∃ es, done.journal = es ++ before.2.journal ∧ done'.journal = es ++ before'.2.journal := by
  induction ls generalizing before before' with
  | nil => exact ⟨h, [], rfl, rfl⟩
  | cons l ls ih =>
    have hl : (callHook call before' l).2.observers = (callHook call before l).2.observers :=
      hls l List.mem_cons_self before.2.scene before'.2.scene h
    obtain ⟨hdone, es, hj, hj'⟩ := ih (fun k hk => hls k (List.mem_cons_of_mem _ hk)) _ _ hl
    refine ⟨hdone, es ++ [.hook l.handle call], ?_, ?_⟩
    · rw [List.foldl_cons, hj, List.append_assoc]
      rfl
    · rw [List.foldl_cons, hj', List.append_assoc]
      rfl

theorem alike_self (m : Machine β σ) : m.Alike (.uncut m) m where
  regs := ⟨_, rfl⟩
  bus := rfl
  slowCycleMask := rfl
  idleTickCycles := rfl
  timeouts := by
    by_cases htimeout : m.settings.deadManTimeoutMs = none
    · exact .inr ⟨htimeout, htimeout⟩
    · exact .inl htimeout
  hooks := by
    refine ⟨rfl, ?_, ?_⟩
    · rintro v l - s _ rfl
      exact ⟨rfl, rfl, rfl, rfl⟩
    · rintro call hc n n' hn hn' hobservers hnews
      have hlisteners : n'.hooks.listeners call = n.hooks.listeners call := by rw [hn, hn']
      simp only [notify, callHooks]
      rw [hlisteners]
      obtain ⟨hdone, es, hj, hj'⟩ := foldl_callHook_share call _ (n.hooks.listeners_share hc)
        (false, n) (false, n') hobservers.symm
      rw [hj, hj']
      exact ⟨hdone.symm, hnews.append es es rfl⟩
  observers := rfl
  cycles := rfl
  slowCounter := rfl
  lastTraceAddress := rfl
  lastFault := rfl
  low := rfl
  overflowed := rfl
  news := ⟨[], [], rfl, rfl, rfl⟩

end Machine

namespace Hosted
variable {β σ η : Type}

def findNoBreak (s : Hosted β σ η) : Bool × Hosted β σ η :=
  (false, s.map fun m => m.mapPending fun p => { p with breakRequest := false })

theorem findNoBreak_eq_self {s : Hosted β σ η}
    (h : s.machine.regs.pending.breakRequest = false) : s.findNoBreak = (false, s) := by
  have hsame : ({ s.machine.regs.pending with breakRequest := false } : Pending) =
      s.machine.regs.pending := by rw [← h]
  simp only [findNoBreak, map, Machine.mapPending, Machine.mapRegs, Registers.mapPending]
  rw [hsame]

theorem findNoBreak_hooks (s : Hosted β σ η) :
    s.findNoBreak.2.machine.hooks = s.machine.hooks := rfl

variable [Host η] {c : Comparison σ} {H : η → η → Prop} {s s' : Hosted β σ η}

theorem checkForBreak_machine (s : Hosted β σ η) :
    ∃ j, s.checkForBreak.2.machine = { s.findNoBreak.2.machine with journal := j } := by
  rw [checkForBreak_eq]
  split
  · exact ⟨_, rfl⟩
  · rename_i hno
    rw [findNoBreak_eq_self (Bool.eq_false_iff.mpr hno)]
    exact ⟨_, rfl⟩

theorem Alike.findNoBreak (hH : Host.AnswersAlike H)
    (hpoll : ∀ h : η, H h (Host.checkForBreak h).2)
    (hc : ∀ answer, c.seen (.host (.checkForBreak answer)) = none) (h : Alike c H s s') :
    Alike c H s.checkForBreak.2 s'.findNoBreak.2 := by
  have hcleared := h.machine.mapPending fun p => { p with breakRequest := false }
  rw [checkForBreak_eq]
  split
  · exact ⟨hcleared, h.host⟩
  · rename_i hno
    rw [findNoBreak_eq_self (h.machine.pending ▸ Bool.eq_false_iff.mpr hno)]
    exact h.hidden hH.toEquivalence ⟨.log _ (hc _), hpoll _⟩ ⟨.refl _, hH.refl _⟩

end Hosted

namespace Execution
variable {β σ η : Type} [Host η] [Bus β] {e : Execution β σ η}

def spared (e : Execution β σ η) : Execution β σ η :=
  e.stepWith Hosted.checkForBreak Hosted.findNoBreak

def BreaksPass (e : Execution β σ η) : Prop :=
  (e.step ControlInstructions.table).phase = .returned ∧ e.spared.phase = .opcode

def BreaksIdle (e : Execution β σ η) : Prop :=
  ∃ watch, e.phase = .idle watch ∧ (e.woken watch).1 = true

theorem stepWith_check (doze : Hosted β σ η → Bool × Hosted β σ η) (e : Execution β σ η) :
    (∃ next, ∀ check, e.stepWith doze check = next) ∨
      ∃ watch t, ∀ check, e.stepWith doze check = endPass watch (check t) := by
  have hfinish : ∀ s : Hosted β σ η,
      (∃ next, ∀ check, endPass e.watch (s.finishWith check) = next) ∨
        ∃ watch t, ∀ check, endPass e.watch (s.finishWith check) = endPass watch (check t) := by
    intro s
    simp only [Hosted.finishWith]
    cases hleave : s.interrupted.lateEndOfCycle.1
    · exact .inr ⟨e.watch, s.interrupted.lateEndOfCycle.2, fun check => by simp⟩
    · exact .inl ⟨endPass e.watch (true, s.interrupted.lateEndOfCycle.2), fun check => by simp⟩
  simp only [stepWith]
  cases e.phase with
  | opcode | returned => exact .inl ⟨_, fun _ => rfl⟩
  | special =>
    simp only [specialStepWith]
    split
    · exact .inr ⟨_, _, fun _ => rfl⟩
    split
    · exact .inl ⟨_, fun _ => rfl⟩
    split
    · exact .inl ⟨_, fun _ => rfl⟩
    · exact hfinish _
  | idle watch =>
    simp only [idleStepWith]
    split
    · exact .inl ⟨_, fun _ => rfl⟩
    split
    · exact .inl ⟨_, fun _ => rfl⟩
    · exact hfinish _

namespace BreaksPass

theorem mid_pass (h : e.BreaksPass) : e.phase = .special ∨ ∃ watch, e.phase = .idle watch := by
  obtain ⟨hreturned, hspared⟩ := h
  simp only [spared, stepWith] at hspared
  cases hphase : e.phase with
  | opcode =>
    rw [step_opcode _ hphase] at hreturned
    exact absurd hreturned (opcodeStep_phase_ne_returned _ _)
  | special => exact .inl rfl
  | idle watch => exact .inr ⟨watch, rfl⟩
  | returned =>
    rw [hphase] at hspared
    dsimp only at hspared
    rw [hphase] at hspared
    cases hspared

theorem advance_eq (h : e.BreaksPass) : e.advance = e.step ControlInstructions.table := by
  have hphase := h.mid_pass
  simp only [advance]
  split
  · simp_all
  · rfl

theorem ends (h : e.BreaksPass) : ∃ t watch,
    e.advance.state = (Hosted.checkForBreak t).2 ∧ e.spared = endPass watch t.findNoBreak := by
  have hstep : e.advance = e.stepWith Hosted.checkForBreak Hosted.checkForBreak := h.advance_eq
  obtain ⟨hreturned, hspared⟩ := h
  rw [← stepWith_checkForBreak] at hreturned
  simp only [spared] at hspared ⊢
  obtain ⟨next, hnext⟩ | ⟨watch, t, hlooks⟩ := stepWith_check Hosted.checkForBreak e
  · rw [hnext] at hreturned hspared
    rw [hreturned] at hspared
    cases hspared
  · exact ⟨t, watch, by rw [hstep, hlooks]; rfl, hlooks _⟩

theorem machine (h : e.BreaksPass) :
    ∃ j, e.advance.state.machine = { e.spared.state.machine with journal := j } := by
  obtain ⟨t, watch, hstate, hspared⟩ := h.ends
  rw [hstate, hspared]
  exact t.checkForBreak_machine

theorem host {H : η → η → Prop} (hH : Host.AnswersAlike H)
    (hpoll : ∀ h : η, H h (Host.checkForBreak h).2) (h : e.BreaksPass) :
    H e.spared.state.host e.advance.state.host := by
  obtain ⟨t, watch, hstate, hspared⟩ := h.ends
  rw [hstate, hspared, Hosted.checkForBreak_eq]
  split
  · exact hH.refl _
  · exact hpoll _

end BreaksPass

/-- One step after another; no look for a break finds any. The loop is called again if it returns
for something else. -/
def onward (e : Execution β σ η) : Execution β σ η :=
  match e.phase with
  | .returned => start e.state
  | _ => e.stepWith Hosted.findNoBreak Hosted.findNoBreak

def uncut (s : Hosted β σ η) : Nat → Execution β σ η
  | 0 => start s
  | n + 1 => (uncut s n).onward

/-- How far the uncut run is when the calls have taken `n` steps. It waits at an opcode while a call
returns and the next one begins. -/
def place (s : Hosted β σ η) : Nat → Nat
  | 0 => 0
  | n + 1 =>
    if (uncut s (place s n)).phase = .opcode ∧ (calls s n).phase ≠ .opcode then place s n
    else place s n + 1

/-- Nothing is left of a pass, and a new call would go on here: at most it would look for a break
first. -/
structure Rested (u : Execution β σ η) : Prop where
  opcode : u.phase = .opcode
  noBreak : u.state.machine.regs.pending.breakRequest = false
  goesOn : Host.isNested u.state.host = true ∨ u.state.machine.regs.pending.stop = false

inductive Follows (c : Comparison σ) (H : η → η → Prop) (e u : Execution β σ η) : Prop
  | together (h : Alike c H e u)
  | cut (h : Hosted.Alike c H e.state u.state) (hphase : e.phase = .returned) (hu : u.Rested)
  | looks (h : Hosted.Alike c H e.state u.state) (hphase : e.phase = .special) (hu : u.Rested)
    (hnested : Host.isNested u.state.host = true)

section
variable {c : Comparison σ} {H : η → η → Prop} {u : Execution β σ η}

theorem finishWith_stop {s : Hosted β σ η} (hooks : s.machine.hooks.Respects Registers.KeepsStop) :
    (s.finishWith Hosted.findNoBreak).2.machine.regs.pending.stop =
      s.machine.regs.pending.stop := by
  have hrests := Hosted.checkForBreak_rests s.interrupted.lateEndOfCycle.2
  rw [← Hosted.finishPass_stop hooks, Hosted.finishPass_eq]
  simp only [Hosted.finishWith]
  split
  · rfl
  · exact hrests.stop.symm

theorem finishWith_rested {s : Hosted β σ η}
    (hooks : s.machine.hooks.Respects Registers.KeepsStop)
    (hstop : s.machine.regs.pending.stop = false) (watch : Watchdog)
    (hopcode : (endPass watch (s.finishWith Hosted.findNoBreak)).phase = .opcode) :
    (endPass watch (s.finishWith Hosted.findNoBreak)).Rested := by
  refine ⟨hopcode, ?_, .inr ((finishWith_stop hooks).trans hstop)⟩
  simp only [Hosted.finishWith] at hopcode ⊢
  split at hopcode
  · cases hopcode
  · rw [if_neg ‹_›]
    rfl

theorem stepWith_rested (hooks : e.state.machine.hooks.Respects Registers.KeepsStop)
    {doze : Hosted β σ η → Bool × Hosted β σ η}
    (hdoze : ∀ t, (doze t).2.machine.hooks = t.machine.hooks)
    (hphase : e.phase = .special ∨ ∃ watch, e.phase = .idle watch)
    (hopcode : (e.stepWith doze Hosted.findNoBreak).phase = .opcode) :
    (e.stepWith doze Hosted.findNoBreak).Rested := by
  obtain hspecial | ⟨watch, hidle⟩ := hphase
  · simp only [stepWith, hspecial, specialStepWith] at hopcode ⊢
    split at hopcode
    · rename_i hnested
      rw [if_pos hnested]
      exact ⟨rfl, rfl, .inl hnested⟩
    split at hopcode
    · cases hopcode
    split at hopcode
    · cases hopcode
    rename_i hnested hstay hstop
    rw [if_neg hnested, if_neg hstay, if_neg hstop]
    exact finishWith_rested ((traced_continues e).respects hooks) (Bool.eq_false_iff.mpr hstop) _
      hopcode
  · have hwoken : (doze (e.ticked watch).2.idleInterrupt).2.machine.hooks.Respects
        Registers.KeepsStop := by
      rw [hdoze]
      exact ((ticked_continues watch e).trans (Hosted.idleInterrupt_continues _)).respects hooks
    simp only [stepWith, hidle, idleStepWith] at hopcode ⊢
    split at hopcode
    · cases hopcode
    split at hopcode
    · cases hopcode
    rename_i hleave hstop
    rw [if_neg hleave, if_neg hstop]
    exact finishWith_rested hwoken (Bool.eq_false_iff.mpr hstop) _ hopcode

omit [Bus β] in
theorem endPass_follows {t : Hosted β σ η} (h : Hosted.Alike c H t.checkForBreak.2 u.state)
    (watch : Watchdog) (hu : u.Rested) : Follows c H (endPass watch t.checkForBreak) u := by
  cases hbreak : t.checkForBreak.1 with
  | true =>
    refine .cut h ?_ hu
    simp only [endPass, hbreak]
    rfl
  | false =>
    refine .together ⟨h, ?_⟩
    rw [hu.opcode]
    simp only [endPass, hbreak]
    exact .opcode

omit [Bus β] in
theorem Meets.follows (hH : Host.AnswersAlike H) (hpoll : ∀ h : η, H h (Host.checkForBreak h).2)
    {m : Machine β σ} (h : Meets (.uncut m) H Hosted.checkForBreak Hosted.findNoBreak e u)
    (hrested : u.phase = .opcode → u.Rested) : Follows (.uncut m) H e u := by
  cases h with
  | alike h => exact .together h
  | pass watch watch' ht =>
    exact endPass_follows (ht.findNoBreak hH hpoll fun _ => rfl) watch (hrested rfl)

variable {m : Machine β σ} (hH : Host.AnswersAlike H)
  (hpoll : ∀ h : η, H h (Host.checkForBreak h).2)
  (hclock : m.settings.deadManTimeoutMs ≠ none → Host.ClockAside H)
include hH hpoll hclock

theorem advance_follows (hooks : e.state.machine.hooks.Respects Registers.KeepsStop)
    (hidle : ¬ e.BreaksIdle) (h : Alike (.uncut m) H e u) :
    Follows (.uncut m) H e.advance u.onward := by
  have hhooks : u.state.machine.hooks.Respects Registers.KeepsStop := by
    intro v
    rw [h.state.machine.hooks.exception]
    exact hooks v
  have hrested := stepWith_rested hhooks Hosted.findNoBreak_hooks
  obtain ⟨hstate, hphase⟩ := h
  -- Only the end of a pass sees the difference between the looks. If it leads the uncut run to an
  -- opcode, the run rests there, and a call that is cut can be taken up again.
  simp only [stepWith] at hrested
  simp only [advance, onward, step, stepWith]
  generalize hpe : e.phase = phase, hpu : u.phase = phase' at hphase hrested ⊢
  cases hphase with
  | opcode => exact .together (opcodeStep_alike hH hclock hstate)
  | special =>
    exact (specialStepWith_meets hH hclock hstate).follows hH hpoll (hrested (.inl rfl))
  | idle watch watch' =>
    let x := (e.ticked watch).2.idleInterrupt
    let y := (u.ticked watch').2.idleInterrupt
    have hlook : Hosted.Alike (.uncut m) H x.checkForBreak.2 y.findNoBreak.2 :=
      ((ticked_alike hH hclock hstate watch watch').idleInterrupt hH).findNoBreak hH hpoll
        fun _ => rfl
    have hno : x.checkForBreak.1 = false :=
      Bool.eq_false_iff.mpr fun hbreak => hidle ⟨watch, hpe, hbreak⟩
    exact (idleStepWith_meets hH (.of_parts hno.symm hlook)).follows hH hpoll
      (hrested (.inr ⟨_, rfl⟩))
  | returned => exact .together (start_alike hH hclock hstate)

omit [Bus β] hpoll in
theorem start_follows (h : Hosted.Alike (.uncut m) H e.state u.state) (hu : u.Rested) :
    Follows (.uncut m) H (start e.state) u := by
  have hstart : Hosted.Alike (.uncut m) H (start e.state).state u.state :=
    h.hidden hH.toEquivalence
      (Hosted.arm_hidden hH hclock (h.machine.timeouts.imp_right And.left))
      ⟨.refl _, hH.refl _⟩
  have hphase := start_phase e.state
  rw [← hstart.machine.pending] at hphase
  -- A processor that was left stopped makes a new call begin with a pass, not with an opcode. Here
  -- that can only be a nested call.
  cases hstop : u.state.machine.regs.pending.stop with
  | false =>
    rw [hstop] at hphase
    exact .together ⟨hstart, by rw [hphase, hu.opcode]; exact .opcode⟩
  | true =>
    rw [hstop] at hphase
    exact .looks hstart hphase hu (hu.goesOn.resolve_right (by simp [hstop]))

omit hclock in
theorem specialStep_follows (h : Hosted.Alike (.uncut m) H e.state u.state) (hu : u.Rested)
    (hnested : Host.isNested u.state.host = true) :
    Follows (.uncut m) H e.specialStep u := by
  have hasked : Hosted.Alike (.uncut m) H e.state.isNested.2 u.state :=
    h.hidden hH.toEquivalence ⟨.log _ rfl, hH.refl _⟩ ⟨.refl _, hH.refl _⟩
  have hlook := hasked.findNoBreak hH hpoll fun _ => rfl
  -- The request was used up when the last call was cut, so that looking again changes nothing.
  rw [Hosted.findNoBreak_eq_self hu.noBreak] at hlook
  have hyes : e.state.isNested.1 = true := (hH.isNested h.host).symm.trans hnested
  rw [specialStep_eq, if_pos hyes]
  exact endPass_follows hlook e.watch hu

end

variable {H : η → η → Prop} {s : Hosted β σ η}

theorem calls_respects (hooks : s.machine.hooks.Respects Registers.KeepsStop) (n : Nat) :
    (calls s n).state.machine.hooks.Respects Registers.KeepsStop := by
  rw [(calls_isRun s).hooks n]
  exact (start_talks (P := fun _ => True) (fun _ _ => trivial) s).continues.respects hooks

theorem calls_follows (hH : Host.AnswersAlike H) (hpoll : ∀ h : η, H h (Host.checkForBreak h).2)
    (hclock : s.machine.settings.deadManTimeoutMs ≠ none → Host.ClockAside H)
    (hooks : s.machine.hooks.Respects Registers.KeepsStop) (n : Nat)
    (hidle : ∀ k < n, ¬ (calls s k).BreaksIdle) :
    Follows (.uncut s.machine) H (calls s n) (uncut s (place s n)) := by
  induction n with
  | zero => exact .together (start_alike hH hclock ⟨s.machine.alike_self, hH.refl _⟩)
  | succ n ih =>
    have hbefore := ih fun k hk => hidle k (Nat.lt_succ_of_lt hk)
    simp only [place, calls]
    cases hbefore with
    | together h =>
      have hgoes : ¬ ((uncut s (place s n)).phase = .opcode ∧ (calls s n).phase ≠ .opcode) :=
        fun ⟨hu, he⟩ => he (h.phase.of_opcode hu)
      rw [if_neg hgoes]
      have hkept := calls_respects hooks n
      exact advance_follows hH hpoll hclock hkept (hidle n (Nat.lt_succ_self n)) h
    | cut h hphase hu =>
      rw [if_pos ⟨hu.opcode, by simp [hphase]⟩]
      simp only [advance, hphase]
      exact start_follows hH hclock h hu
    | looks h hphase hu hnested =>
      rw [if_pos ⟨hu.opcode, by simp [hphase]⟩]
      simp only [advance, hphase]
      rw [step_special _ hphase]
      exact specialStep_follows hH hpoll h hu hnested

theorem BreaksPass.resumes (hH : Host.AnswersAlike H)
    (hpoll : ∀ h : η, H h (Host.checkForBreak h).2)
    (hooks : e.state.machine.hooks.Respects Registers.KeepsStop) (h : e.BreaksPass)
    (hnested : Host.isNested e.advance.state.host = false) :
    e.advance.advance.phase = .opcode := by
  have hrested : e.spared.Rested :=
    stepWith_rested hooks (fun t => t.checkForBreak_continues.hooks) h.mid_pass h.2
  have hrunning : e.spared.state.machine.regs.pending.stop = false := by
    refine hrested.goesOn.resolve_left fun hno => ?_
    rw [← hH.isNested (h.host hH hpoll), hnested] at hno
    cases hno
  obtain ⟨j, hmachine⟩ := h.machine
  have hreturned : e.advance.phase = .returned := by
    rw [h.advance_eq]
    exact h.1
  have hregs : (start e.advance.state).state.machine.regs = e.spared.state.machine.regs := by
    have htalks := start_talks (P := fun _ => True) (fun _ _ => trivial) e.advance.state
    rw [htalks.1.regs, hmachine]
  have hnext : e.advance.advance = start e.advance.state := by
    rw [advance, hreturned]
  rw [hnext, start_phase, hregs, hrunning]
  rfl

structure BreakTransparent (H : η → η → Prop) (s : Hosted β σ η) (n : Nat) : Prop where
  leaves : (calls s n).BreaksPass → ∃ j,
    (calls s (n + 1)).state.machine = { (calls s n).spared.state.machine with journal := j }
  resumes : (calls s n).BreaksPass → Host.isNested (calls s (n + 1)).state.host = false →
    (calls s (n + 2)).phase = .opcode
  phase : Phase.Alike (calls s n).phase (uncut s (place s n)).phase ∨
    (uncut s (place s n)).phase = .opcode ∧
      ((calls s n).phase = .returned ∨ (calls s n).phase = .special)
  outcome : Machine.SameOutcome Event.uncut? Eq s.machine (calls s n).state.machine
    s.machine (uncut s (place s n)).state.machine
  host : H (calls s n).state.host (uncut s (place s n)).state.host

/-- Calls that breaks end at the end of passes do together what one call does in which no break is
found. -/
theorem break_transparent (hH : Host.AnswersAlike H)
    (hpoll : ∀ h : η, H h (Host.checkForBreak h).2)
    (hclock : s.machine.settings.deadManTimeoutMs ≠ none → Host.ClockAside H)
    (hooks : s.machine.hooks.Respects Registers.KeepsStop) (n : Nat)
    (hidle : ∀ k < n, ¬ (calls s k).BreaksIdle) : BreakTransparent H s n := by
  have hfollows := calls_follows hH hpoll hclock hooks n hidle
  have hstate : Hosted.Alike (.uncut s.machine) H (calls s n).state
      (uncut s (place s n)).state := by
    cases hfollows with
    | together h => exact h.state
    | cut h | looks h => exact h
  exact {
    leaves := BreaksPass.machine
    resumes := BreaksPass.resumes hH hpoll (calls_respects hooks n)
    phase := by
      cases hfollows with
      | together h => exact .inl h.phase
      | cut h hphase hu => exact .inr ⟨hu.opcode, .inl hphase⟩
      | looks h hphase hu => exact .inr ⟨hu.opcode, .inr hphase⟩
    outcome := hstate.machine.outcome rfl rfl
    host := hstate.host }

def impatient : Hosted Ram Nat Host.Stuck :=
  let ram := (Ram.ofSize 256).loadWords 0xA0 [0x4E71, 0x4E71, 0x4E71]
  ⟨(Machine.ofSettings Settings.default ram 0).setRegister .pc 0xA0, { limit := 1 }⟩

theorem break_transparent_impatient :
    (calls impatient 1).BreaksPass ∧ (calls impatient 4).BreaksPass ∧
      place impatient 6 = 4 ∧ (calls impatient 6).state.machine.regs.pc = 0xA4 ∧
      BreakTransparent Eq impatient 6 := by
  have hphases : ∀ k < 6, (calls impatient k).phase = .opcode ∨
      (calls impatient k).phase = .special ∨ (calls impatient k).phase = .returned := by
    decide +kernel
  have hidle : ∀ k < 6, ¬ (calls impatient k).BreaksIdle := by
    rintro k hk ⟨watch, hwatch, -⟩
    have hphase := hphases k hk
    rw [hwatch] at hphase
    simp at hphase
  have hbreaks : ∀ k, k = 1 ∨ k = 4 → (calls impatient k).BreaksPass := by
    rintro k (rfl | rfl)
    · exact ⟨by decide +kernel, by decide +kernel⟩
    · exact ⟨by decide +kernel, by decide +kernel⟩
  have hooks : impatient.machine.hooks.Respects Registers.KeepsStop :=
    fun _ _ he => absurd he List.not_mem_nil
  exact ⟨hbreaks 1 (.inl rfl), hbreaks 4 (.inr rfl), by decide +kernel, by decide +kernel,
    break_transparent .eq (fun _ => rfl) (fun _ _ => rfl) hooks 6 hidle⟩

end Execution
end Mc68000
