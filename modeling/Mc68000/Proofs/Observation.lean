import Mc68000.Machine.Control
import Mc68000.Memory.Ram
import Mc68000.Proofs.HostLikeness

/-!
# Observation does not perturb

Histories, the dead man's switch, the warning of the stack guard and the hooks that only watch are
there for an observer. A run with them is the run without them: neither the program nor the host can
tell.
-/

namespace Mc68000

/-- What is left of an event without its observers. All but the readings of the clock is left of the
calls of the host. -/
def Event.unwatched? : Event → Option Event
  | .fetch r => some (.fetch r.packStatus)
  | .hook handle (.exception v) => some (.hook handle (.exception v))
  | .hook .. | .stackLow .. | .overdue .. | .host (.nowMillis _) => none
  | e => some e

structure Host.Timeless {η : Type} [Host η] (H : η → η → Prop) : Prop extends
    Host.AnswersAlike H where
  checkForBreak {h h' : η} : H h h' → Same H (Host.checkForBreak h) (Host.checkForBreak h')
  clock : ClockAside H

theorem Host.Timeless.eq {η : Type} [Host η] (h : ∀ h : η, (Host.nowMillis h).2 = h) :
    Host.Timeless (Eq : η → η → Prop) where
  toAnswersAlike := .eq
  checkForBreak := by
    rintro h _ rfl
    exact ⟨rfl, rfl⟩
  clock h' := (h h').symm

/-- The hooks that watch do not let exception hooks know: they keep what the hooks share in one
class of `S`, and the classes are all that exception hooks see of it. -/
structure Registry.KeepsToItself {β σ : Type} (S : σ → σ → Prop) (r : Registry β σ) : Prop where
  watches : ∀ call : HookCall, call.intercepts = false → ∀ l ∈ r.listeners call, ∀ s : Scene β σ,
    S s.observers (l.run s).2.observers
  intercepts : ∀ v, ∀ e ∈ (r.exception v).entries, ∀ (s : Scene β σ) o, S s.observers o →
    let done := e.value v s
    let done' := e.value v { s with observers := o }
    done'.1 = done.1 ∧ done'.2.registers = done.2.registers ∧ done'.2.bus = done.2.bus ∧
      S done.2.observers done'.2.observers

structure Machine.SameUnwatched {β σ : Type} (S : σ → σ → Prop) (m m' : Machine β σ) : Prop where
  regs : m.regs.Alike m'.regs
  bus : m'.bus = m.bus
  settings : ∃ registers exceptions timeout, m'.settings = { m.settings with
    registerHistory := registers, exceptionHistory := exceptions, deadManTimeoutMs := timeout }
  exception : m'.hooks.exception = m.hooks.exception
  observers : S m.observers m'.observers
  cycles : m'.cycles = m.cycles
  slowCounter : m'.slowCounter = m.slowCounter
  lastTraceAddress : m'.lastTraceAddress = m.lastTraceAddress
  lastFault : m'.lastFault = m.lastFault
  guard : ∃ bound warned, m'.guard = { m.guard with lowWarn := bound, warned := warned }

def Comparison.unwatched {σ : Type} (S : σ → σ → Prop) (before before' : List Event) :
    Comparison σ where
  seen := Event.unwatched?
  observers := S
  before := before
  before' := before'
  clock := True
  seen_fetch _ _ := rfl
  seen_stackLow _ _ := rfl
  seen_nowMillis _ := rfl
  seen_overdue _ _ _ := rfl

namespace Machine
variable {β σ : Type} {S : σ → σ → Prop}

theorem foldl_callHook_keeps (hS : Equivalence S) (call : HookCall)
    (ls : List (Registry.Listener β σ))
    (hls : ∀ l ∈ ls, ∀ s : Scene β σ, S s.observers (l.run s).2.observers)
    (before : Bool × Machine β σ) :
    S before.2.observers (ls.foldl (callHook call) before).2.observers := by
  induction ls generalizing before with
  | nil => exact hS.refl _
  | cons l ls ih =>
    have hl : S before.2.observers (callHook call before l).2.observers :=
      hls l List.mem_cons_self before.2.scene
    exact hS.trans hl (ih (fun k hk => hls k (List.mem_cons_of_mem _ hk)) _)

theorem notify_keeps (hS : Equivalence S) {m : Machine β σ} (hm : m.hooks.KeepsToItself S)
    {call : HookCall} (hc : call.intercepts = false) :
    S m.observers (m.notify call).observers :=
  foldl_callHook_keeps hS call _ (hm.watches call hc) (false, m)

theorem notify_unwatched (m : Machine β σ) {call : HookCall} (hc : call.intercepts = false) :
    ∃ es, (m.notify call).journal = es ++ m.journal ∧ ∀ e ∈ es, e.unwatched? = none := by
  obtain ⟨o, es, hm, hes⟩ := notify_eq m hc
  refine ⟨es, by rw [hm], fun e he => ?_⟩
  obtain ⟨handle, rfl⟩ := hes e he
  cases call with
  | exception v => cases hc
  | _ => rfl

end Machine

namespace Registry.KeepsToItself
variable {β σ : Type} {S : σ → σ → Prop} {r r' : Registry β σ}

theorem alike (hS : Equivalence S) (h : r.KeepsToItself S) (h' : r'.KeepsToItself S)
    (hsame : r'.exception = r.exception) (before before' : List Event) :
    Registry.Alike (.unwatched S before before') r r' where
  exception := hsame
  impartial v l hl := by
    simp only [listeners, listenersOf, List.mem_map] at hl
    obtain ⟨e, he, rfl⟩ := hl
    exact h.intercepts v e he
  observes call hc m m' hm hm' hobservers hnews := by
    subst hm hm'
    obtain ⟨es, hj, hes⟩ := m.notify_unwatched hc
    obtain ⟨es', hj', hes'⟩ := m'.notify_unwatched hc
    refine ⟨hS.trans (hS.symm (Machine.notify_keeps hS h hc))
      (hS.trans hobservers (Machine.notify_keeps hS h' hc)), ?_⟩
    rw [hj, hj']
    exact hnews.append es es' ((List.filterMap_eq_nil_iff.mpr hes').trans
      (List.filterMap_eq_nil_iff.mpr hes).symm)

end Registry.KeepsToItself

theorem Machine.SameUnwatched.alike {β σ : Type} {S : σ → σ → Prop} {m m' : Machine β σ}
    (hS : Equivalence S) (hm : m.hooks.KeepsToItself S) (hm' : m'.hooks.KeepsToItself S)
    (h : m.SameUnwatched S m') : m.Alike (.unwatched S m.journal m'.journal) m' := by
  obtain ⟨_, _, _, hsettings⟩ := h.settings
  obtain ⟨_, _, hguard⟩ := h.guard
  exact {
    regs := h.regs
    bus := h.bus
    slowCycleMask := by rw [hsettings]
    idleTickCycles := by rw [hsettings]
    timeouts := .inl trivial
    hooks := hm.alike hS hm' h.exception _ _
    observers := h.observers
    cycles := h.cycles
    slowCounter := h.slowCounter
    lastTraceAddress := h.lastTraceAddress
    lastFault := h.lastFault
    low := by rw [hguard]
    overflowed := by rw [hguard]
    news := ⟨[], [], rfl, rfl, rfl⟩ }

namespace Execution
variable {β σ η : Type} [Host η] {c : Comparison σ} {S : σ → σ → Prop} {H : η → η → Prop}

theorem checkForBreak_agrees (hH : Host.Timeless H) {s s' : Hosted β σ η}
    (h : Hosted.Alike c H s s') : Hosted.Agrees c H s.checkForBreak s'.checkForBreak := by
  rw [Hosted.checkForBreak_eq, Hosted.checkForBreak_eq, h.machine.pending]
  split
  · exact .intro _ ⟨h.machine.mapPending _, h.host⟩
  · exact h.consult _ _ (hH.checkForBreak h.host)

variable {e e' : Execution β σ η}

theorem Meets.unwatched (hH : Host.Timeless H)
    (h : Meets c H Hosted.checkForBreak Hosted.checkForBreak e e') : Alike c H e e' := by
  cases h with
  | alike h => exact h
  | pass watch watch' ht =>
    have hbreak := checkForBreak_agrees hH ht
    refine ⟨hbreak.snd, ?_⟩
    simp only [endPass]
    rw [hbreak.fst]
    split
    · exact .returned
    · exact .opcode

variable [Bus β]

theorem step_alike (hH : Host.Timeless H) (h : Alike c H e e') :
    Alike c H (e.step ControlInstructions.table) (e'.step ControlInstructions.table) := by
  have hclock : c.clock → Host.ClockAside H := fun _ => hH.clock
  obtain ⟨hstate, hphase⟩ := h
  simp only [step]
  generalize hp : e.phase = phase, hp' : e'.phase = phase' at hphase ⊢
  cases hphase with
  | opcode => exact opcodeStep_alike hH.toAnswersAlike hclock hstate
  | special => exact (specialStepWith_meets hH.toAnswersAlike hclock hstate).unwatched hH
  | idle watch watch' =>
    have hwoken := (ticked_alike hH.toAnswersAlike hclock hstate watch watch').idleInterrupt
      hH.toAnswersAlike
    exact (idleStepWith_meets hH.toAnswersAlike (checkForBreak_agrees hH hwoken)).unwatched hH
  | returned => exact ⟨hstate, by rw [hp, hp']; exact .returned⟩

theorem advance_alike (hH : Host.Timeless H) (h : Alike c H e e') :
    Alike c H e.advance e'.advance := by
  have hstep := step_alike hH h
  have hstart := start_alike hH.toAnswersAlike (fun _ => hH.clock) h.state
  obtain ⟨-, hphase⟩ := h
  simp only [advance]
  generalize e.phase = phase, e'.phase = phase' at hphase ⊢
  cases hphase with
  | returned => exact hstart
  | opcode | special | idle watch watch' => exact hstep

theorem calls_alike (hH : Host.Timeless H) {s s' : Hosted β σ η} (h : Hosted.Alike c H s s')
    (n : Nat) : Alike c H (calls s n) (calls s' n) := by
  induction n with
  | zero => exact start_alike hH.toAnswersAlike (fun _ => hH.clock) h
  | succ n ih => exact advance_alike hH ih

/-- Histories, the dead man's switch, the warning of the stack guard and hooks that watch change
nothing of what a sequence of calls does, or of what the host is called for but the time. -/
theorem observation_unnoticed (hS : Equivalence S) (hH : Host.Timeless H) {s s' : Hosted β σ η}
    (hooks : s.machine.hooks.KeepsToItself S) (hooks' : s'.machine.hooks.KeepsToItself S)
    (hmachine : s.machine.SameUnwatched S s'.machine) (hhost : H s.host s'.host) (n : Nat) :
    Phase.Alike (calls s n).phase (calls s' n).phase ∧
      Machine.SameOutcome Event.unwatched? S s.machine (calls s n).state.machine
        s'.machine (calls s' n).state.machine := by
  obtain ⟨hstate, hphase⟩ := calls_alike hH ⟨hmachine.alike hS hooks hooks', hhost⟩ n
  exact ⟨hphase, hstate.machine.outcome rfl rfl⟩

def unwatched : Hosted Ram Nat Host.Stuck :=
  let ram := ((Ram.ofSize 256).loadWords 0xA0 [0x4EB9, 0x0000, 0x00B0]).loadWords 0xB0
    [0x4E75]
  let m := Machine.ofSettings Settings.default ram 0
  ⟨(m.setRegister .sp 0x100).setRegister .pc 0xA0, {}⟩

def watched : Hosted Ram Nat Host.Stuck :=
  let settings := { Settings.default with
    registerHistory := 4, exceptionHistory := 4, deadManTimeoutMs := some 10 }
  let m := { unwatched.machine with
    settings := settings
    registerHistory := History.ofCapacity 4
    exceptionHistory := History.ofCapacity 4
    guard := ⟨0x200, 0, false, false⟩ }
  let m := (m.installHook (.jsr fun _ _ n => (true, n + 1))).2
  ⟨(m.installHook (.newSp fun _ n => n + 1)).2, {}⟩

theorem observation_unnoticed_watched :
    unwatched.machine.hooks.KeepsToItself (fun _ _ => True) ∧
      watched.machine.hooks.KeepsToItself (fun _ _ => True) ∧
      unwatched.machine.SameUnwatched (fun _ _ => True) watched.machine ∧
      (calls watched 2).state.machine.observers = 3 ∧
      (calls watched 2).state.machine.registerHistory.length = 2 ∧
      Phase.Alike (calls unwatched 2).phase (calls watched 2).phase ∧
      Machine.SameOutcome Event.unwatched? (fun _ _ => True) unwatched.machine
        (calls unwatched 2).state.machine watched.machine (calls watched 2).state.machine := by
  have hS : Equivalence fun _ _ : Nat => True :=
    ⟨fun _ => trivial, fun _ => trivial, fun _ _ => trivial⟩
  have hooks : unwatched.machine.hooks.KeepsToItself fun _ _ => True :=
    ⟨fun _ _ _ _ _ => trivial, fun _ _ he => absurd he List.not_mem_nil⟩
  have hooks' : watched.machine.hooks.KeepsToItself fun _ _ => True :=
    ⟨fun _ _ _ _ _ => trivial, fun _ _ he => absurd he List.not_mem_nil⟩
  have hmachine : unwatched.machine.SameUnwatched (fun _ _ => True) watched.machine :=
    ⟨⟨_, rfl⟩, rfl, ⟨_, _, _, rfl⟩, rfl, trivial, rfl, rfl, rfl, rfl, ⟨_, _, rfl⟩⟩
  exact ⟨hooks, hooks', hmachine, by decide +kernel, by decide +kernel,
    observation_unnoticed hS (.eq fun _ => rfl) hooks hooks' hmachine rfl 2⟩

end Execution
end Mc68000
