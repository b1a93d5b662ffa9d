import Mc68000.Proofs.Additions
import Mc68000.Proofs.Frame
import Mc68000.Proofs.Registry

/-!
# Hooks on an exception

Every hook on the vector is called, one after the other, each on what the one before it left. One
of them is enough to take the exception over, and then nothing is done but what the hooks did. If
none does, the frame is made from what they left.
-/

namespace Mc68000
variable {β σ : Type}

/-- Each hook of a list is called once, on the scene that the one before it left; with the answers,
and the scene in the end. -/
inductive Intercepts (v : ExceptionVector) :
    List (ExceptionHook β σ) → Scene β σ → List Bool → Scene β σ → Prop
  | done (s : Scene β σ) : Intercepts v [] s [] s
  | called {f : ExceptionHook β σ} {fs s answers left}
    (rest : Intercepts v fs (f v s).2 answers left) :
    Intercepts v (f :: fs) s ((f v s).1 :: answers) left

namespace Intercepts
variable {v : ExceptionVector} {fs : List (ExceptionHook β σ)} {s left left' : Scene β σ}
  {answers answers' : List Bool}

theorem exists_left (v : ExceptionVector) (fs : List (ExceptionHook β σ)) (s : Scene β σ) :
    ∃ answers left, Intercepts v fs s answers left := by
  induction fs generalizing s with
  | nil => exact ⟨[], s, .done s⟩
  | cons f fs ih =>
    obtain ⟨answers, left, h⟩ := ih (f v s).2
    exact ⟨_, left, .called h⟩

theorem keeps {P : Scene β σ → Prop} (hP : ∀ f ∈ fs, ∀ s, P s → P (f v s).2)
    (h : Intercepts v fs s answers left) (hs : P s) : P left := by
  induction h with
  | done s => exact hs
  | called _ ih =>
    exact ih (fun f hf => hP f (List.mem_cons_of_mem _ hf)) (hP _ List.mem_cons_self _ hs)

end Intercepts

namespace Registry

def interceptors (r : Registry β σ) (v : ExceptionVector) :
    List (HookHandle × ExceptionHook β σ) :=
  (r.exception v).entries.map fun e => (handle .exception v e, e.value)

theorem registrations_exception (r : Registry β σ) (v : ExceptionVector) :
    r.registrations (.exception v) =
      (r.interceptors v).map fun x => (x.1, Hook.exception v x.2) := by
  simp only [registrations, list, SlotList.entries_map, interceptors, List.map_map]
  rfl

theorem listeners_exception (r : Registry β σ) (v : ExceptionVector) :
    r.listeners (.exception v) = (r.interceptors v).map fun x => ⟨x.1, x.2 v⟩ := by
  simp only [listeners, listenersOf, interceptors, List.map_map]
  rfl

theorem calls_exception (r : Registry β σ) (v : ExceptionVector) :
    r.calls (.exception v) =
      (r.interceptors v).map fun x => Event.hook x.1 (.exception v) := by
  rw [calls, listeners_exception, List.map_map]
  rfl

end Registry

namespace Machine
variable {m : Machine β σ} {v : ExceptionVector} {answers : List Bool} {left : Scene β σ}

theorem foldl_callHook_intercepts {xs : List (HookHandle × ExceptionHook β σ)}
    {before : Bool × Machine β σ}
    (h : Intercepts v (xs.map Prod.snd) before.2.scene answers left) :
    (xs.map fun x => (⟨x.1, x.2 v⟩ : Registry.Listener β σ)).foldl
        (callHook (.exception v)) before =
      (before.1 || answers.any id,
        { before.2.withScene left with
          journal :=
            (xs.map fun x => Event.hook x.1 (.exception v)).reverse ++ before.2.journal }) := by
  induction xs generalizing before answers with
  | nil =>
    cases h
    simp only [List.map_nil, List.foldl_nil, List.any_nil, Bool.or_false]
    rfl
  | cons x xs ih =>
    cases h with
    | @called _ _ _ answers _ rest =>
      have hnext := @ih answers (callHook (.exception v) before ⟨x.1, x.2 v⟩) rest
      rw [List.map_cons, List.foldl_cons, hnext, List.any_cons, ← Bool.or_assoc, List.map_cons,
        List.reverse_cons, List.append_assoc]
      rfl

def intercepted (m : Machine β σ) (v : ExceptionVector) (left : Scene β σ) : Machine β σ :=
  { m with
    regs := left.registers
    bus := left.bus
    observers := left.observers
    exceptionHistory := m.exceptionHistory.push ⟨v, m.regs.pc, m.regs.sp⟩
    journal := (m.hooks.calls (.exception v)).reverse ++
      .exception ⟨v, m.regs.pc, m.regs.sp⟩ :: m.journal }

/-- What the first hook sees: SR is freshly packed, and nothing else has changed. -/
def packedScene (m : Machine β σ) : Scene β σ := ⟨m.regs.packStatus, m.bus, m.observers⟩

theorem interceptException_eq
    (h : Intercepts v ((m.hooks.interceptors v).map Prod.snd) m.packedScene answers left) :
    m.interceptException v = (answers.any id, m.intercepted v left) := by
  let before := (false, (m.mapRegs Registers.packStatus).recordException v)
  have hbefore : Intercepts v ((m.hooks.interceptors v).map Prod.snd) before.2.scene answers
    left := h
  have hfold := foldl_callHook_intercepts hbefore
  rw [← Registry.calls_exception] at hfold
  rw [interceptException, callHooks]
  exact (congrArg (List.foldl _ _) (m.hooks.listeners_exception v)).trans hfold

variable [Bus β]

theorem takeException_of_handled
    (h : Intercepts v ((m.hooks.interceptors v).map Prod.snd) m.packedScene answers left)
    (hanswers : true ∈ answers) :
    m.takeException v = (m.intercepted v left).log (.exceptionHandled v) := by
  have hany : answers.any id = true := List.any_eq_true.mpr ⟨true, hanswers, rfl⟩
  rw [takeException_eq, interceptException_eq h, hany]
  rfl

theorem takeException_of_not_handled
    (h : Intercepts v ((m.hooks.interceptors v).map Prod.snd) m.packedScene answers left)
    (hanswers : true ∉ answers) :
    m.takeException v = (m.intercepted v left).enterException v := by
  have hany : answers.any id = false := by
    rw [List.any_eq_false]
    intro answer hanswer htrue
    exact hanswers (htrue ▸ hanswer)
  rw [takeException_eq, interceptException_eq h, hany]
  rfl

/-- The exception from the scene that the hooks left; the frame gets the packed word. -/
def leftEntry (v : ExceptionVector) (left : Scene β σ) : Entry β :=
  ⟨v, left.registers.sr, left.registers.pc, left.registers.supervisorSp - v.frameSize, left.bus⟩

theorem regs_enterException (m : Machine β σ) (v : ExceptionVector) :
    (m.enterException v).regs =
      { m.regs with
        a := (m.regs.setSp (leftEntry v m.scene).sp).a
        usp := m.regs.userSp
        pc := (leftEntry v m.scene).handler m.regs.vbr
        status := m.regs.status.inHandler
        pending := m.regs.pending.withoutTrace } := by
  rw [enterException_eq, regs_enterHandler, vbr_withFrame, regs_withFrame, bus_withFrame]
  exact m.regs.dropTrace_enterSupervisor _ _

theorem exceptionHistory_enterException (m : Machine β σ) (v : ExceptionVector) :
    (m.enterException v).exceptionHistory = m.exceptionHistory := by
  rw [enterException_eq, exceptionHistory_enterHandler, withFrame, exceptionHistory_checkStack,
    exceptionHistory_pushFrame]
  rfl

def withHooks (m : Machine β σ) (r : Registry β σ) : Machine β σ := { m with hooks := r }

omit [Bus β] in
theorem foldl_callHook_withHooks (call : HookCall) (r : Registry β σ)
    (ls : List (Registry.Listener β σ)) (answer : Bool) (m : Machine β σ) :
    ls.foldl (callHook call) (answer, m.withHooks r) =
      ((ls.foldl (callHook call) (answer, m)).1,
        (ls.foldl (callHook call) (answer, m)).2.withHooks r) := by
  induction ls generalizing answer m with
  | nil => rfl
  | cons l ls ih =>
    rw [List.foldl_cons, List.foldl_cons]
    exact ih _ (callHook call (answer, m) l).2

omit [Bus β] in
theorem callHooks_withHooks {r : Registry β σ} {call : HookCall}
    (h : r.listeners call = m.hooks.listeners call) :
    (m.withHooks r).callHooks call =
      ((m.callHooks call).1, (m.callHooks call).2.withHooks r) := by
  have hlisteners : (m.withHooks r).hooks.listeners call = m.hooks.listeners call := h
  rw [callHooks, hlisteners]
  exact foldl_callHook_withHooks call r _ false m

omit [Bus β] in
theorem checkStack_withHooks (m : Machine β σ) (r : Registry β σ) :
    (m.withHooks r).checkStack = m.checkStack.withHooks r := by
  rw [checkStack_eq, checkStack_eq]
  rfl

theorem pushFrame_withHooks (m : Machine β σ) (r : Registry β σ) (v : ExceptionVector)
    (sr : UInt16) (pc : UInt32) :
    (m.withHooks r).pushFrame v sr pc = (m.pushFrame v sr pc).withHooks r := by
  simp only [pushFrame]
  split <;> rfl

theorem jump_withHooks {r : Registry β σ} {pc : UInt32}
    (h : r.listeners (.newPc pc) = m.hooks.listeners (.newPc pc)) :
    (m.withHooks r).jump pc = (m.jump pc).withHooks r := by
  rw [jump, announcePc, notify, callHooks_withHooks h]
  rfl

theorem withFrame_withHooks (m : Machine β σ) (r : Registry β σ) (v : ExceptionVector) :
    (m.withHooks r).withFrame v = (m.withFrame v).withHooks r := by
  let n := (m.log (.exceptionTaken v m.regs.pc)).mapRegs Registers.enterSupervisor
  have hframe : (m.withHooks r).withFrame v =
      ((n.withHooks r).pushFrame v m.regs.sr m.regs.pc).checkStack := rfl
  rw [hframe, pushFrame_withHooks, checkStack_withHooks]
  rfl

theorem enterHandler_withHooks {r : Registry β σ}
    (h : ∀ pc, r.listeners (.newPc pc) = m.hooks.listeners (.newPc pc)) (v : ExceptionVector) :
    (m.withHooks r).enterHandler v = (m.enterHandler v).withHooks r := by
  let vector := m.readVector (ExceptionVector.entryAddress m.regs.vbr v)
  have hjump : (vector.2.withHooks r).jump vector.1 = (vector.2.jump vector.1).withHooks r :=
    jump_withHooks (h vector.1)
  have henter : (m.withHooks r).enterHandler v =
      ((vector.2.withHooks r).jump vector.1).mapRegs dropTrace := rfl
  rw [henter, hjump]
  rfl

theorem takeException_withHooks {r : Registry β σ} (hvector : r.exception v = m.hooks.exception v)
    (hpc : r.newPc = m.hooks.newPc) :
    (m.withHooks r).takeException v = (m.takeException v).withHooks r := by
  let n := (m.mapRegs Registers.packStatus).recordException v
  have hlisteners : r.listeners (.exception v) = n.hooks.listeners (.exception v) := by
    simp only [Registry.listeners, hvector]
    rfl
  have hcalled : (m.withHooks r).interceptException v =
      ((m.interceptException v).1, (m.interceptException v).2.withHooks r) :=
    callHooks_withHooks hlisteners
  have hentered : ∀ k : Machine β σ, k.hooks = m.hooks →
      (k.withHooks r).enterException v = (k.enterException v).withHooks r := by
    intro k hk
    obtain ⟨es, hframe, -⟩ := k.withFrame_adds v
    rw [enterException_eq, withFrame_withHooks, enterException_eq]
    apply enterHandler_withHooks
    intro pc
    simp only [Registry.listeners, hframe.hooks, hk, hpc]
  rw [takeException_eq, takeException_eq, hcalled]
  split
  · rfl
  · exact hentered _ (m.interceptException_adds v).hooks

end Machine

def Event.interception? : Event → Option (HookHandle × ExceptionVector)
  | .hook h (.exception v) => some (h, v)
  | _ => none

namespace Registry

theorem interceptions_calls (r : Registry β σ) (v : ExceptionVector) :
    (r.calls (.exception v)).filterMap Event.interception? =
      (r.interceptors v).map fun x => (x.1, v) := by
  rw [calls_exception, List.filterMap_map, ← List.filterMap_eq_map]
  rfl

theorem interceptions_announcement (r : Registry β σ) (pc : UInt32) :
    (r.announcement pc).filterMap Event.interception? = [] := by
  rw [announcement, calls, List.filterMap_append, List.filterMap_map]
  simp [Event.interception?, Function.comp_def]

end Registry

theorem Event.interception_guard {e : Event} (he : e.ofGuard = true) : e.interception? = none := by
  cases e <;> first | rfl | cases he

namespace Machine
variable [Bus β] {m : Machine β σ} {v : ExceptionVector} {answers : List Bool} {left : Scene β σ}

/-- What an exception comes to, with the answers of the hooks and the scene they left. -/
structure Intercepted (m : Machine β σ) (v : ExceptionVector) (answers : List Bool)
    (left : Scene β σ) : Prop where
  runs : Intercepts v ((m.hooks.interceptors v).map Prod.snd) m.packedScene answers left
  handled : true ∈ answers → m.takeException v =
    { m with
      regs := left.registers
      bus := left.bus
      observers := left.observers
      exceptionHistory := m.exceptionHistory.push ⟨v, m.regs.pc, m.regs.sp⟩
      journal := .exceptionHandled v :: ((m.hooks.calls (.exception v)).reverse ++
        .exception ⟨v, m.regs.pc, m.regs.sp⟩ :: m.journal) }
  regs : true ∉ answers → (m.takeException v).regs =
    { left.registers with
      a := (left.registers.setSp (left.registers.supervisorSp - v.frameSize)).a
      usp := left.registers.userSp
      pc := (leftEntry v left).handler left.registers.vbr
      status := left.registers.status.inHandler
      pending := left.registers.pending.withoutTrace }
  bus : true ∉ answers →
    (m.takeException v).bus = (leftEntry v left).entered left.registers.vbr
  record : true ∉ answers → (m.takeException v).exceptionHistory =
    m.exceptionHistory.push ⟨v, m.regs.pc, m.regs.sp⟩
  journal : true ∉ answers → ∃ es, Adds m (m.takeException v)
    (.exception ⟨v, m.regs.pc, m.regs.sp⟩ :: m.hooks.calls (.exception v) ++
      (.exceptionTaken v left.registers.pc :: es ++
        m.hooks.announcement (m.takeException v).regs.pc)) ∧ ∀ e ∈ es, e.ofGuard = true
  calls : Shows Event.interception? m (m.takeException v)
    ((m.hooks.interceptors v).map fun x => (x.1, v))
  others : ∀ r : Registry β σ, r.exception v = m.hooks.exception v → r.newPc = m.hooks.newPc →
    (m.withHooks r).takeException v = (m.takeException v).withHooks r
  order : ∀ issued removed, Registry.Run m.hooks issued removed → Registry.Few issued →
    ((m.hooks.interceptors v).map fun x => (x.1, Hook.exception v x.2)) =
      (Registry.live issued removed).filter fun x => x.2.point = .exception v

theorem takeException_adds
    (h : Intercepts v ((m.hooks.interceptors v).map Prod.snd) m.packedScene answers left)
    (hanswers : true ∉ answers) :
    ∃ es, Adds m (m.takeException v)
      (.exception ⟨v, m.regs.pc, m.regs.sp⟩ :: m.hooks.calls (.exception v) ++
        (.exceptionTaken v left.registers.pc :: es ++
          m.hooks.announcement (m.takeException v).regs.pc)) ∧ ∀ e ∈ es, e.ofGuard = true := by
  have hadds := m.interceptException_adds v
  rw [interceptException_eq h] at hadds
  obtain ⟨es, hes, hguard⟩ := (m.intercepted v left).enterException_adds v
  rw [takeException_of_not_handled h hanswers]
  exact ⟨es, hadds.trans hes, hguard⟩

theorem takeException_interceptions
    (h : Intercepts v ((m.hooks.interceptors v).map Prod.snd) m.packedScene answers left) :
    Shows Event.interception? m (m.takeException v)
      ((m.hooks.interceptors v).map fun x => (x.1, v)) := by
  by_cases hanswers : true ∈ answers
  · have hadds := m.interceptException_adds v
    rw [interceptException_eq h] at hadds
    have hshows := (hadds.trans (.log _ (.exceptionHandled v))).shows Event.interception?
    rw [takeException_of_handled h hanswers]
    simpa [List.filterMap_cons, Event.interception?, Registry.interceptions_calls] using hshows
  · obtain ⟨es, hadds, hguard⟩ := takeException_adds h hanswers
    have hes : es.filterMap Event.interception? = [] :=
      List.filterMap_eq_nil_iff.mpr fun e he => Event.interception_guard (hguard e he)
    simpa [List.filterMap_cons, Event.interception?, Registry.interceptions_calls,
      Registry.interceptions_announcement, hes] using hadds.shows Event.interception?

/-- All hooks on the vector run once, in the order of registration, whatever they answer, and no
hook on another vector does. With one that answers yes the exception ends there, with none it goes
on from what they left. -/
theorem takeException_intercepted (m : Machine β σ) (v : ExceptionVector) :
    ∃ answers left, m.Intercepted v answers left := by
  obtain ⟨answers, left, h⟩ :=
    Intercepts.exists_left v ((m.hooks.interceptors v).map Prod.snd) m.packedScene
  refine ⟨answers, left, ?_⟩
  constructor
  case runs => exact h
  case handled => exact takeException_of_handled h
  case regs =>
    intro hanswers
    rw [takeException_of_not_handled h hanswers]
    exact regs_enterException _ v
  case bus =>
    intro hanswers
    rw [takeException_of_not_handled h hanswers]
    exact bus_enterException _ v
  case record =>
    intro hanswers
    rw [takeException_of_not_handled h hanswers]
    exact exceptionHistory_enterException _ v
  case journal => exact takeException_adds h
  case calls => exact takeException_interceptions h
  case others =>
    intro r hvector hpc
    exact takeException_withHooks hvector hpc
  case order =>
    intro issued removed hrun hfew
    rw [← Registry.registrations_exception]
    exact (hrun.tracked hfew).registrations (.exception v)

end Machine
end Mc68000
