import Mc68000.Machine.Exception

/-!
# What an operation may do to a machine

An operation is judged by the events it adds to the journal and by a relation of the register files
before and after it. Everything else that later arguments lean on is the same for all operations of
a running processor: hooks and settings stay, an overflow that was noticed is not forgotten, and the
trace address changes only when the trace exception is armed.
-/

namespace Mc68000

namespace Registers
variable {R : Registers → Registers → Prop}

/-- The relation holds across all that an exception does to the registers. -/
structure KeptByException (R : Registers → Registers → Prop) : Prop where
  refl : ∀ r, R r r
  trans : ∀ {a b c}, R a b → R b c → R a c
  pc : ∀ r v, R r { r with pc := v }
  address : ∀ r (i : Nat) (h : i < 8) v, R r { r with a := r.a.set i v h }
  pack : ∀ r, R r r.packStatus
  supervisor : ∀ r, R r r.enterSupervisor
  dropTrace : ∀ r, R r (Machine.dropTrace r)
  breakRequest : ∀ r, R r (r.mapPending fun p => { p with breakRequest := true })

structure KeptByHousekeeping (R : Registers → Registers → Prop) : Prop extends
    KeptByException R where
  interruptCheck : ∀ r, R r (r.mapPending fun p => { p with interruptCheck := true })
  endOfCycle : ∀ r b, R r (r.mapPending fun p => { p with endOfCycle := b })

structure KeptByOpcode (R : Registers → Registers → Prop) : Prop extends
    KeptByHousekeeping R where
  load : ∀ r w, R r (r.loadStatus w)

/-- The relation holds across all that exceptions, instructions and housekeeping do to the
registers. Setting STOP, arming the trace, waking up and using up a condition are not among it. -/
structure Kept (R : Registers → Registers → Prop) : Prop extends KeptByOpcode R where
  mask : ∀ r level, R r ((r.setMask level).mapPending fun p => { p with interruptCheck := true })
  interruptDue :
    ∀ r, R r (r.mapPending fun p => { p with interruptCheck := false, interruptDue := true })

-- What is kept by more is kept by less: a lemma asks for no more than it needs.
instance : Coe (KeptByHousekeeping R) (KeptByException R) := ⟨fun h => h.toKeptByException⟩

instance : Coe (KeptByOpcode R) (KeptByHousekeeping R) := ⟨fun h => h.toKeptByHousekeeping⟩

instance : Coe (Kept R) (KeptByOpcode R) := ⟨fun h => h.toKeptByOpcode⟩

theorem kept_true : Kept fun _ _ => True := by
  repeat' constructor
  all_goals intros; trivial

end Registers

def Registry.Respects {β σ : Type} (r : Registry β σ) (R : Registers → Registers → Prop) : Prop :=
  ∀ v, ∀ e ∈ (r.exception v).entries, ∀ s : Scene β σ, R s.registers (e.value v s).2.registers

theorem Registry.respects_true {β σ : Type} (r : Registry β σ) : r.Respects fun _ _ => True :=
  fun _ _ _ _ => trivial

theorem Registry.Respects.mono {β σ : Type} {r : Registry β σ}
    {R S : Registers → Registers → Prop} (h : r.Respects R) (hRS : ∀ a b, R a b → S a b) :
    r.Respects S :=
  fun v e he s => hRS _ _ (h v e he s)

def Registry.NoInterceptors {β σ : Type} (r : Registry β σ) : Prop :=
  ∀ v, (r.exception v).entries = []

theorem Registry.NoInterceptors.respects {β σ : Type} {r : Registry β σ} (h : r.NoInterceptors)
    (R : Registers → Registers → Prop) : r.Respects R := by
  intro v e he
  rw [h v] at he
  cases he

def HookCall.intercepts : HookCall → Bool
  | .exception _ => true
  | _ => false

namespace Event

/-- Left by an exception on its way into the handler. -/
def ofException : Event → Bool
  | .hook .. | .newPc _ | .exception _ | .exceptionHandled _ | .exceptionTaken .. | .frame _
  | .stackLow .. | .stackOverflow .. => true
  | _ => false

def ofEntry : Event → Bool
  | .hook .. | .newPc _ | .exceptionHandled _ | .exceptionTaken .. | .frame _ | .stackLow ..
  | .stackOverflow .. => true
  | _ => false

def ofInstruction (e : Event) : Bool :=
  e.ofException || match e with
    | .stream .. => true
    | _ => false

def ofFault (e : Event) : Bool :=
  e.ofException || match e with
    | .fault _ | .doubleFault .. => true
    | _ => false

def ofOpcode (e : Event) : Bool :=
  e.ofInstruction || e.ofFault || match e with
    | .fetch _ | .dispatch .. => true
    | _ => false

/-- Left by talking to the host, all but the delay that begins an idle tick. -/
def ofHost : Event → Bool
  | .host .delay => false
  | .host _ | .overdue .. | .stopMasked _ | .powerPressed _ => true
  | _ => false

def ofTalk : Event → Bool
  | .host .delay | .host (.nowMillis _) | .overdue .. => false
  | e => e.ofHost

/-- Left by housekeeping, when it is not nested. -/
def ofTick : Event → Bool
  | .host (.cycle _) | .host (.takeInterruptChange _) | .host (.cycleSlowly _)
  | .host (.suspendRequested _) => true
  | _ => false

def ofAside (e : Event) : Bool := e.ofHost && !e.ofTick

def ofChat (e : Event) : Bool := e.ofTalk && !e.ofTick

def ofInterrupt (e : Event) : Bool :=
  e.ofFault || match e with
    | .interrupt .. | .interruptIgnored _ => true
    | _ => false

def ofPass (e : Event) : Bool :=
  e.ofHost || e.ofFault || match e with
    | .trace | .traceArmed _ => true
    | _ => false

section
variable {e : Event}

theorem ofException_of_ofEntry (h : e.ofEntry) : e.ofException := by
  cases e <;> simp_all [ofEntry, ofException]

theorem ofInstruction_of_ofException (h : e.ofException) : e.ofInstruction := by
  simp [ofInstruction, h]

theorem ofFault_of_ofException (h : e.ofException) : e.ofFault := by simp [ofFault, h]

theorem ofOpcode_of_ofInstruction (h : e.ofInstruction) : e.ofOpcode := by simp [ofOpcode, h]

theorem ofOpcode_of_ofFault (h : e.ofFault) : e.ofOpcode := by simp [ofOpcode, h]

theorem ofInterrupt_of_ofFault (h : e.ofFault) : e.ofInterrupt := by simp [ofInterrupt, h]

theorem ofHost_of_ofTalk (h : e.ofTalk) : e.ofHost := by
  unfold ofTalk at h
  split at h <;> simp_all

theorem of_talk {P : Event → Prop} (hP : ∀ e : Event, e.ofHost → P e) :
    ∀ e : Event, e.ofTalk → P e := fun e he => hP e (ofHost_of_ofTalk he)

theorem ofHost_of_ofAside (h : e.ofAside) : e.ofHost := (Bool.and_eq_true_iff.mp h).1

theorem ofTalk_of_ofChat (h : e.ofChat) : e.ofTalk := (Bool.and_eq_true_iff.mp h).1

theorem ofAside_of_ofChat (h : e.ofChat) : e.ofAside := by
  obtain ⟨htalk, hbetween⟩ := Bool.and_eq_true_iff.mp h
  exact Bool.and_eq_true_iff.mpr ⟨ofHost_of_ofTalk htalk, hbetween⟩

theorem of_aside {P : Event → Prop} (hP : ∀ e : Event, e.ofHost → P e) :
    ∀ e : Event, e.ofAside → P e := fun e he => hP e (ofHost_of_ofAside he)

theorem of_chat {P : Event → Prop} (hP : ∀ e : Event, e.ofTalk → P e) :
    ∀ e : Event, e.ofChat → P e := fun e he => hP e (ofTalk_of_ofChat he)

theorem ofPass_of_ofHost (h : e.ofHost) : e.ofPass := by simp [ofPass, h]

theorem ofPass_of_ofFault (h : e.ofFault) : e.ofPass := by simp [ofPass, h]

end

def isException : Event → Bool
  | .exception _ => true
  | _ => false

def isFetch : Event → Bool
  | .fetch _ => true
  | _ => false

def isFault : Event → Bool
  | .fault _ => true
  | _ => false

def isDoubleFault : Event → Bool
  | .doubleFault .. => true
  | _ => false

def isInterrupt : Event → Bool
  | .interrupt .. => true
  | _ => false

def armsTrace : Event → Bool
  | .traceArmed _ => true
  | _ => false

def isDelay : Event → Bool
  | .host .delay => true
  | _ => false

end Event

variable {β σ : Type}

/-- Only the journal changed: it has more events, of this kind. -/
def Machine.Logs (P : Event → Prop) (m m' : Machine β σ) : Prop :=
  ∃ es, m' = { m with journal := es ++ m.journal } ∧ ∀ e ∈ es, P e

def Machine.Grows (m m' : Machine β σ) : Prop := ∃ es, m'.journal = es ++ m.journal

def Machine.Logged (p : Event → Prop) (m m' : Machine β σ) : Prop :=
  ∃ es, m'.journal = es ++ m.journal ∧ ∃ e ∈ es, p e

/-- What `p` picks out of the new events is this, oldest first. -/
def Machine.Shows {α : Type} (p : Event → Option α) (m m' : Machine β σ) (as : List α) : Prop :=
  ∃ es, m'.journal = es ++ m.journal ∧ es.reverse.filterMap p = as

structure Machine.Evolves (P : Event → Prop) (R : Registers → Registers → Prop)
    (m m' : Machine β σ) : Prop where
  regs : R m.regs m'.regs
  hooks : m'.hooks = m.hooks
  settings : m'.settings = m.settings
  overflowed : m.guard.overflowed = true → m'.guard.overflowed = true
  /-- Only arming the trace exception names another address for it. -/
  traceAddress : (∀ e, P e → e.armsTrace = false) → m'.lastTraceAddress = m.lastTraceAddress
  journal : ∃ es, m'.journal = es ++ m.journal ∧ ∀ e ∈ es, P e

abbrev Machine.Continues (m m' : Machine β σ) : Prop :=
  Machine.Evolves (fun _ => True) (fun _ _ => True) m m'

namespace Machine
variable {P Q : Event → Prop} {R : Registers → Registers → Prop} {m m₁ m₂ : Machine β σ}

namespace Logs

theorem refl (m : Machine β σ) : Logs P m m := ⟨[], rfl, by simp⟩

theorem trans (h₁ : Logs P m m₁) (h₂ : Logs P m₁ m₂) : Logs P m m₂ := by
  obtain ⟨es, rfl, hes⟩ := h₁
  obtain ⟨fs, rfl, hfs⟩ := h₂
  refine ⟨fs ++ es, by simp, fun e he => ?_⟩
  rcases List.mem_append.mp he with he | he
  · exact hfs e he
  · exact hes e he

theorem log (m : Machine β σ) {e : Event} (he : P e) : Logs P m (m.log e) :=
  ⟨[e], rfl, by simpa using he⟩

theorem regs (h : Logs P m m₁) : m₁.regs = m.regs := by obtain ⟨es, rfl, -⟩ := h; rfl

theorem bus (h : Logs P m m₁) : m₁.bus = m.bus := by obtain ⟨es, rfl, -⟩ := h; rfl

theorem evolves (hK : Registers.KeptByException R) (h : Logs P m m₁) : Evolves P R m m₁ := by
  obtain ⟨es, rfl, hes⟩ := h
  exact ⟨hK.refl _, rfl, rfl, id, fun _ => rfl, es, rfl, hes⟩

end Logs

namespace Evolves

theorem refl (hK : Registers.KeptByException R) (m : Machine β σ) : Evolves P R m m :=
  (Logs.refl m).evolves hK

theorem trans (hK : Registers.KeptByException R) (h₁ : Evolves P R m m₁) (h₂ : Evolves P R m₁ m₂) :
    Evolves P R m m₂ := by
  obtain ⟨es, hj₁, hes⟩ := h₁.journal
  obtain ⟨fs, hj₂, hfs⟩ := h₂.journal
  refine ⟨hK.trans h₁.regs h₂.regs, h₂.hooks.trans h₁.hooks, h₂.settings.trans h₁.settings,
    fun h => h₂.overflowed (h₁.overflowed h),
    fun h => (h₂.traceAddress h).trans (h₁.traceAddress h), fs ++ es, by simp [hj₂, hj₁],
    fun e he => ?_⟩
  rcases List.mem_append.mp he with he | he
  · exact hfs e he
  · exact hes e he

theorem mono (h : Evolves P R m m₁) (hPQ : ∀ e, P e → Q e) : Evolves Q R m m₁ := by
  obtain ⟨es, hj, hes⟩ := h.journal
  exact ⟨h.regs, h.hooks, h.settings, h.overflowed,
    fun harms => h.traceAddress fun e he => harms e (hPQ e he), es, hj,
    fun e he => hPQ e (hes e he)⟩

theorem with_regs {S : Registers → Registers → Prop} (h : Evolves P R m m₁)
    (hS : S m.regs m₁.regs) : Evolves P S m m₁ :=
  ⟨hS, h.hooks, h.settings, h.overflowed, h.traceAddress, h.journal⟩

theorem log (hK : Registers.KeptByException R) (m : Machine β σ) {e : Event} (he : P e) :
    Evolves P R m (m.log e) :=
  (Logs.log m he).evolves hK

theorem grows (h : Evolves P R m m₁) : Grows m m₁ := by
  obtain ⟨es, hj, -⟩ := h.journal
  exact ⟨es, hj⟩

theorem respects {S : Registers → Registers → Prop} (h : Evolves P R m m₁)
    (hH : m.hooks.Respects S) : m₁.hooks.Respects S := by
  rw [h.hooks]
  exact hH

theorem of_parts (hregs : R m.regs m₁.regs) (hhooks : m₁.hooks = m.hooks)
    (hsettings : m₁.settings = m.settings) (hguard : m₁.guard = m.guard)
    (hjournal : m₁.journal = m.journal)
    (htrace : m₁.lastTraceAddress = m.lastTraceAddress) : Evolves P R m m₁ :=
  ⟨hregs, hhooks, hsettings, by rw [hguard]; exact id, fun _ => htrace, [],
    by simpa using hjournal, by simp⟩

theorem of_event {e : Event} (he : P e) (hregs : R m.regs m₁.regs) (hhooks : m₁.hooks = m.hooks)
    (hsettings : m₁.settings = m.settings)
    (hguard : m.guard.overflowed = true → m₁.guard.overflowed = true)
    (hjournal : m₁.journal = e :: m.journal)
    (htrace : m₁.lastTraceAddress = m.lastTraceAddress) : Evolves P R m m₁ :=
  ⟨hregs, hhooks, hsettings, hguard, fun _ => htrace, [e], hjournal, by simpa using he⟩

theorem mapRegs (m : Machine β σ) {f : Registers → Registers} (h : R m.regs (f m.regs)) :
    Evolves P R m (m.mapRegs f) :=
  of_parts h rfl rfl rfl rfl rfl

theorem mapPending (m : Machine β σ) {f : Pending → Pending}
    (h : R m.regs (m.regs.mapPending f)) : Evolves P R m (m.mapPending f) :=
  of_parts h rfl rfl rfl rfl rfl

theorem continues (h : Evolves P R m m₁) : Continues m m₁ := by
  obtain ⟨es, hj, -⟩ := h.journal
  exact ⟨trivial, h.hooks, h.settings, h.overflowed,
    fun harms => absurd (harms (.traceArmed 0) trivial) (by decide), es, hj, fun _ _ => trivial⟩

theorem of_append (h : Evolves P R m m₁) {es : List Event}
    (hes : m₁.journal = es ++ m.journal) : ∀ e ∈ es, P e := by
  obtain ⟨fs, hfs, hP⟩ := h.journal
  rw [hes] at hfs
  rw [List.append_cancel_right hfs]
  exact hP

end Evolves

theorem Continues.trans (h : Continues m m₁) (h₁ : Continues m₁ m₂) : Continues m m₂ :=
  Evolves.trans Registers.kept_true h h₁

theorem interruptsChanged_evolves (hK : Registers.KeptByHousekeeping R) (m : Machine β σ) :
    Evolves P R m m.interruptsChanged :=
  .of_parts (hK.interruptCheck _) rfl rfl rfl rfl rfl

theorem checkAfterCycle_evolves (hK : Registers.KeptByHousekeeping R) (m : Machine β σ) :
    Evolves P R m m.checkAfterCycle :=
  .of_parts (hK.endOfCycle _ true) rfl rfl rfl rfl rfl

theorem charge_evolves (hK : Registers.KeptByException R) (m : Machine β σ) (n : UInt32) :
    Evolves P R m (m.charge n) :=
  .of_parts (hK.refl _) rfl rfl rfl rfl rfl

theorem Grows.trans (h : Grows m m₁) (h₁ : Grows m₁ m₂) : Grows m m₂ := by
  obtain ⟨es, hj⟩ := h
  obtain ⟨fs, hj₁⟩ := h₁
  exact ⟨fs ++ es, by simp [hj₁, hj]⟩

namespace Logged
variable {p : Event → Prop}

theorem mono {q : Event → Prop} (h : Logged p m m₁) (hpq : ∀ e, p e → q e) : Logged q m m₁ := by
  obtain ⟨es, hj, e, he, hp⟩ := h
  exact ⟨es, hj, e, he, hpq e hp⟩

theorem of_log (m : Machine β σ) {e : Event} (he : p e) : Logged p m (m.log e) :=
  ⟨[e], rfl, e, by simp, he⟩

theorem trans_grows (h : Logged p m m₁) (hm : Grows m₁ m₂) : Logged p m m₂ := by
  obtain ⟨es, hj, e, he, hp⟩ := h
  obtain ⟨fs, hj₂⟩ := hm
  exact ⟨fs ++ es, by simp [hj₂, hj], e, by simp [he], hp⟩

theorem grows_trans (hm : Grows m m₁) (h : Logged p m₁ m₂) : Logged p m m₂ := by
  obtain ⟨es, hj, e, he, hp⟩ := h
  obtain ⟨fs, hj₁⟩ := hm
  exact ⟨es ++ fs, by simp [hj, hj₁], e, by simp [he], hp⟩

theorem of_append (h : Logged p m m₁) {es : List Event} (hj : m₁.journal = es ++ m.journal) :
    ∃ e ∈ es, p e := by
  obtain ⟨fs, hj₁, he⟩ := h
  rw [hj] at hj₁
  rw [List.append_cancel_right hj₁]
  exact he

theorem iff_of_grows (hm : Grows m m₁) (hm₁ : Grows m₁ m₂) :
    Logged p m m₂ ↔ Logged p m m₁ ∨ Logged p m₁ m₂ := by
  refine ⟨fun h => ?_, fun h => h.elim (·.trans_grows hm₁) (grows_trans hm)⟩
  obtain ⟨es, hj, e, he, hp⟩ := h
  obtain ⟨fs, hj₁⟩ := hm
  obtain ⟨gs, hj₂⟩ := hm₁
  have hes : es = gs ++ fs := by
    rw [hj₂, hj₁, ← List.append_assoc] at hj
    exact (List.append_cancel_right hj).symm
  rw [hes, List.mem_append] at he
  rcases he with he | he
  · exact .inr ⟨gs, hj₂, e, he, hp⟩
  · exact .inl ⟨fs, hj₁, e, he, hp⟩

theorem iff_any {p : Event → Bool} (hm : Grows m m₁) :
    Logged (fun e => p e) m m₁ ↔
      (m₁.journal.take (m₁.journal.length - m.journal.length)).any p = true := by
  obtain ⟨es, hj⟩ := hm
  have hnew : m₁.journal.take (m₁.journal.length - m.journal.length) = es := by simp [hj]
  rw [hnew, List.any_eq_true]
  exact ⟨fun h => h.of_append hj, fun h => ⟨es, hj, h⟩⟩

theorem irrefl : ¬ Logged p m m := by
  rintro ⟨es, hj, e, he, -⟩
  rw [List.self_eq_append_left] at hj
  simp [hj] at he

end Logged

theorem Evolves.not_logged {p : Event → Prop} (h : Evolves P R m m₁) (hP : ∀ e, P e → ¬ p e) :
    ¬ Logged p m m₁ := by
  rintro ⟨es, hj, e, he, hp⟩
  exact hP e (h.of_append hj e he) hp

namespace Shows
variable {α : Type} {p : Event → Option α} {as bs : List α}

theorem trans (h : Shows p m m₁ as) (h₁ : Shows p m₁ m₂ bs) : Shows p m m₂ (as ++ bs) := by
  obtain ⟨es, hj, rfl⟩ := h
  obtain ⟨fs, hj₁, rfl⟩ := h₁
  refine ⟨fs ++ es, ?_, ?_⟩
  · rw [hj₁, hj, List.append_assoc]
  · rw [List.reverse_append, List.filterMap_append]

theorem of_evolves (h : Evolves (fun e => p e = none) R m m₁) : Shows p m m₁ [] := by
  obtain ⟨es, hj, hes⟩ := h.journal
  refine ⟨es, hj, ?_⟩
  rw [List.filterMap_eq_nil_iff]
  intro e he
  exact hes e (List.mem_reverse.mp he)

theorem of_event (e : Event) (hj : m₁.journal = e :: m.journal) :
    Shows p m m₁ (p e).toList := by
  refine ⟨[e], hj, ?_⟩
  cases he : p e <;> simp [he]

theorem filterMap {γ : Type} (h : Shows p m m₁ as) (q : α → Option γ) :
    Shows (fun e => (p e).bind q) m m₁ (as.filterMap q) := by
  obtain ⟨es, hj, rfl⟩ := h
  exact ⟨es, hj, List.filterMap_filterMap.symm⟩

theorem of_take (p : Event → Option α) (hm : Grows m m₁) : Shows p m m₁
    ((m₁.journal.take (m₁.journal.length - m.journal.length)).reverse.filterMap p) := by
  obtain ⟨es, hj⟩ := hm
  exact ⟨es, hj, by simp [hj]⟩

theorem unique (h : Shows p m m₁ as) (h' : Shows p m m₁ bs) : as = bs := by
  obtain ⟨es, hj, rfl⟩ := h
  obtain ⟨fs, hj', rfl⟩ := h'
  rw [hj] at hj'
  rw [List.append_cancel_right hj']

end Shows

theorem foldl_callHook_evolves (hK : Registers.KeptByException R)
    (hP : ∀ h c, P (.hook h c)) (call : HookCall)
    (ls : List (Registry.Listener β σ))
    (hls : ∀ l ∈ ls, ∀ s : Scene β σ, R s.registers (l.run s).2.registers)
    (before : Bool × Machine β σ) :
    Evolves P R before.2 (ls.foldl (callHook call) before).2 := by
  induction ls generalizing before with
  | nil => exact .refl hK _
  | cons l ls ih =>
    have hl : Evolves P R before.2 (callHook call before l).2 := by
      have hlog : Evolves P R before.2 (before.2.log (.hook l.handle call)) := .log hK _ (hP _ _)
      exact hlog.trans hK (.of_parts (hls l (by simp) before.2.scene) rfl rfl rfl rfl rfl)
    exact hl.trans hK (ih (fun k hk => hls k (List.mem_cons_of_mem _ hk)) _)

theorem callHooks_exception_evolves (hK : Registers.KeptByException R) (hP : ∀ h c, P (.hook h c))
    (hH : m.hooks.Respects R) (v : ExceptionVector) :
    Evolves P R m (m.callHooks (.exception v)).2 := by
  apply foldl_callHook_evolves hK hP _ _ ?_ (false, m)
  intro l hl s
  simp only [Registry.listeners, Registry.listenersOf, List.mem_map] at hl
  obtain ⟨e, he, rfl⟩ := hl
  exact hH v e he s

theorem listeners_observe (r : Registry β σ) {call : HookCall} (hc : call.intercepts = false) :
    ∀ l ∈ r.listeners call, ∀ s, (l.run s).2.registers = s.registers ∧ (l.run s).2.bus = s.bus := by
  intro l hl s
  cases call with
  | exception v => simp [HookCall.intercepts] at hc
  | jsr ret dest | jsrIndirect ret dest | link size | rte dest | rts dest | newPc pc
  | newSp change =>
    simp only [Registry.listeners, Registry.listenersOf, List.mem_map] at hl
    obtain ⟨e, -, rfl⟩ := hl
    exact ⟨rfl, rfl⟩

theorem foldl_callHook_observes (call : HookCall) (ls : List (Registry.Listener β σ))
    (hls : ∀ l ∈ ls, ∀ s, (l.run s).2.registers = s.registers ∧ (l.run s).2.bus = s.bus)
    (before : Bool × Machine β σ) :
    ∃ o es, (ls.foldl (callHook call) before).2 =
        { before.2 with observers := o, journal := es ++ before.2.journal } ∧
      ∀ e ∈ es, ∃ h, e = .hook h call := by
  induction ls generalizing before with
  | nil => exact ⟨before.2.observers, [], rfl, by simp⟩
  | cons l ls ih =>
    obtain ⟨o, es, hm, hes⟩ := ih (fun k hk => hls k (List.mem_cons_of_mem _ hk))
      (callHook call before l)
    have hl := hls l (by simp) (before.2.log (.hook l.handle call)).scene
    refine ⟨o, es ++ [.hook l.handle call], ?_, fun e he => ?_⟩
    · rw [List.foldl_cons, hm]
      simp only [callHook, withScene, hl.1, hl.2]
      simp [log, scene]
    · rcases List.mem_append.mp he with he | he
      · exact hes e he
      · exact ⟨l.handle, by simpa using he⟩

theorem notify_eq (m : Machine β σ) {call : HookCall} (hc : call.intercepts = false) :
    ∃ o es, m.notify call = { m with observers := o, journal := es ++ m.journal } ∧
      ∀ e ∈ es, ∃ h, e = .hook h call :=
  foldl_callHook_observes call _ (listeners_observe m.hooks hc) (false, m)

theorem notify_evolves (hK : Registers.KeptByException R)
    (hP : ∀ h c, P (.hook h c)) (m : Machine β σ)
    {call : HookCall} (hc : call.intercepts = false) : Evolves P R m (m.notify call) := by
  obtain ⟨o, es, hm, hes⟩ := notify_eq m hc
  rw [hm]
  refine ⟨hK.refl _, rfl, rfl, id, fun _ => rfl, es, rfl, fun e he => ?_⟩
  obtain ⟨h, rfl⟩ := hes e he
  exact hP h call

end Machine
end Mc68000
