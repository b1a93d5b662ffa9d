import Mc68000.Proofs.Preservation
import Mc68000.Proofs.Stopping
import Mathlib.Data.List.Induction

/-!
# What the histories of a machine tell

A history is the newest part of everything that was pushed since it was last cleared. The histories
of a machine are cleared by a reset. From there on one gets the registers that every opcode is
fetched with, the other every exception, as the journal has them.
-/

namespace Mc68000

namespace History
variable {α : Type} {h h₁ h₂ : History α} {as bs : List α}

inductive Op (α : Type) where
  | push (a : α)
  | clear

def Op.apply (h : History α) : Op α → History α
  | .push a => h.push a
  | .clear => h.clear

def Op.pushed? : Op α → Option α
  | .push a => some a
  | .clear => none

def pushedSinceClear (ops : List (Op α)) : List α :=
  (ops.reverse.takeWhile fun op => op.pushed?.isSome).filterMap Op.pushed?

theorem pushedSinceClear_push (ops : List (Op α)) (a : α) :
    pushedSinceClear (ops ++ [.push a]) = a :: pushedSinceClear ops := by
  simp [pushedSinceClear, Op.pushed?]

theorem pushedSinceClear_clear (ops : List (Op α)) : pushedSinceClear (ops ++ [.clear]) = [] := by
  simp [pushedSinceClear, Op.pushed?]

theorem take_append_take (as bs : List α) (c : Nat) :
    (as ++ bs.take c).take c = (as ++ bs).take c := by
  rw [List.take_append, List.take_append, List.take_take, Nat.min_eq_left (Nat.sub_le ..)]

theorem capacity_foldl (ops : List (Op α)) (h : History α) :
    (ops.foldl Op.apply h).capacity = h.capacity := by
  induction ops generalizing h with
  | nil => rfl
  | cons op ops ih =>
    rw [List.foldl_cons, ih]
    cases op with
    | push a => exact capacity_push h a
    | clear => rfl

theorem entries_foldl (c : Nat) (ops : List (Op α)) :
    (ops.foldl Op.apply (ofCapacity c)).entries = (pushedSinceClear ops).take c := by
  induction ops using List.reverseRecOn with
  | nil => exact List.take_nil.symm
  | append_singleton ops op ih =>
    have hcapacity : (ops.foldl Op.apply (ofCapacity c)).capacity = c := capacity_foldl ops _
    rw [List.foldl_append, List.foldl_cons, List.foldl_nil]
    cases op with
    | push a =>
      rw [pushedSinceClear_push, Op.apply, entries_push, ih, hcapacity]
      exact take_append_take [a] _ c
    | clear =>
      rw [pushedSinceClear_clear, List.take_nil]
      rfl

/-- Nothing but these was pushed, the last one last. -/
structure Extends (h : History α) (as : List α) (h' : History α) : Prop where
  capacity : h'.capacity = h.capacity
  entries : h'.entries = (as.reverse ++ h.entries).take h.capacity

namespace Extends

theorem refl (h : History α) : h.Extends [] h := ⟨rfl, (List.take_of_length_le h.length_le).symm⟩

theorem push (h : History α) (a : α) : h.Extends [a] (h.push a) :=
  ⟨capacity_push h a, entries_push h a⟩

theorem of_not_isEnabled (hoff : h.isEnabled = false) (as : List α) : h.Extends as h := by
  have hzero : h.capacity = 0 := by simpa [isEnabled] using hoff
  refine ⟨rfl, ?_⟩
  rw [hzero, List.take_zero]
  exact List.eq_nil_of_length_eq_zero (Nat.le_zero.mp (hzero ▸ h.length_le))

theorem trans (hx : h.Extends as h₁) (hy : h₁.Extends bs h₂) : h.Extends (as ++ bs) h₂ := by
  refine ⟨hy.capacity.trans hx.capacity, ?_⟩
  rw [hy.entries, hx.entries, hx.capacity, take_append_take, List.reverse_append,
    List.append_assoc]

theorem entries_of_nil (hx : h.Extends as h₁) (hempty : h.entries = []) :
    h₁.entries = as.reverse.take h.capacity := by
  rw [hx.entries, hempty, List.append_nil]

end Extends
end History

namespace Event

def recorded? : Event → Option Registers
  | .fetch r => some r.packStatus
  | _ => none

def exception? : Event → Option ExceptionRecord
  | .exception record => some record
  | _ => none

theorem unrecorded_of_not_isNotable {e : Event} (h : e.isNotable = false) :
    e.recorded? = none ∧ e.exception? = none := by
  cases e with
  | fetch | exception => cases h
  | _ => exact ⟨rfl, rfl⟩

end Event

namespace Machine
variable {β σ : Type} {m m₁ m₂ : Machine β σ}

structure Recorded (m m' : Machine β σ) : Prop where
  registers : ∃ rs, m.Shows Event.recorded? m' rs ∧ m.registerHistory.Extends rs m'.registerHistory
  exceptions : ∃ es,
    m.Shows Event.exception? m' es ∧ m.exceptionHistory.Extends es m'.exceptionHistory

namespace Recorded

theorem trans (h : Recorded m m₁) (h₁ : Recorded m₁ m₂) : Recorded m m₂ := by
  obtain ⟨rs, hrs, hregisters⟩ := h.registers
  obtain ⟨rs₁, hrs₁, hregisters₁⟩ := h₁.registers
  obtain ⟨es, hes, hexceptions⟩ := h.exceptions
  obtain ⟨es₁, hes₁, hexceptions₁⟩ := h₁.exceptions
  exact ⟨⟨_, hrs.trans hrs₁, hregisters.trans hregisters₁⟩,
    ⟨_, hes.trans hes₁, hexceptions.trans hexceptions₁⟩⟩

theorem of_none (es : List Event) (hregisters : m₁.registerHistory = m.registerHistory)
    (hexceptions : m₁.exceptionHistory = m.exceptionHistory)
    (hjournal : m₁.journal = es ++ m.journal)
    (hes : ∀ e ∈ es, e.recorded? = none ∧ e.exception? = none) : Recorded m m₁ := by
  have hnone : es.reverse.filterMap Event.recorded? = [] ∧
      es.reverse.filterMap Event.exception? = [] := by
    rw [List.filterMap_eq_nil_iff, List.filterMap_eq_nil_iff]
    exact ⟨fun e he => (hes e (List.mem_reverse.mp he)).1,
      fun e he => (hes e (List.mem_reverse.mp he)).2⟩
  exact ⟨⟨[], ⟨es, hjournal, hnone.1⟩, hregisters ▸ .refl _⟩,
    ⟨[], ⟨es, hjournal, hnone.2⟩, hexceptions ▸ .refl _⟩⟩

theorem of_event {e : Event} (hregisters : m₁.registerHistory = m.registerHistory)
    (hexceptions : m₁.exceptionHistory = m.exceptionHistory)
    (hjournal : m₁.journal = e :: m.journal)
    (he : e.recorded? = none ∧ e.exception? = none) : Recorded m m₁ :=
  of_none [e] hregisters hexceptions hjournal (by simpa using he)

theorem silent (hregisters : m₁.registerHistory = m.registerHistory)
    (hexceptions : m₁.exceptionHistory = m.exceptionHistory)
    (hjournal : m₁.journal = m.journal) : Recorded m m₁ :=
  of_none [] hregisters hexceptions hjournal fun _ he => absurd he List.not_mem_nil

theorem recordException (m : Machine β σ) (v : ExceptionVector) :
    Recorded m (m.recordException v) :=
  ⟨⟨[], ⟨[_], rfl, rfl⟩, .refl _⟩, ⟨[_], ⟨[_], rfl, rfl⟩, .push _ _⟩⟩

theorem push_recordRegisters (m : Machine β σ) :
    m.registerHistory.Extends [m.regs.packStatus] m.recordRegisters.registerHistory ∧
      m.recordRegisters.regs.packStatus = m.regs.packStatus ∧
      m.recordRegisters.exceptionHistory = m.exceptionHistory ∧
      m.recordRegisters.journal = m.journal := by
  simp only [Machine.recordRegisters]
  split
  · exact ⟨.push _ _, rfl, rfl, rfl⟩
  · rename_i hoff
    exact ⟨.of_not_isEnabled (by simpa using hoff) _, rfl, rfl, rfl⟩

theorem fetch (h : Logs (fun e => e.ofHost) m.recordRegisters m₁) :
    Recorded m (m₁.log (.fetch m₁.regs)) := by
  -- The push comes before the events of the watchdog, and the event that shows it after them.
  obtain ⟨hpushed, hpacked, hexceptions, hjournal⟩ := push_recordRegisters m
  obtain ⟨es, rfl, hes⟩ := h
  have hnone : ∀ e ∈ es.reverse, e.recorded? = none ∧ e.exception? = none := fun e he =>
    Event.unrecorded_of_not_isNotable
      (Event.not_isNotable_of_ofHost (hes e (List.mem_reverse.mp he)))
  have hrecorded : es.reverse.filterMap Event.recorded? = [] :=
    List.filterMap_eq_nil_iff.mpr fun e he => (hnone e he).1
  have hexcepted : es.reverse.filterMap Event.exception? = [] :=
    List.filterMap_eq_nil_iff.mpr fun e he => (hnone e he).2
  have hj : ∀ e : Event, e :: (es ++ m.recordRegisters.journal) = (e :: es) ++ m.journal :=
    fun _ => by rw [hjournal, List.cons_append]
  refine ⟨⟨_, ⟨_, hj _, ?_⟩, hpushed⟩, ⟨[], ⟨_, hj _, ?_⟩, ?_⟩⟩
  · rw [List.reverse_cons, List.filterMap_append, hrecorded, ← hpacked]
    rfl
  · rw [List.reverse_cons, List.filterMap_append, hexcepted]
    rfl
  · change m.exceptionHistory.Extends [] m.recordRegisters.exceptionHistory
    exact hexceptions ▸ .refl _

theorem kept : KeptByLoop (Recorded (β := β) (σ := σ)) where
  refl _ := silent rfl rfl rfl
  trans := trans
  scene _ _ := silent rfl rfl rfl
  log _ _ he := of_event rfl rfl rfl (Event.unrecorded_of_not_isNotable he)
  lastFault _ _ := silent rfl rfl rfl
  record := recordException
  frame _ := of_event rfl rfl rfl ⟨rfl, rfl⟩
  traceAddress _ _ := silent rfl rfl rfl
  slowCounter _ _ := silent rfl rfl rfl
  fetch := fetch
  dispatch _ _ _ := of_event rfl rfl rfl ⟨rfl, rfl⟩
  idle _ := of_event rfl rfl rfl ⟨rfl, rfl⟩

end Recorded

variable [Bus β]

/-- A machine that was reset, and then ran, took exceptions, or did what is neither a fetch nor an
exception and leaves the histories alone. -/
inductive SinceReset (m₀ : Machine β σ) : Machine β σ → Prop
  | reset (hardware : Bool) : SinceReset m₀ (m₀.reset hardware)
  | execute {η : Type} [Host η] {s : Hosted β σ η} (h : SinceReset m₀ s.machine) (n : Nat) :
    SinceReset m₀ (Mc68000.execute ControlInstructions.table n s).state.machine
  | exception {m : Machine β σ} (h : SinceReset m₀ m) (v : ExceptionVector) :
    SinceReset m₀ (m.takeException v)
  | interrupt {m : Machine β σ} (h : SinceReset m₀ m) (base level : UInt8) :
    SinceReset m₀ (m.takeInterrupt base level)
  | fault {m : Machine β σ} (h : SinceReset m₀ m) (f : Fault) : SinceReset m₀ (m.raiseFault f)
  | otherwise {m m' : Machine β σ} {es : List Event} (h : SinceReset m₀ m)
    (hregisters : m'.registerHistory = m.registerHistory)
    (hexceptions : m'.exceptionHistory = m.exceptionHistory)
    (hjournal : m'.journal = es ++ m.journal)
    (hes : ∀ e ∈ es, e.recorded? = none ∧ e.exception? = none) : SinceReset m₀ m'

theorem SinceReset.recorded {m₀ m : Machine β σ} (h : SinceReset m₀ m) :
    Recorded m₀.clearBookkeeping m := by
  have hR := Recorded.kept (β := β) (σ := σ)
  induction h with
  | reset hardware => exact hR.reset m₀ hardware
  | @execute η _ s h n ih =>
    exact ih.trans (Execution.execute_kept hR
      (ControlInstructions.dispatch_kept hR.toKeptByInstructions) s n)
  | exception h v ih => exact ih.trans (hR.takeException _ v)
  | interrupt h base level ih => exact ih.trans (hR.takeInterrupt _ base level)
  | fault h f ih => exact ih.trans (hR.raiseFault _ f)
  | otherwise h hregisters hexceptions hjournal hes ih =>
    exact ih.trans (.of_none _ hregisters hexceptions hjournal hes)

/-- Since a machine was as `m₀`, the newest fetches and exceptions, newest first. -/
structure Recalls (m₀ m : Machine β σ) : Prop where
  registers : ∃ rs, m₀.Shows Event.recorded? m rs ∧
    m.registerHistory.entries = rs.reverse.take m₀.registerHistory.capacity
  exceptions : ∃ es, m₀.Shows Event.exception? m es ∧
    m.exceptionHistory.entries = es.reverse.take m₀.exceptionHistory.capacity

theorem SinceReset.recalls {m₀ m : Machine β σ} (h : SinceReset m₀ m) : Recalls m₀ m := by
  obtain ⟨⟨rs, hrs, hregisters⟩, ⟨es, hes, hexceptions⟩⟩ := h.recorded
  exact ⟨⟨rs, hrs, hregisters.entries_of_nil rfl⟩, ⟨es, hes, hexceptions.entries_of_nil rfl⟩⟩

/-- An exception is recorded as it begins, whether a hook handles it or not, and so is the fault of
its frame or of its handler. -/
structure RecordsExceptions (m : Machine β σ) : Prop where
  taken : ∀ v, m.Shows Event.exception? (m.takeException v) [⟨v, m.regs.pc, m.regs.sp⟩]
  faulted : ∀ v f, (m.takeException v).takeFault.1 = some f →
    m.Shows Event.exception? (m.takeException v).deliverFault
      [⟨v, m.regs.pc, m.regs.sp⟩,
        ⟨f.kind.vector, (m.takeException v).regs.pc, (m.takeException v).regs.sp⟩]

theorem exception?_of_ofEntry {e : Event} (h : e.ofEntry) : e.exception? = none := by
  cases e <;> simp_all [Event.ofEntry, Event.exception?]

theorem takeException_shows_exception (m : Machine β σ) (v : ExceptionVector) :
    m.Shows Event.exception? (m.takeException v) [⟨v, m.regs.pc, m.regs.sp⟩] :=
  takeException_shows (fun _ => exception?_of_ofEntry) m v

theorem raiseFault_shows_exception (m : Machine β σ) (f : Fault) :
    m.Shows Event.exception? (m.raiseFault f) [⟨f.kind.vector, m.regs.pc, m.regs.sp⟩] := by
  let reported : Machine β σ := { m.takeFault.2 with lastFault := some f }.log (.fault f)
  have hreported : m.Shows Event.exception? reported [] := ⟨[_], rfl, rfl⟩
  have hentered := hreported.trans (takeException_shows_exception reported f.kind.vector)
  have hdrained : ∀ n : Machine β σ, n.Shows Event.exception? n.takeFault.2 [] :=
    fun _ => ⟨[], rfl, rfl⟩
  have hhalted : ∀ (n : Machine β σ) (v : ExceptionVector) (address sp : UInt32),
      n.Shows Event.exception? (n.log (.doubleFault v address sp)).requestBreak [] :=
    fun _ _ _ _ => ⟨[_], rfl, rfl⟩
  rw [raiseFault_eq]
  split
  · exact hentered.trans (hdrained _)
  · exact (hentered.trans (hdrained _)).trans (hhalted _ _ _ _)

theorem recordsExceptions (m : Machine β σ) : m.RecordsExceptions where
  taken := takeException_shows_exception m
  faulted v f hf := by
    have hdelivered := deliverFault_eq (m.takeException v)
    rw [hf] at hdelivered
    rw [hdelivered]
    have hdrained : (m.takeException v).Shows Event.exception? (m.takeException v).takeFault.2 [] :=
      ⟨[], rfl, rfl⟩
    exact (takeException_shows_exception m v).trans
      (hdrained.trans (raiseFault_shows_exception (m.takeException v).takeFault.2 f))

end Machine

namespace Execution
variable {β σ η : Type} [Host η] [Bus β]

theorem step_shows_recorded (e : Execution β σ η) :
    e.state.machine.Shows Event.recorded? (e.step ControlInstructions.table).state.machine
      (if e.phase = .opcode then [e.state.machine.regs.packStatus] else []) := by
  have hpicked : Event.recorded? = fun e => e.fetch?.bind fun r => some r.packStatus := by
    funext e
    cases e <;> rfl
  have hshows := (step_shows e).filterMap fun r => some r.packStatus
  rw [← hpicked] at hshows
  obtain ⟨sr, hregs⟩ := ready_regs e
  rw [hregs] at hshows
  by_cases hphase : e.phase = .opcode
  · rw [if_pos hphase] at hshows ⊢
    exact hshows
  · rw [if_neg hphase] at hshows ⊢
    exact hshows

end Execution

namespace Machine
variable {β σ : Type} [Bus β]

/-- Histories keep the newest of what was pushed since they were cleared; those of a machine keep
the newest fetches and exceptions since it was reset. -/
theorem histories_recall {m₀ m : Machine β σ} (h : SinceReset m₀ m) :
    (∀ (α : Type) (c : Nat) (ops : List (History.Op α)),
      (ops.foldl History.Op.apply (.ofCapacity c)).entries =
        (History.pushedSinceClear ops).take c) ∧
      Recalls m₀ m ∧
      (∀ {η : Type} [Host η] (e : Execution β σ η),
        e.state.machine.Shows Event.recorded? (e.step ControlInstructions.table).state.machine
          (if e.phase = .opcode then [e.state.machine.regs.packStatus] else [])) ∧
      ∀ n : Machine β σ, n.RecordsExceptions :=
  ⟨fun _ => History.entries_foldl, h.recalls, fun e => Execution.step_shows_recorded e,
    recordsExceptions⟩

def forgetful : Machine Ram Unit :=
  let ram := ((((Ram.ofSize 256).pokeLong 0 0x100).pokeLong 4 0xA0).pokeLong 0x80 0xB0).loadWords
    0xA0 [0x4E71, 0x4E40]
  ofSettings { Settings.default with romBase := 0, registerHistory := 2, exceptionHistory := 2 }
    (ram.loadWords 0xB0 [0x4E71]) ()

def forgetfulRun : Machine Ram Unit :=
  (execute ControlInstructions.table 3 ⟨forgetful.reset true, ({} : Host.Stuck)⟩).state.machine

theorem histories_recall_forgetful :
    SinceReset forgetful forgetfulRun ∧ Recalls forgetful forgetfulRun ∧
      forgetfulRun.registerHistory.entries.map (·.pc) = [0xB0, 0xA2] ∧
      forgetfulRun.exceptionHistory.entries = [⟨0x20, 0xA4, 0x100⟩] := by
  have hrun : SinceReset forgetful forgetfulRun :=
    .execute (s := ⟨forgetful.reset true, ({} : Host.Stuck)⟩) (.reset true) 3
  exact ⟨hrun, (histories_recall hrun).2.1, by decide +kernel, by decide +kernel⟩

end Machine
end Mc68000
