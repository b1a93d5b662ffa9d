import Mc68000.Proofs.Instruction
import Mc68000.Proofs.Loop

/-!
# Machines that are alike

Two machines are alike if nothing that a program or its host can see tells them apart. They may
differ in what is kept for an observer: histories, the hooks that only watch, the bound of a warning
and the packed status word, which is brought up to date earlier in one machine than in the other.
Whatever is done to both leaves them alike.
-/

namespace Mc68000

namespace Registers

/-- The same registers, but for the packed status word. -/
def Alike (r r' : Registers) : Prop := ∃ sr, r' = { r with sr := sr }

def IgnoresPacked (f : Registers → Registers) : Prop :=
  ∀ r sr, ∃ sr', f { r with sr := sr } = { f r with sr := sr' }

namespace Alike
variable {r r' : Registers}

theorem refl (r : Registers) : r.Alike r := ⟨r.sr, rfl⟩

theorem map {f : Registers → Registers} (hf : IgnoresPacked f) (h : r.Alike r') :
    (f r).Alike (f r') := by
  obtain ⟨sr, rfl⟩ := h
  exact hf r sr

theorem packStatus_eq (h : r.Alike r') : r'.packStatus = r.packStatus := by
  obtain ⟨_, rfl⟩ := h
  rfl

theorem of_eq (h : r' = r) : r.Alike r' := h ▸ refl r

end Alike

theorem ignoresPacked_enterSupervisor : IgnoresPacked enterSupervisor := by
  intro r sr
  simp only [enterSupervisor]
  split
  · exact ⟨_, rfl⟩
  · exact ⟨_, rfl⟩

theorem ignoresPacked_loadStatus (w : UInt16) : IgnoresPacked fun r => r.loadStatus w :=
  fun r _ => ⟨(r.loadStatus w).sr, rfl⟩

end Registers

/-- What two runs are compared by. -/
structure Comparison (σ : Type) where
  seen : Event → Option Event
  /-- States of the hooks that exception hooks do not tell apart. -/
  observers : σ → σ → Prop
  before : List Event
  before' : List Event
  clock : Prop
  seen_fetch : ∀ r sr, seen (.fetch { r with sr := sr }) = seen (.fetch r)
  seen_stackLow : ∀ sp bound, seen (.stackLow sp bound) = none
  seen_nowMillis : ∀ now, seen (.host (.nowMillis now)) = none
  seen_overdue : ∀ now elapsed pc, seen (.overdue now elapsed pc) = none

namespace Comparison
variable {σ : Type}

def News (c : Comparison σ) (j j' : List Event) : Prop :=
  ∃ es es', j = es ++ c.before ∧ j' = es' ++ c.before' ∧ es'.filterMap c.seen = es.filterMap c.seen

namespace News
variable {c : Comparison σ} {j j' : List Event}

theorem append (h : c.News j j') (es es' : List Event)
    (hes : es'.filterMap c.seen = es.filterMap c.seen) :
    c.News (es ++ j) (es' ++ j') := by
  obtain ⟨fs, fs', rfl, rfl, hfs⟩ := h
  exact ⟨es ++ fs, es' ++ fs', by simp, by simp, by simp [hes, hfs]⟩

theorem cons {e e' : Event} (h : c.News j j') (he : c.seen e' = c.seen e) :
    c.News (e :: j) (e' :: j') :=
  h.append [e] [e'] (by simp [List.filterMap_cons, he])

theorem cons_left {e : Event} (h : c.News j j') (he : c.seen e = none) : c.News (e :: j) j' :=
  h.append [e] [] (by simp [he])

theorem cons_right {e : Event} (h : c.News j j') (he : c.seen e = none) : c.News j (e :: j') :=
  h.append [] [e] (by simp [he])

end News
end Comparison

/-- What the hook sees and does has nothing to do with what exception hooks do not tell apart. -/
def Registry.Listener.Impartial {β σ : Type} (c : Comparison σ) (l : Registry.Listener β σ) :
    Prop :=
  ∀ (s : Scene β σ) o, c.observers s.observers o →
    let done := l.run s
    let done' := l.run { s with observers := o }
    done'.1 = done.1 ∧ done'.2.registers = done.2.registers ∧ done'.2.bus = done.2.bus ∧
      c.observers done.2.observers done'.2.observers

structure Registry.Alike {β σ : Type} (c : Comparison σ) (r r' : Registry β σ) : Prop where
  exception : r'.exception = r.exception
  impartial : ∀ v, ∀ l ∈ r.listeners (.exception v), l.Impartial c
  observes : ∀ (call : HookCall), call.intercepts = false → ∀ m m' : Machine β σ, m.hooks = r →
    m'.hooks = r' → c.observers m.observers m'.observers → c.News m.journal m'.journal →
      c.observers (m.notify call).observers (m'.notify call).observers ∧
        c.News (m.notify call).journal (m'.notify call).journal

/-- Nothing that a program or its host can see tells the two machines apart. -/
structure Machine.Alike {β σ : Type} (c : Comparison σ) (m m' : Machine β σ) : Prop where
  regs : m.regs.Alike m'.regs
  bus : m'.bus = m.bus
  slowCycleMask : m'.settings.slowCycleMask = m.settings.slowCycleMask
  idleTickCycles : m'.settings.idleTickCycles = m.settings.idleTickCycles
  timeouts : c.clock ∨
    m.settings.deadManTimeoutMs = none ∧ m'.settings.deadManTimeoutMs = none
  hooks : Registry.Alike c m.hooks m'.hooks
  observers : c.observers m.observers m'.observers
  cycles : m'.cycles = m.cycles
  slowCounter : m'.slowCounter = m.slowCounter
  lastTraceAddress : m'.lastTraceAddress = m.lastTraceAddress
  lastFault : m'.lastFault = m.lastFault
  low : m'.guard.low = m.guard.low
  overflowed : m'.guard.overflowed = m.guard.overflowed
  news : c.News m.journal m'.journal

namespace Machine
variable {α β σ : Type} {c : Comparison σ} {m m' : Machine β σ}

inductive Agrees (c : Comparison σ) : α × Machine β σ → α × Machine β σ → Prop
  | intro (x : α) {n n' : Machine β σ} (h : Alike c n n') : Agrees c (x, n) (x, n')

namespace Alike

theorem pc (h : Alike c m m') : m'.regs.pc = m.regs.pc := by
  obtain ⟨_, hr⟩ := h.regs
  rw [hr]

theorem sp (h : Alike c m m') : m'.regs.sp = m.regs.sp := by
  obtain ⟨_, hr⟩ := h.regs
  rw [hr]
  rfl

theorem a (h : Alike c m m') : m'.regs.a = m.regs.a := by
  obtain ⟨_, hr⟩ := h.regs
  rw [hr]

theorem vbr (h : Alike c m m') : m'.regs.vbr = m.regs.vbr := by
  obtain ⟨_, hr⟩ := h.regs
  rw [hr]

theorem status (h : Alike c m m') : m'.regs.status = m.regs.status := by
  obtain ⟨_, hr⟩ := h.regs
  rw [hr]

theorem pending (h : Alike c m m') : m'.regs.pending = m.regs.pending := by
  obtain ⟨_, hr⟩ := h.regs
  rw [hr]

theorem log {e e' : Event} (h : Alike c m m') (he : c.seen e' = c.seen e) :
    Alike c (m.log e) (m'.log e') :=
  { h with news := h.news.cons he }

theorem logs {n n' : Machine β σ} (h : Alike c m m') (hn : Logs (fun e => c.seen e = none) m n)
    (hn' : Logs (fun e => c.seen e = none) m' n') : Alike c n n' := by
  obtain ⟨es, rfl, hes⟩ := hn
  obtain ⟨es', rfl, hes'⟩ := hn'
  have hunseen : es'.filterMap c.seen = es.filterMap c.seen := by
    rw [List.filterMap_eq_nil_iff.mpr hes, List.filterMap_eq_nil_iff.mpr hes']
  exact { h with news := h.news.append es es' hunseen }

theorem mapRegs {f : Registers → Registers} (h : Alike c m m')
    (hf : Registers.IgnoresPacked f) : Alike c (m.mapRegs f) (m'.mapRegs f) :=
  { h with regs := h.regs.map hf }

theorem mapPending (h : Alike c m m') (f : Pending → Pending) :
    Alike c (m.mapPending f) (m'.mapPending f) := by
  refine h.mapRegs fun r sr => ⟨sr, rfl⟩

theorem setPc (h : Alike c m m') (pc : UInt32) : Alike c (m.setPc pc) (m'.setPc pc) :=
  h.mapRegs fun _ sr => ⟨sr, rfl⟩

theorem charge (h : Alike c m m') (n : UInt32) : Alike c (m.charge n) (m'.charge n) :=
  { h with cycles := by simp only [Machine.charge]; rw [h.cycles] }

theorem withBus (h : Alike c m m') (b : β) : Alike c { m with bus := b } { m' with bus := b } :=
  { h with bus := rfl }

theorem withFault (h : Alike c m m') (f : Option Fault) :
    Alike c { m with lastFault := f } { m' with lastFault := f } :=
  { h with lastFault := rfl }

theorem access (h : Alike c m m') (f : β → α × β) :
    Agrees c ((f m.bus).1, { m with bus := (f m.bus).2 })
      ((f m'.bus).1, { m' with bus := (f m'.bus).2 }) := by
  rw [h.bus]
  exact .intro _ (h.withBus _)

theorem notify (h : Alike c m m') (call : HookCall) (hc : call.intercepts = false) :
    Alike c (m.notify call) (m'.notify call) := by
  obtain ⟨hobservers, hnews⟩ := h.hooks.observes call hc m m' rfl rfl h.observers h.news
  obtain ⟨o, es, hm, -⟩ := notify_eq m hc
  obtain ⟨o', es', hm', -⟩ := notify_eq m' hc
  rw [hm, hm'] at hobservers hnews ⊢
  exact { h with observers := hobservers, news := hnews }

theorem reserve (h : Alike c m m') (n : UInt32) :
    Alike c (m.mapRegs fun r => r.reserve n) (m'.mapRegs fun r => r.reserve n) :=
  h.mapRegs fun _ sr => ⟨sr, rfl⟩

theorem release (h : Alike c m m') (n : UInt32) :
    Alike c (m.mapRegs fun r => r.release n) (m'.mapRegs fun r => r.release n) :=
  h.mapRegs fun _ sr => ⟨sr, rfl⟩

theorem advance (h : Alike c m m') (size : UInt32) :
    Alike c (m.advance size) (m'.advance size) := by
  simp only [Machine.advance]
  rw [h.pc]
  exact (h.setPc _).log rfl

theorem warn_left (h : Alike c m m') (sp : UInt32) :
    Alike c ({ m with guard := { m.guard with warned := true } }.log (.stackLow sp m.guard.lowWarn))
      m' :=
  { h with news := h.news.cons_left (c.seen_stackLow _ _) }

theorem warn_right (h : Alike c m m') (sp : UInt32) :
    Alike c m
      ({ m' with guard := { m'.guard with warned := true } }.log
        (.stackLow sp m'.guard.lowWarn)) :=
  { h with news := h.news.cons_right (c.seen_stackLow _ _) }

theorem checkStack (h : Alike c m m') : Alike c m.checkStack m'.checkStack := by
  have hframe : Alike c (m.log (.frame m.regs.sp)) (m'.log (.frame m.regs.sp)) := h.log rfl
  have hover : ∀ {n n' : Machine β σ} (sp : UInt32), Alike c n n' →
      Alike c (if n.guard.overflowsAt sp then
          { n with guard := { n.guard with overflowed := true } }.log
            (.stackOverflow sp n.guard.low)
        else n)
        (if n'.guard.overflowsAt sp then
          { n' with guard := { n'.guard with overflowed := true } }.log
            (.stackOverflow sp n'.guard.low)
        else n') := by
    intro n n' sp hn
    have hat : n'.guard.overflowsAt sp = n.guard.overflowsAt sp := by
      simp only [StackGuard.overflowsAt]
      rw [hn.low, hn.overflowed]
    rw [hat, hn.low]
    split
    · exact { hn with low := hn.low, overflowed := rfl, news := hn.news.cons rfl }
    · exact hn
  -- Either machine may warn without the other: their bounds and what they warned of differ.
  simp only [Machine.checkStack]
  rw [h.sp]
  apply hover
  split <;> split
  · exact (hframe.warn_left _).warn_right _
  · exact hframe.warn_left _
  · exact hframe.warn_right _
  · exact hframe

variable [Bus β]

theorem writeWord (h : Alike c m m') (a : UInt32) (w : UInt16) :
    Alike c (m.writeWord a w) (m'.writeWord a w) := by
  simp only [Machine.writeWord]
  rw [h.bus]
  exact h.withBus _

theorem writeLong (h : Alike c m m') (a : UInt32) (l : UInt32) :
    Alike c (m.writeLong a l) (m'.writeLong a l) := by
  simp only [Machine.writeLong]
  rw [h.bus]
  exact h.withBus _

theorem readWord (h : Alike c m m') (a : UInt32) : Agrees c (m.readWord a) (m'.readWord a) :=
  h.access fun b => Bus.readWord b a

theorem readLong (h : Alike c m m') (a : UInt32) : Agrees c (m.readLong a) (m'.readLong a) :=
  h.access fun b => Bus.readLong b a

theorem readVector (h : Alike c m m') (a : UInt32) : Agrees c (m.readVector a) (m'.readVector a) :=
  h.access fun b => Bus.readLongFullAccess b a

theorem takeFault (h : Alike c m m') : Agrees c m.takeFault m'.takeFault :=
  h.access Bus.takeFault

theorem pushLong (h : Alike c m m') (l : UInt32) : Alike c (m.pushLong l) (m'.pushLong l) := by
  have hreserved := h.reserve 4
  have hsp := hreserved.sp
  simp only [Machine.pushLong]
  rw [hsp]
  exact hreserved.writeLong _ l

theorem popWord (h : Alike c m m') : Agrees c m.popWord m'.popWord := by
  simp only [Machine.popWord]
  rw [h.sp]
  exact (h.release 2).readWord _

theorem popLong (h : Alike c m m') : Agrees c m.popLong m'.popLong := by
  simp only [Machine.popLong]
  rw [h.sp]
  exact (h.release 4).readLong _

theorem fetchWord (h : Alike c m m') : Agrees c m.fetchWord m'.fetchWord := by
  simp only [Machine.fetchWord]
  rw [h.pc]
  exact (h.advance 2).readWord _

theorem fetchLong (h : Alike c m m') : Agrees c m.fetchLong m'.fetchLong := by
  simp only [Machine.fetchLong]
  rw [h.pc]
  exact (h.advance 4).readLong _

theorem jump (h : Alike c m m') (pc : UInt32) : Alike c (m.jump pc) (m'.jump pc) := by
  have hcalled := h.notify (.newPc pc) rfl
  have hannounced : Alike c (m.announcePc pc) (m'.announcePc pc) := by
    simp only [announcePc, announcePcToBus]
    rw [hcalled.bus]
    exact (hcalled.withBus _).log rfl
  exact hannounced.setPc pc

theorem pushFrame (h : Alike c m m') (v : ExceptionVector) (sr : UInt16) (pc : UInt32) :
    Alike c (m.pushFrame v sr pc) (m'.pushFrame v sr pc) := by
  have hreserved := h.reserve v.frameSize
  have hsp := hreserved.sp
  simp only [Machine.pushFrame]
  rw [hsp]
  split
  · exact ((((hreserved.writeWord _ 0).writeLong _ 0).writeWord _ 0).writeWord _ sr).writeLong _ pc
  · exact (hreserved.writeWord _ sr).writeLong _ pc

theorem enterHandler (h : Alike c m m') (v : ExceptionVector) :
    Alike c (m.enterHandler v) (m'.enterHandler v) := by
  have hread := h.readVector (ExceptionVector.entryAddress m.regs.vbr v)
  simp only [Machine.enterHandler]
  rw [h.vbr]
  generalize m.readVector (ExceptionVector.entryAddress m.regs.vbr v) = p,
    m'.readVector (ExceptionVector.entryAddress m.regs.vbr v) = p' at hread ⊢
  obtain ⟨handler, hread⟩ := hread
  exact (hread.jump handler).mapRegs fun _ sr => ⟨sr, rfl⟩

theorem enterException (h : Alike c m m') (hregs : m'.regs = m.regs) (v : ExceptionVector) :
    Alike c (m.enterException v) (m'.enterException v) := by
  have htaken : Alike c (m.log (.exceptionTaken v m.regs.pc))
      (m'.log (.exceptionTaken v m.regs.pc)) := h.log rfl
  have hsuper := htaken.mapRegs Registers.ignoresPacked_enterSupervisor
  simp only [Machine.enterException]
  rw [hregs]
  exact ((hsuper.pushFrame v m.regs.sr m.regs.pc).checkStack).enterHandler v

omit [Bus β] in
theorem callHook (h : Alike c m m') (hregs : m'.regs = m.regs) (call : HookCall)
    {l : Registry.Listener β σ} (hl : l.Impartial c) (before : Bool) :
    Agrees c (Machine.callHook call (before, m) l) (Machine.callHook call (before, m') l) ∧
      (Machine.callHook call (before, m') l).2.regs =
        (Machine.callHook call (before, m) l).2.regs := by
  have hscene : m'.scene = { m.scene with observers := m'.observers } := by
    simp only [scene]
    rw [hregs, h.bus]
  obtain ⟨hanswer, hregisters, hbus, hobservers⟩ := hl m.scene m'.observers h.observers
  rw [← hscene] at hanswer hregisters hbus hobservers
  have hdone : Alike c ((m.log (.hook l.handle call)).withScene (l.run m.scene).2)
      ((m'.log (.hook l.handle call)).withScene (l.run m'.scene).2) :=
    { h with
      regs := .of_eq hregisters
      bus := hbus
      observers := hobservers
      news := h.news.cons rfl }
  have heq : ∀ n : Machine β σ, Machine.callHook call (before, n) l =
      (before || (l.run n.scene).1, (n.log (.hook l.handle call)).withScene (l.run n.scene).2) :=
    fun _ => rfl
  rw [heq, heq, hanswer]
  exact ⟨.intro _ hdone, hregisters⟩

omit [Bus β] in
theorem foldl_callHook (call : HookCall) {ls : List (Registry.Listener β σ)}
    (hls : ∀ l ∈ ls, l.Impartial c) (h : Alike c m m') (hregs : m'.regs = m.regs) (before : Bool) :
    Agrees c (ls.foldl (Machine.callHook call) (before, m))
        (ls.foldl (Machine.callHook call) (before, m')) ∧
      (ls.foldl (Machine.callHook call) (before, m')).2.regs =
        (ls.foldl (Machine.callHook call) (before, m)).2.regs := by
  induction ls generalizing before m m' with
  | nil => exact ⟨.intro _ h, hregs⟩
  | cons l ls ih =>
    obtain ⟨hcalled, hafter⟩ := h.callHook hregs call (hls l List.mem_cons_self) before
    rw [List.foldl_cons, List.foldl_cons]
    generalize Machine.callHook call (before, m) l = p,
      Machine.callHook call (before, m') l = p' at hcalled hafter ⊢
    obtain ⟨answer, hn⟩ := hcalled
    exact ih (fun k hk => hls k (List.mem_cons_of_mem _ hk)) hn hafter answer

theorem takeException (h : Alike c m m') (v : ExceptionVector) :
    Alike c (m.takeException v) (m'.takeException v) := by
  -- Once the status word is packed the registers are the same, and hooks see the same scene.
  have hpacked : m'.regs.packStatus = m.regs.packStatus := h.regs.packStatus_eq
  have hrecord : Alike c ((m.mapRegs Registers.packStatus).recordException v)
      ((m'.mapRegs Registers.packStatus).recordException v) := by
    have hsame : (⟨v, m'.regs.pc, m'.regs.sp⟩ : ExceptionRecord) = ⟨v, m.regs.pc, m.regs.sp⟩ := by
      rw [h.pc, h.sp]
    have hseen := congrArg (fun r => c.seen (.exception r)) hsame
    exact { h with regs := .of_eq hpacked, news := h.news.cons hseen }
  have hlisten : ∀ l ∈ m.hooks.listeners (.exception v), l.Impartial c := h.hooks.impartial v
  have hsame : m'.interceptException v = (m.hooks.listeners (.exception v)).foldl
      (Machine.callHook (.exception v))
      (false, (m'.mapRegs Registers.packStatus).recordException v) := by
    have hlisteners : m'.hooks.listeners (.exception v) = m.hooks.listeners (.exception v) := by
      simp only [Registry.listeners]
      rw [h.hooks.exception]
    rw [← hlisteners]
    rfl
  have hcalled : Agrees c (m.interceptException v) (m'.interceptException v) ∧
      (m'.interceptException v).2.regs = (m.interceptException v).2.regs := by
    rw [hsame]
    exact hrecord.foldl_callHook (.exception v) hlisten hpacked false
  rw [takeException_eq, takeException_eq]
  generalize m.interceptException v = p, m'.interceptException v = p' at hcalled ⊢
  obtain ⟨⟨handled, hn⟩, hregs⟩ := hcalled
  dsimp only
  split
  · exact hn.log rfl
  · exact hn.enterException hregs v

omit [Bus β] in
theorem requestBreak (h : Alike c m m') : Alike c m.requestBreak m'.requestBreak :=
  h.mapPending _

theorem raiseFault (h : Alike c m m') (f : Fault) : Alike c (m.raiseFault f) (m'.raiseFault f) := by
  have hentered : Alike c (m.enterFault f) (m'.enterFault f) := by
    have hasked := h.takeFault
    simp only [Machine.enterFault]
    generalize m.takeFault = p, m'.takeFault = p' at hasked ⊢
    obtain ⟨g, hn⟩ := hasked
    exact ((hn.withFault (some f)).log rfl).takeException _
  have hsecond := hentered.takeFault
  rw [raiseFault_eq, raiseFault_eq, hentered.sp]
  generalize (m.enterFault f).takeFault = p, (m'.enterFault f).takeFault = p' at hsecond ⊢
  obtain ⟨second, hn⟩ := hsecond
  cases second with
  | none => exact hn
  | some g => exact (hn.log rfl).requestBreak

theorem deliverFault (h : Alike c m m') : Alike c m.deliverFault m'.deliverFault := by
  have hasked := h.takeFault
  rw [deliverFault_eq, deliverFault_eq]
  generalize m.takeFault = p, m'.takeFault = p' at hasked ⊢
  obtain ⟨fault, hn⟩ := hasked
  cases fault with
  | none => exact hn
  | some f => exact hn.raiseFault f

theorem takeInterrupt (h : Alike c m m') (base level : UInt8) :
    Alike c (m.takeInterrupt base level) (m'.takeInterrupt base level) := by
  simp only [Machine.takeInterrupt]
  rw [h.status]
  split
  · have hlogged : Alike c (m.log (.interrupt base level m.regs.status.mask))
        (m'.log (.interrupt base level m.regs.status.mask)) := h.log rfl
    exact ((hlogged.takeException (base + level)).mapRegs fun _ sr => ⟨sr, rfl⟩).mapPending _
  · exact h.log rfl

end Alike
end Machine

namespace ControlInstructions
variable {β σ : Type} [Bus β] {c : Comparison σ} {m m' : Machine β σ}
open Machine (Alike Agrees)

theorem refuse_alike (h : Alike c m m') (v : ExceptionVector) :
    Alike c ((m.setPc (m.regs.pc - 2)).takeException v)
      ((m'.setPc (m'.regs.pc - 2)).takeException v) := by
  rw [h.pc]
  exact (h.setPc _).takeException v

theorem privileged_alike (h : Alike c m m') {f : Handler β σ} (w : UInt16)
    (hf : Agrees c (f w m) (f w m')) : Agrees c (privileged f w m) (privileged f w m') := by
  simp only [privileged]
  rw [h.status]
  split
  · exact hf
  · exact .intro _ (refuse_alike h _)

theorem stop_alike (h : Alike c m m') (w : UInt16) : Agrees c (stop w m) (stop w m') := by
  refine privileged_alike h w ?_
  have hfetch := h.fetchWord
  generalize m.fetchWord = p, m'.fetchWord = p' at hfetch ⊢
  obtain ⟨sr, hn⟩ := hfetch
  have hload := (hn.mapRegs (Registers.ignoresPacked_loadStatus sr)).mapRegs
    (f := stopped) fun _ sr => ⟨sr, rfl⟩
  exact .intro _ hload

theorem rte_alike (h : Alike c m m') (w : UInt16) : Agrees c (rte w m) (rte w m') := by
  refine privileged_alike h w ?_
  have hword := h.popWord
  generalize m.popWord = p, m'.popWord = p' at hword ⊢
  obtain ⟨sr, hn⟩ := hword
  rename_i n n'
  have hlong := hn.popLong
  dsimp only
  generalize n.popLong = q, n'.popLong = q' at hlong ⊢
  obtain ⟨dest, hn₁⟩ := hlong
  have hload := hn₁.mapRegs (Registers.ignoresPacked_loadStatus sr)
  have hsp := hload.notify (.newSp .incremented) rfl
  exact .intro _ ((hsp.notify (.rte dest) rfl).jump dest)

theorem rts_alike (h : Alike c m m') (w : UInt16) : Agrees c (rts w m) (rts w m') := by
  have hlong := h.popLong
  simp only [rts]
  generalize m.popLong = p, m'.popLong = p' at hlong ⊢
  obtain ⟨dest, hn⟩ := hlong
  have hsp := hn.notify (.newSp .incremented) rfl
  exact .intro _ ((hsp.notify (.rts dest) rfl).jump dest)

theorem call_alike (h : Alike c m m') (ret dest : UInt32) :
    Alike c (call m ret dest) (call m' ret dest) :=
  ((h.pushLong ret).notify (.newSp .decremented) rfl).jump dest

theorem jsrAbsolute_alike (h : Alike c m m') (w : UInt16) :
    Agrees c (jsrAbsolute w m) (jsrAbsolute w m') := by
  have hlong := h.fetchLong
  simp only [jsrAbsolute]
  generalize m.fetchLong = p, m'.fetchLong = p' at hlong ⊢
  obtain ⟨dest, hn⟩ := hlong
  dsimp only
  rw [hn.pc]
  exact .intro _ (call_alike (hn.notify (.jsr _ dest) rfl) _ dest)

theorem jsrIndirect_alike (h : Alike c m m') (w : UInt16) :
    Agrees c (jsrIndirect w m) (jsrIndirect w m') := by
  simp only [jsrIndirect]
  rw [h.pc, h.a]
  exact .intro _ (call_alike (h.notify (.jsrIndirect _ _) rfl) _ _)

theorem link_alike (h : Alike c m m') (w : UInt16) : Agrees c (link w m) (link w m') := by
  have hfetch := h.fetchWord
  simp only [link]
  generalize m.fetchWord = p, m'.fetchWord = p' at hfetch ⊢
  obtain ⟨size, hn⟩ := hfetch
  have hreserved := hn.reserve 4
  dsimp only
  rw [hreserved.sp, hreserved.a]
  refine .intro _ (Alike.notify (Alike.notify ?_ _ rfl) _ rfl)
  exact (hreserved.writeLong _ _).mapRegs fun _ sr => ⟨sr, rfl⟩

theorem moveToSr_alike (h : Alike c m m') (w : UInt16) :
    Agrees c (moveToSr w m) (moveToSr w m') := by
  refine privileged_alike h w ?_
  have hfetch := h.fetchWord
  generalize m.fetchWord = p, m'.fetchWord = p' at hfetch ⊢
  obtain ⟨sr, hn⟩ := hfetch
  exact .intro _ (hn.mapRegs (Registers.ignoresPacked_loadStatus sr))

theorem dispatch_alike (h : Alike c m m') (w : UInt16) :
    Agrees c (table.dispatch w m) (table.dispatch w m') := by
  simp only [OpcodeTable.dispatch]
  apply handler_cases w fun f => Agrees c (f w m) (f w m')
  case hnop => exact .intro _ h
  case hstop => exact fun _ => stop_alike h w
  case hrte => exact fun _ => rte_alike h w
  case hrts => exact rts_alike h w
  case htrap => exact .intro _ (h.takeException _)
  case hillegal => exact .intro _ (refuse_alike h _)
  case habsolute => exact jsrAbsolute_alike h w
  case hindirect => exact jsrIndirect_alike h w
  case hlink => exact link_alike h w
  case hmove => exact fun _ => moveToSr_alike h w

end ControlInstructions

namespace Machine
variable {β σ : Type} {c : Comparison σ} {m m' : Machine β σ}

theorem recordRegisters_eq (m : Machine β σ) : ∃ sr history, m.recordRegisters =
    { m with regs := { m.regs with sr := sr }, registerHistory := history } := by
  simp only [recordRegisters]
  split
  · exact ⟨m.regs.status.toWord, _, rfl⟩
  · exact ⟨m.regs.sr, m.registerHistory, rfl⟩

namespace Alike

theorem recordRegisters (h : Alike c m m') : Alike c m.recordRegisters m'.recordRegisters := by
  obtain ⟨sr, hr⟩ := h.regs
  obtain ⟨_, history, hm⟩ := recordRegisters_eq m
  obtain ⟨sr', history', hm'⟩ := recordRegisters_eq m'
  rw [hm, hm']
  exact { h with regs := ⟨sr', by rw [hr]⟩ }

theorem armTrace (h : Alike c m m') : Alike c m.armTrace m'.armTrace := by
  simp only [Machine.armTrace]
  rw [h.pending, h.status, h.pc]
  split
  · have harmed : Alike c ({ m with lastTraceAddress := m.regs.pc }.log (.traceArmed m.regs.pc))
        ({ m' with lastTraceAddress := m.regs.pc }.log (.traceArmed m.regs.pc)) :=
      { h with lastTraceAddress := rfl, news := h.news.cons rfl }
    exact harmed.mapPending _
  · exact h

theorem promoteInterrupt (h : Alike c m m') :
    Alike c m.promoteInterrupt m'.promoteInterrupt := by
  simp only [Machine.promoteInterrupt]
  rw [h.pending]
  split
  · exact h.mapPending _
  · exact h

variable [Bus β]

theorem traceIfDue (h : Alike c m m') : Alike c m.traceIfDue m'.traceIfDue := by
  simp only [Machine.traceIfDue]
  rw [h.pending]
  split
  · exact ((h.log rfl).takeException _).deliverFault
  · exact h

theorem fetchOpcode (h : Alike c m m') : Agrees c m.fetchOpcode m'.fetchOpcode := by
  have hseen : c.seen (.fetch m'.regs) = c.seen (.fetch m.regs) := by
    obtain ⟨sr, hr⟩ := h.regs
    rw [hr]
    exact c.seen_fetch m.regs sr
  exact (h.log hseen).fetchWord

theorem executeOpcode (h : Alike c m m') :
    Alike c (m.executeOpcode ControlInstructions.table)
      (m'.executeOpcode ControlInstructions.table) := by
  have hfetch := h.fetchOpcode
  rw [executeOpcode_eq, executeOpcode_eq]
  generalize m.fetchOpcode = p, m'.fetchOpcode = p' at hfetch ⊢
  obtain ⟨w, hn⟩ := hfetch
  rename_i n n'
  have hasked := hn.takeFault
  dsimp only
  generalize n.takeFault = q, n'.takeFault = q' at hasked ⊢
  obtain ⟨fault, hn₁⟩ := hasked
  rename_i n₁ n₁'
  cases fault with
  | some f =>
    dsimp only
    rw [hn₁.pc]
    exact (hn₁.setPc _).raiseFault f
  | none =>
    have hdone := ControlInstructions.dispatch_alike hn₁ w
    simp only [dispatched]
    generalize ControlInstructions.table.dispatch w n₁ = d,
      ControlInstructions.table.dispatch w n₁' = d' at hdone ⊢
    obtain ⟨cost, hn₂⟩ := hdone
    exact ((hn₂.charge cost).log rfl).deliverFault

end Alike

/-- The same has become of two machines since they were `m` and `m'`, but for the packed status word
and what `seen` leaves out. -/
structure SameOutcome (seen : Event → Option Event) (S : σ → σ → Prop)
    (m n m' n' : Machine β σ) : Prop where
  regs : n.regs.Alike n'.regs
  bus : n'.bus = n.bus
  observers : S n.observers n'.observers
  cycles : n'.cycles = n.cycles
  slowCounter : n'.slowCounter = n.slowCounter
  lastTraceAddress : n'.lastTraceAddress = n.lastTraceAddress
  lastFault : n'.lastFault = n.lastFault
  overflowed : n'.guard.overflowed = n.guard.overflowed
  events : ∃ es, m.Shows seen n es ∧ m'.Shows seen n' es

theorem Alike.outcome {n n' : Machine β σ} (h : Alike c n n') (hm : c.before = m.journal)
    (hm' : c.before' = m'.journal) : SameOutcome c.seen c.observers m n m' n' := by
  obtain ⟨es, es', hj, hj', hes⟩ := h.news
  refine ⟨h.regs, h.bus, h.observers, h.cycles, h.slowCounter, h.lastTraceAddress, h.lastFault,
    h.overflowed, es.reverse.filterMap c.seen, ⟨es, hm ▸ hj, rfl⟩, es', hm' ▸ hj', ?_⟩
  rw [List.filterMap_reverse, List.filterMap_reverse, hes]

end Machine
end Mc68000
