import Mc68000.Proofs.Additions
import Mc68000.Proofs.Loop
import Mc68000.Proofs.StackPointers

/-!
# Where the processor is, by what it announces

Whoever hears every announcement of a program counter and counts the bytes that are read from the
instruction stream knows where the next opcode is fetched. An instruction that is refused, or whose
fetch fails, goes back to its own address, but an exception follows and announces its handler.
-/

namespace Mc68000
variable {β σ : Type}

namespace Event

def place? : Event → Option UInt32
  | .fetch r => some r.pc
  | .stream pc _ => some pc
  | _ => none

/-- Dead reckoning from `p`: announced addresses count, and bytes that were read after them. -/
def reckon (p : UInt32) : Event → UInt32
  | .newPc pc => pc
  | .stream _ size => p + size
  | _ => p

def reckoned (p : UInt32) (es : List Event) : UInt32 := es.foldl reckon p

def Tracked : UInt32 → List Event → Prop
  | _, [] => True
  | p, e :: es => (∀ pc, e.place? = some pc → pc = p) ∧ Tracked (e.reckon p) es

def announces : Event → Bool
  | .hook _ (.newPc _) | .newPc _ => true
  | _ => false

/-- Announcements and what leads to them: opcodes that are done, exceptions, interrupts, faults. -/
def turns (e : Event) : Bool :=
  e.announces || match e with
    | .dispatch .. | .exception _ | .interrupt .. | .fault _ => true
    | _ => false

def still (e : Event) : Bool :=
  !e.turns && match e with
    | .fetch _ | .stream .. => false
    | _ => true

theorem still_eq {e : Event} (h : e.still = true) :
    e.turns = false ∧ e.place? = none ∧ ∀ p, e.reckon p = p := by
  have hturns : e.turns = false := by
    cases ht : e.turns with
    | false => rfl
    | true => simp [still, ht] at h
  cases e with
  | fetch | stream | newPc => exact nomatch h
  | _ => exact ⟨hturns, rfl, fun _ => rfl⟩

theorem tracked_append {p : UInt32} {es fs : List Event} :
    Tracked p (es ++ fs) ↔ Tracked p es ∧ Tracked (reckoned p es) fs := by
  induction es generalizing p with
  | nil => simp [Tracked, reckoned]
  | cons e es ih => simp only [List.cons_append, Tracked, ih, and_assoc, reckoned, List.foldl_cons]

theorem Tracked.place {p : UInt32} {es : List Event} (h : Tracked p es) {older newer : List Event}
    {e : Event} (hes : es = older ++ e :: newer) {pc : UInt32} (hpc : e.place? = some pc) :
    pc = reckoned p older := by
  rw [hes, tracked_append] at h
  exact h.2.1 pc hpc

end Event

open Event (reckoned Tracked)

/-- Events that can be tracked from `p` on, to `p'`, with these turns. -/
structure Passage (p : UInt32) (es : List Event) (p' : UInt32) (fs : List Event) : Prop where
  tracked : Tracked p es
  arrives : reckoned p es = p'
  turns : es.filter Event.turns = fs

namespace Passage
variable {p p₁ p₂ : UInt32} {es es₁ fs fs₁ : List Event}

theorem append (h : Passage p es p₁ fs) (h₁ : Passage p₁ es₁ p₂ fs₁) :
    Passage p (es ++ es₁) p₂ (fs ++ fs₁) where
  tracked := by
    rw [Event.tracked_append, h.arrives]
    exact ⟨h.tracked, h₁.tracked⟩
  arrives := by
    rw [reckoned, List.foldl_append]
    rw [← h₁.arrives, ← h.arrives]
    rfl
  turns := by rw [List.filter_append, h.turns, h₁.turns]

theorem of_still (p : UInt32) (h : ∀ e ∈ es, e.still = true) : Passage p es p [] := by
  induction es with
  | nil => exact ⟨trivial, rfl, rfl⟩
  | cons e es ih =>
    obtain ⟨hturns, hplace, hreckon⟩ := Event.still_eq (h e (List.mem_cons_self ..))
    have hone : Passage p [e] p [] := by
      refine ⟨⟨fun pc hpc => ?_, trivial⟩, hreckon p, ?_⟩
      · rw [hplace] at hpc
        cases hpc
      · simp [hturns]
    exact hone.append (ih fun e he => h e (List.mem_cons_of_mem _ he))

theorem stream (p size : UInt32) : Passage p [.stream p size] (p + size) [] :=
  ⟨⟨fun _ h => (Option.some.inj h).symm, trivial⟩, rfl, rfl⟩

theorem fetch (r : Registers) : Passage r.pc [.fetch r] r.pc [] :=
  ⟨⟨fun _ h => (Option.some.inj h).symm, trivial⟩, rfl, rfl⟩

theorem calls (r : Registry β σ) {call : HookCall}
    (hcall : ∀ handle, (Event.hook handle call).still = true) : Passage p (r.calls call) p [] := by
  apply of_still
  intro e he
  obtain ⟨l, -, rfl⟩ := List.mem_map.mp he
  exact hcall l.handle

theorem announces_announcement (r : Registry β σ) (pc : UInt32) :
    ∀ e ∈ r.announcement pc, e.announces = true := by
  intro e he
  rcases List.mem_append.mp he with he | he
  · obtain ⟨l, -, rfl⟩ := List.mem_map.mp he
    rfl
  · rw [List.mem_singleton.mp he]
    rfl

theorem announcement (r : Registry β σ) (p pc : UInt32) :
    Passage p (r.announcement pc) pc (r.announcement pc) where
  tracked := by
    rw [Registry.announcement, Event.tracked_append]
    refine ⟨?_, fun _ h => absurd h (by simp [Event.place?]), trivial⟩
    rw [Registry.calls]
    generalize r.listeners (.newPc pc) = ls
    induction ls with
    | nil => trivial
    | cons l ls ih => exact ⟨fun _ h => absurd h (by simp [Event.place?]), ih⟩
  arrives := by
    rw [Registry.announcement, reckoned, List.foldl_append]
    rfl
  turns := List.filter_eq_self.mpr fun e he => by
    simp [Event.turns, announces_announcement r pc e he]

end Passage

namespace ControlInstructions

/-- The opcode, at this cost, goes somewhere else than on. A return from an exception that is
refused costs more. -/
def Jumps (w : UInt16) (cost : UInt32) : Prop :=
  match Mnemonic.ofWord w with
  | .rts | .jsrAbsolute | .jsrIndirect => True
  | .rte => cost = 20
  | _ => False

end ControlInstructions

inductive Leg where
  | straight (w : UInt16) (cost : UInt32)
  | jump (w : UInt16) (cost target : UInt32)
  | exception (record : ExceptionRecord) (target : UInt32)
  | interrupt (base level mask : UInt8) (record : ExceptionRecord) (target : UInt32)
  | fault (fault : Fault) (record : ExceptionRecord) (target : UInt32)

namespace Leg

def turns (r : Registry β σ) : Leg → List Event
  | .straight w cost => [.dispatch w cost]
  | .jump w cost target => r.announcement target ++ [.dispatch w cost]
  | .exception record target => .exception record :: r.announcement target
  | .interrupt base level mask record target =>
    .interrupt base level mask :: .exception record :: r.announcement target
  | .fault f record target => .fault f :: .exception record :: r.announcement target

def Sound : Leg → Prop
  | .straight w cost => ¬ ControlInstructions.Jumps w cost
  | .jump w cost _ => ControlInstructions.Jumps w cost
  | .exception .. => True
  | .interrupt base level _ record _ => record.vector = base + level
  | .fault f record _ => record.vector = f.kind.vector

end Leg

namespace Machine
variable {m m₁ m₂ : Machine β σ} {p p₁ p₂ : UInt32} {fs gs : List Event}

/-- With the program counter at `p` as far as anyone can tell, the machine goes on in turns that
leave it at `p'`. -/
def Leads (m m' : Machine β σ) (p p' : UInt32) (fs : List Event) : Prop :=
  ∃ es, Adds m m' es ∧ Passage p es p' fs

namespace Leads

theorem trans (h : Leads m m₁ p p₁ fs) (h₁ : Leads m₁ m₂ p₁ p₂ gs) :
    Leads m m₂ p p₂ (fs ++ gs) := by
  obtain ⟨es, hadds, hpassage⟩ := h
  obtain ⟨es₁, hadds₁, hpassage₁⟩ := h₁
  exact ⟨es ++ es₁, hadds.trans hadds₁, hpassage.append hpassage₁⟩

theorem hooks (h : Leads m m₁ p p₁ fs) : m₁.hooks = m.hooks := by
  obtain ⟨es, hadds, -⟩ := h
  exact hadds.hooks

theorem of_parts (hhooks : m₁.hooks = m.hooks) (hjournal : m₁.journal = m.journal) :
    Leads m m₁ p p [] :=
  ⟨[], .of_parts hhooks hjournal, .of_still p (List.forall_mem_nil _)⟩

theorem log_still (m : Machine β σ) {e : Event} (he : e.still = true) (p : UInt32) :
    Leads m (m.log e) p p [] :=
  ⟨[e], .log m e, .of_still p fun _ h => List.mem_singleton.mp h ▸ he⟩

end Leads

variable [Bus β]

theorem enterException_leads (m : Machine β σ) (v : ExceptionVector) (p : UInt32) :
    Leads m (m.enterException v) p (m.enterException v).regs.pc
      (m.hooks.announcement (m.enterException v).regs.pc) := by
  obtain ⟨es, hes, hguard⟩ := m.enterException_adds v
  have hstill : ∀ e ∈ Event.exceptionTaken v m.regs.pc :: es, e.still = true := by
    intro e he
    rcases List.mem_cons.mp he with rfl | he
    · rfl
    · have hkind := hguard e he
      cases e <;> simp_all [Event.ofGuard, Event.still, Event.turns, Event.announces]
  exact ⟨_, hes, (Passage.of_still p hstill).append (.announcement m.hooks p _)⟩

theorem takeException_leads (hH : m.hooks.NoInterceptors) (v : ExceptionVector) (p : UInt32) :
    Leads m (m.takeException v) p (m.takeException v).regs.pc
      (.exception ⟨v, m.regs.pc, m.regs.sp⟩ ::
        m.hooks.announcement (m.takeException v).regs.pc) := by
  let record : Event := .exception ⟨v, m.regs.pc, m.regs.sp⟩
  have hrecord : Leads m ((m.mapRegs Registers.packStatus).recordException v) p p [record] :=
    ⟨[record], .of_event rfl rfl, ⟨nofun, trivial⟩, rfl, rfl⟩
  rw [takeException_of_noInterceptors hH]
  exact hrecord.trans (enterException_leads _ v p)

theorem enterFault_leads (hH : m.hooks.NoInterceptors) (f : Fault) (p : UInt32) :
    Leads m (m.enterFault f) p (m.enterFault f).regs.pc
      (.fault f :: .exception ⟨f.kind.vector, m.regs.pc, m.regs.sp⟩ ::
        m.hooks.announcement (m.enterFault f).regs.pc) := by
  have hfault : Leads m (({ m.takeFault.2 with lastFault := some f } : Machine β σ).log (.fault f))
      p p [.fault f] := ⟨[.fault f], .of_event rfl rfl, ⟨nofun, trivial⟩, rfl, rfl⟩
  exact hfault.trans (takeException_leads
    (m := ({ m.takeFault.2 with lastFault := some f } : Machine β σ).log (.fault f)) hH _ p)

theorem raiseFault_leads (hH : m.hooks.NoInterceptors) (f : Fault) (p : UInt32) :
    Leads m (m.raiseFault f) p (m.raiseFault f).regs.pc
      (.fault f :: .exception ⟨f.kind.vector, m.regs.pc, m.regs.sp⟩ ::
        m.hooks.announcement (m.raiseFault f).regs.pc) := by
  have htaken := enterFault_leads hH f p
  -- What follows the exception of the fault is no turn.
  have hlook : ∀ k : Machine β σ, Leads k k.takeFault.2 k.regs.pc k.regs.pc [] :=
    fun k => .of_parts rfl rfl
  have hbreak : ∀ (k : Machine β σ) (e : Event), e.still = true →
      Leads k (k.log e).requestBreak k.regs.pc k.regs.pc [] :=
    fun k e he => (Leads.log_still k he _).trans (.of_parts rfl rfl)
  have hdone := htaken.trans (hlook _)
  rw [List.append_nil] at hdone
  rw [raiseFault_eq]
  split
  · exact hdone
  · rename_i g _
    have hdouble := hdone.trans (hbreak _
      (.doubleFault f.kind.vector g.address (m.enterFault f).regs.sp) rfl)
    rw [List.append_nil] at hdouble
    exact hdouble

end Machine

namespace ControlInstructions
open Machine (Leads)
variable [Bus β] {m : Machine β σ} {w : UInt16} {p : UInt32}

theorem rts_leads : Leads m (rts w m).2 p m.popLong.1 (m.hooks.announcement m.popLong.1) :=
  ⟨_, rts_adds m w,
    ((Passage.calls m.hooks fun _ => rfl).append (.calls m.hooks fun _ => rfl)).append
      (.announcement m.hooks p _)⟩

theorem pc_rts : (rts w m).2.regs.pc = m.popLong.1 := by
  simp only [rts]
  rw [Machine.regs_jump]

theorem rte_leads (hs : m.regs.status.s = true) : Leads m (rte w m).2 p m.popWord.2.popLong.1
    (m.hooks.announcement m.popWord.2.popLong.1) :=
  ⟨_, rte_adds m w hs,
    ((Passage.calls m.hooks fun _ => rfl).append (.calls m.hooks fun _ => rfl)).append
      (.announcement m.hooks p _)⟩

theorem pc_rte (hs : m.regs.status.s = true) :
    (rte w m).2.regs.pc = m.popWord.2.popLong.1 := by
  simp only [rte, privileged, hs, if_true]
  rw [Machine.regs_jump]

theorem jsrAbsolute_leads : Leads m (jsrAbsolute w m).2 m.regs.pc m.fetchLong.1
    (m.hooks.announcement m.fetchLong.1) :=
  ⟨_, jsrAbsolute_adds m w,
    ((Passage.stream m.regs.pc 4).append (.calls m.hooks fun _ => rfl)).append
      ((Passage.calls m.hooks fun _ => rfl).append (.announcement m.hooks _ _))⟩

theorem pc_jsrAbsolute : (jsrAbsolute w m).2.regs.pc = m.fetchLong.1 := by
  simp only [jsrAbsolute, call]
  rw [Machine.regs_jump]

theorem jsrIndirect_leads :
    Leads m (jsrIndirect w m).2 p (m.regs.read (.address w.toUInt8)).1
      (m.hooks.announcement (m.regs.read (.address w.toUInt8)).1) :=
  ⟨_, jsrIndirect_adds m w rfl, (Passage.calls m.hooks fun _ => rfl).append
    ((Passage.calls m.hooks fun _ => rfl).append (.announcement m.hooks p _))⟩

theorem pc_jsrIndirect :
    (jsrIndirect w m).2.regs.pc = (m.regs.read (.address w.toUInt8)).1 := by
  simp only [jsrIndirect, call]
  rw [Machine.regs_jump]
  rfl

end ControlInstructions

namespace Machine
variable {m m₁ m₂ : Machine β σ}

def Proceeds (m m' : Machine β σ) : Prop :=
  ∃ legs : List Leg, (∀ leg ∈ legs, leg.Sound) ∧
    Leads m m' m.regs.pc m'.regs.pc (legs.flatMap (Leg.turns m.hooks))

namespace Proceeds

theorem trans (h : Proceeds m m₁) (h₁ : Proceeds m₁ m₂) : Proceeds m m₂ := by
  obtain ⟨legs, hsound, hleads⟩ := h
  obtain ⟨legs₁, hsound₁, hleads₁⟩ := h₁
  refine ⟨legs ++ legs₁, fun leg hleg => ?_, ?_⟩
  · rcases List.mem_append.mp hleg with hleg | hleg
    · exact hsound leg hleg
    · exact hsound₁ leg hleg
  · rw [hleads.hooks] at hleads₁
    rw [List.flatMap_append]
    exact hleads.trans hleads₁

theorem of_evolves {R : Registers → Registers → Prop}
    (h : Evolves (fun e => e.still = true) R m m₁) (hpc : m₁.regs.pc = m.regs.pc) :
    Proceeds m m₁ := by
  obtain ⟨es, hadds, hes⟩ := Adds.of_evolves h
  refine ⟨[], List.forall_mem_nil _, es, hadds, ?_⟩
  rw [hpc]
  exact .of_still _ hes

theorem of_logs (h : Logs (fun e => e.still = true) m m₁) : Proceeds m m₁ :=
  of_evolves (h.evolves Registers.kept_true.toKeptByException) (by rw [h.regs])

theorem of_parts (hpc : m₁.regs.pc = m.regs.pc) (hhooks : m₁.hooks = m.hooks)
    (hjournal : m₁.journal = m.journal) : Proceeds m m₁ := by
  refine ⟨[], List.forall_mem_nil _, ?_⟩
  rw [hpc]
  exact .of_parts hhooks hjournal

theorem refl (m : Machine β σ) : Proceeds m m := .of_parts rfl rfl rfl

theorem hooks (h : Proceeds m m₁) : m₁.hooks = m.hooks := by
  obtain ⟨_, _, hleads⟩ := h
  exact hleads.hooks

end Proceeds

variable [Bus β]

end Machine

namespace Hosted
open Machine (Proceeds)
variable {η : Type} [Host η] {s t : Hosted β σ η}

variable [Bus β]

end Hosted

namespace Execution
open Machine (Proceeds)
variable {η : Type} [Host η] [Bus β] {e : Execution β σ η}

end Execution

inductive Diversion where
  | opcode (w : UInt16)
  | exception (v : ExceptionVector)
  | interrupt (base level : UInt8)
  | fault (f : Fault)

namespace Diversion
variable [Bus β] {m : Machine β σ}

def perform (m : Machine β σ) : Diversion → Machine β σ
  | .opcode w => (ControlInstructions.table.dispatch w m).2
  | .exception v => m.takeException v
  | .interrupt base level => m.takeInterrupt base level
  | .fault f => m.raiseFault f

/-- Where it goes, if it goes anywhere: an address from the stack, the instruction stream, an
address register, or the vector table. -/
def target? (m : Machine β σ) : Diversion → Option UInt32
  | .opcode w =>
    match ControlInstructions.Mnemonic.ofWord w with
    | .rts => some m.popLong.1
    | .rte => if m.regs.status.s then some m.popWord.2.popLong.1 else none
    | .jsrAbsolute => some m.fetchLong.1
    | .jsrIndirect => some (m.regs.read (.address w.toUInt8)).1
    | _ => none
  | .exception v => some ((m.entry v).handler m.regs.vbr)
  | .interrupt base level =>
    if Machine.isInterruptLevel level then some ((m.entry (base + level)).handler m.regs.vbr)
    else none
  | .fault f => some ((m.faultEntry f).handler m.regs.vbr)

/-- The target is in the program counter, and everyone was told of it once and of nothing else. -/
def Announced (m m' : Machine β σ) (target : UInt32) : Prop :=
  m'.regs.pc = target ∧
    ∃ es, m.Adds m' es ∧ es.filter Event.announces = m.hooks.announcement target

omit [Bus β] in
theorem announced_of_leads {m' : Machine β σ} {p p' target : UInt32} {fs : List Event}
    (hpc : m'.regs.pc = target) (h : m.Leads m' p p' fs)
    (hfs : fs.filter Event.announces = m.hooks.announcement target) : Announced m m' target := by
  obtain ⟨es, hadds, hpassage⟩ := h
  refine ⟨hpc, es, hadds, ?_⟩
  rw [← hfs, ← hpassage.turns, List.filter_filter]
  apply List.filter_congr
  intro e _
  cases he : e.announces with
  | true => simp [Event.turns, he]
  | false => rfl

omit [Bus β] in
theorem announces_self (r : Registry β σ) (target : UInt32) :
    (r.announcement target).filter Event.announces = r.announcement target :=
  List.filter_eq_self.mpr (Passage.announces_announcement r target)

theorem takeException_announced (hH : m.hooks.NoInterceptors) (v : ExceptionVector) :
    Announced m (m.takeException v) ((m.entry v).handler m.regs.vbr) := by
  have hpc : (m.takeException v).regs.pc = (m.entry v).handler m.regs.vbr := by
    rw [Machine.regs_takeException hH]
    rfl
  refine announced_of_leads hpc (Machine.takeException_leads hH v m.regs.pc) ?_
  rw [hpc]
  exact announces_self m.hooks _

theorem raiseFault_announced (hH : m.hooks.NoInterceptors) (f : Fault) :
    Announced m (m.raiseFault f) ((m.faultEntry f).handler m.regs.vbr) := by
  have hpc : (m.raiseFault f).regs.pc = (m.faultEntry f).handler m.regs.vbr := by
    obtain ⟨p, hregs⟩ := Machine.regs_raiseFault hH f
    rw [hregs]
    rfl
  refine announced_of_leads hpc (Machine.raiseFault_leads hH f m.regs.pc) ?_
  rw [hpc]
  exact announces_self m.hooks _

theorem takeInterrupt_announced (hH : m.hooks.NoInterceptors) (base : UInt8) {level : UInt8}
    (hlevel : Machine.isInterruptLevel level = true) :
    Announced m (m.takeInterrupt base level) ((m.entry (base + level)).handler m.regs.vbr) := by
  have hbegun : ∀ {n : Machine β σ} {e : Event} {target : UInt32}, e.announces = false →
      Announced (m.log e) n target → Announced m n target := by
    rintro n e target he ⟨hpc, es, hadds, hes⟩
    refine ⟨hpc, _, (Machine.Adds.log m e).trans hadds, ?_⟩
    rw [List.singleton_append, List.filter_cons_of_neg (by simp [he])]
    exact hes
  have hmask : ∀ {n : Machine β σ} {target : UInt32}, Announced m n target →
      Announced m (n.mapRegs fun r => r.setMask level).interruptsChanged target := by
    rintro n target ⟨hpc, es, hadds, hes⟩
    exact ⟨hpc, es, ⟨hadds.hooks, hadds.journal⟩, hes⟩
  simp only [Machine.takeInterrupt]
  rw [if_pos hlevel]
  let begun := m.log (.interrupt base level m.regs.status.mask)
  exact hmask (hbegun (by rfl) (takeException_announced (m := begun) hH (base + level)))

theorem dispatch_announced (w : UInt16) {target : UInt32}
    (h : (opcode w).target? m = some target) :
    Announced m (ControlInstructions.table.dispatch w m).2 target := by
  simp only [OpcodeTable.dispatch, ControlInstructions.handler_eq]
  simp only [target?] at h
  cases hword : ControlInstructions.Mnemonic.ofWord w <;> simp only [hword] at h
  case rts =>
    cases h
    exact announced_of_leads (ControlInstructions.pc_rts (w := w))
      (ControlInstructions.rts_leads (w := w) (p := m.regs.pc)) (announces_self m.hooks _)
  case rte =>
    split at h
    · rename_i hs
      cases h
      exact announced_of_leads (ControlInstructions.pc_rte hs)
        (ControlInstructions.rte_leads (p := m.regs.pc) hs) (announces_self m.hooks _)
    · cases h
  case jsrAbsolute =>
    cases h
    exact announced_of_leads (ControlInstructions.pc_jsrAbsolute (w := w))
      (ControlInstructions.jsrAbsolute_leads (w := w)) (announces_self m.hooks _)
  case jsrIndirect =>
    cases h
    exact announced_of_leads ControlInstructions.pc_jsrIndirect
      (ControlInstructions.jsrIndirect_leads (p := m.regs.pc)) (announces_self m.hooks _)
  all_goals cases h

theorem announced (hH : m.hooks.NoInterceptors) {d : Diversion} {target : UInt32}
    (h : d.target? m = some target) : Announced m (d.perform m) target := by
  cases d with
  | opcode w => exact dispatch_announced w h
  | exception v =>
    cases h
    exact takeException_announced hH v
  | interrupt base level =>
    simp only [target?] at h
    split at h
    · rename_i hlevel
      cases h
      exact takeInterrupt_announced hH base hlevel
    · cases h
  | fault f =>
    cases h
    exact raiseFault_announced hH f

end Diversion

namespace Execution
variable {η : Type} [Host η] [Bus β]

end Execution
end Mc68000
