import Mc68000.Memory.Ram
import Mc68000.Proofs.Instruction

/-!
# Accesses of memory

Between two looks at its latch, flat memory has bytes read and written and nothing else happens to
it. What it has latched by then is the first access that it refused. All that exceptions and
instructions do to memory is of this kind, as long as the exception hooks do no more.
-/

namespace Mc68000

namespace Ram

/-- One byte read, or written if there is a value. -/
structure Access where
  address : UInt32
  value : Option UInt8

def Access.fault (x : Access) : Fault := ⟨.bus, x.address, 1, x.value.isNone⟩

def access (r : Ram) (x : Access) : Ram :=
  match x.value with
  | none => (r.readByte x.address).2
  | some b => r.writeByte x.address b

def perform (r : Ram) (xs : List Access) : Ram := xs.foldl access r

def firstFault (r : Ram) (xs : List Access) : Option Fault :=
  (xs.find? fun x => r.isUnmapped x.address).map Access.fault

def Accessed (r r' : Ram) : Prop := ∃ xs, r' = r.perform xs

theorem limit_access (r : Ram) (x : Access) : (r.access x).limit = r.limit := by
  simp only [access, readByte, writeByte]
  split <;> split <;> rfl

theorem latch_access (r : Ram) (x : Access) :
    (r.access x).latch = r.latch.or (r.firstFault [x]) := by
  obtain ⟨a, value⟩ := x
  cases value with
  | none | some b =>
    cases h : r.isUnmapped a <;>
      simp [access, readByte, writeByte, firstFault, refuse, poke, Access.fault, h]

theorem limit_perform (r : Ram) (xs : List Access) : (r.perform xs).limit = r.limit := by
  induction xs generalizing r with
  | nil => rfl
  | cons x xs ih => exact (ih (r.access x)).trans (limit_access r x)

theorem firstFault_congr {r r' : Ram} (h : r'.limit = r.limit) (xs : List Access) :
    r'.firstFault xs = r.firstFault xs := by
  simp only [firstFault, isUnmapped, h]

theorem firstFault_cons (r : Ram) (x : Access) (xs : List Access) :
    r.firstFault (x :: xs) = (r.firstFault [x]).or (r.firstFault xs) := by
  cases h : r.isUnmapped x.address <;> simp [firstFault, h]

theorem latch_perform (r : Ram) (xs : List Access) :
    (r.perform xs).latch = r.latch.or (r.firstFault xs) := by
  induction xs generalizing r with
  | nil => simp [perform, firstFault]
  | cons x xs ih =>
    have hrest := ih (r.access x)
    rw [firstFault_congr (limit_access r x), latch_access, Option.or_assoc,
      ← firstFault_cons] at hrest
    exact hrest

theorem latch_perform_of_none {r : Ram} (h : r.latch = none) (xs : List Access) :
    (r.perform xs).latch = r.firstFault xs := by
  rw [latch_perform, h, Option.none_or]

namespace Accessed
variable {r r₁ r₂ : Ram}

theorem refl (r : Ram) : Accessed r r := ⟨[], rfl⟩

theorem trans (h₁ : Accessed r r₁) (h₂ : Accessed r₁ r₂) : Accessed r r₂ := by
  obtain ⟨xs, rfl⟩ := h₁
  obtain ⟨ys, rfl⟩ := h₂
  exact ⟨xs ++ ys, by simp [perform]⟩

theorem readWord (r : Ram) (a : UInt32) : Accessed r (Bus.readWord r a).2 :=
  ⟨[⟨a, none⟩, ⟨a + 1, none⟩], rfl⟩

theorem writeWord (r : Ram) (a : UInt32) (w : UInt16) : Accessed r (Bus.writeWord r a w) :=
  ⟨[⟨a, some (BigEndian.highByte w)⟩, ⟨a + 1, some (BigEndian.lowByte w)⟩], rfl⟩

theorem readLong (r : Ram) (a : UInt32) : Accessed r (Bus.readLong r a).2 :=
  (readWord r a).trans (readWord _ (a + 2))

theorem writeLong (r : Ram) (a l : UInt32) : Accessed r (Bus.writeLong r a l) :=
  (writeWord r a (BigEndian.highWord l)).trans (writeWord _ (a + 2) (BigEndian.lowWord l))

end Accessed
end Ram

/-- The exception hooks do no more than read and write memory, whatever they answer. -/
def Registry.OnlyAccess {σ : Type} (r : Registry Ram σ) : Prop :=
  ∀ v, ∀ e ∈ (r.exception v).entries, ∀ s : Scene Ram σ,
    (e.value v s).2.registers = s.registers ∧ s.bus.Accessed (e.value v s).2.bus

namespace Machine
variable {σ : Type} {P : Event → Prop} {m m₁ m₂ : Machine Ram σ}

/-- Memory was accessed. No fault was taken or routed, and nothing was charged. -/
structure Works (m m' : Machine Ram σ) : Prop where
  hooks : m'.hooks = m.hooks
  lastFault : m'.lastFault = m.lastFault
  cycles : m'.cycles = m.cycles
  bus : m.bus.Accessed m'.bus

namespace Works

theorem trans (h : Works m m₁) (h₁ : Works m₁ m₂) : Works m m₂ :=
  ⟨h₁.hooks.trans h.hooks, h₁.lastFault.trans h.lastFault, h₁.cycles.trans h.cycles,
    h.bus.trans h₁.bus⟩

theorem of_parts (hooks : m₁.hooks = m.hooks) (hfault : m₁.lastFault = m.lastFault)
    (hcycles : m₁.cycles = m.cycles) (hbus : m₁.bus = m.bus) : Works m m₁ :=
  ⟨hooks, hfault, hcycles, by rw [hbus]; exact .refl _⟩

theorem refl (m : Machine Ram σ) : Works m m := of_parts rfl rfl rfl rfl

theorem onlyAccess (h : Works m m₁) (hH : m.hooks.OnlyAccess) : m₁.hooks.OnlyAccess := by
  rw [h.hooks]
  exact hH

end Works

theorem mapRegs_works (m : Machine Ram σ) (f : Registers → Registers) : Works m (m.mapRegs f) :=
  .of_parts rfl rfl rfl rfl

theorem log_works (m : Machine Ram σ) (e : Event) : Works m (m.log e) := .of_parts rfl rfl rfl rfl

theorem readWord_works (m : Machine Ram σ) (a : UInt32) : Works m (m.readWord a).2 :=
  ⟨rfl, rfl, rfl, .readWord m.bus a⟩

theorem readLong_works (m : Machine Ram σ) (a : UInt32) : Works m (m.readLong a).2 :=
  ⟨rfl, rfl, rfl, .readLong m.bus a⟩

theorem writeWord_works (m : Machine Ram σ) (a : UInt32) (w : UInt16) :
    Works m (m.writeWord a w) :=
  ⟨rfl, rfl, rfl, .writeWord m.bus a w⟩

theorem writeLong_works (m : Machine Ram σ) (a l : UInt32) : Works m (m.writeLong a l) :=
  ⟨rfl, rfl, rfl, .writeLong m.bus a l⟩

theorem advance_works (m : Machine Ram σ) (size : UInt32) : Works m (m.advance size) :=
  (m.mapRegs_works _).trans (log_works _ _)

theorem foldl_callHook_works (call : HookCall) (ls : List (Registry.Listener Ram σ))
    (hls : ∀ l ∈ ls, ∀ s : Scene Ram σ,
      (l.run s).2.registers = s.registers ∧ s.bus.Accessed (l.run s).2.bus)
    (before : Bool × Machine Ram σ) :
    (ls.foldl (callHook call) before).2.regs = before.2.regs ∧
      Works before.2 (ls.foldl (callHook call) before).2 := by
  induction ls generalizing before with
  | nil => exact ⟨rfl, .refl _⟩
  | cons l ls ih =>
    obtain ⟨hregs, hbus⟩ := hls l (by simp) (before.2.log (.hook l.handle call)).scene
    have hl : Works before.2 (callHook call before l).2 := ⟨rfl, rfl, rfl, hbus⟩
    obtain ⟨hrest, hworks⟩ := ih (fun k hk => hls k (List.mem_cons_of_mem _ hk))
      (callHook call before l)
    exact ⟨hrest.trans hregs, hl.trans hworks⟩

theorem callHooks_exception_works (hH : m.hooks.OnlyAccess) (v : ExceptionVector) :
    (m.callHooks (.exception v)).2.regs = m.regs ∧ Works m (m.callHooks (.exception v)).2 := by
  apply foldl_callHook_works _ _ ?_ (false, m)
  intro l hl s
  simp only [Registry.listeners, Registry.listenersOf, List.mem_map] at hl
  obtain ⟨e, he, rfl⟩ := hl
  exact hH v e he s

theorem notify_works (m : Machine Ram σ) (call : HookCall) (hc : call.intercepts = false) :
    Works m (m.notify call) := by
  obtain ⟨o, es, hm, -⟩ := m.notify_eq hc
  rw [hm]
  exact .of_parts rfl rfl rfl rfl

theorem checkStack_works (m : Machine Ram σ) : Works m m.checkStack := by
  simp only [checkStack]
  split <;> split <;> exact .of_parts rfl rfl rfl rfl

theorem pushFrame_works (m : Machine Ram σ) (v : ExceptionVector) (sr : UInt16) (pc : UInt32) :
    Works m (m.pushFrame v sr pc) := by
  have hroom := m.mapRegs_works fun r => r.reserve v.frameSize
  simp only [pushFrame]
  generalize m.mapRegs (fun r => r.reserve v.frameSize) = n at hroom ⊢
  split
  · have hblank := ((hroom.trans (writeWord_works n n.regs.sp 0)).trans
      (writeLong_works _ (n.regs.sp + 2) 0)).trans (writeWord_works _ (n.regs.sp + 6) 0)
    have hstatus := hblank.trans (writeWord_works _ (n.regs.sp + 8) sr)
    exact hstatus.trans (writeLong_works _ (n.regs.sp + 10) pc)
  · have hstatus := hroom.trans (writeWord_works n n.regs.sp sr)
    exact hstatus.trans (writeLong_works _ (n.regs.sp + 2) pc)

theorem jump_works (m : Machine Ram σ) (pc : UInt32) : Works m (m.jump pc) := by
  have hannounced := m.notify_works (.newPc pc) rfl
  exact hannounced.trans (.of_parts rfl rfl rfl rfl)

theorem enterHandler_works (m : Machine Ram σ) (v : ExceptionVector) :
    Works m (m.enterHandler v) := by
  have hread : Works m (m.readVector (ExceptionVector.entryAddress m.regs.vbr v)).2 :=
    m.readLong_works _
  simp only [enterHandler]
  exact (hread.trans (jump_works _ _)).trans (mapRegs_works _ _)

theorem enterException_works (m : Machine Ram σ) (v : ExceptionVector) :
    Works m (m.enterException v) := by
  have hsuper := (m.log_works (.exceptionTaken v m.regs.pc)).trans
    (mapRegs_works _ Registers.enterSupervisor)
  have hframe := hsuper.trans (pushFrame_works _ v m.regs.sr m.regs.pc)
  exact (hframe.trans (checkStack_works _)).trans (enterHandler_works _ v)

theorem interceptException_works (hH : m.hooks.OnlyAccess) (v : ExceptionVector) :
    (m.interceptException v).2.regs = m.regs.packStatus ∧ Works m (m.interceptException v).2 := by
  have hrecord : Works m ((m.mapRegs Registers.packStatus).recordException v) :=
    .of_parts rfl rfl rfl rfl
  obtain ⟨hregs, hhooks⟩ := callHooks_exception_works (hrecord.onlyAccess hH) v
  exact ⟨hregs, hrecord.trans hhooks⟩

theorem takeException_works (hH : m.hooks.OnlyAccess) (v : ExceptionVector) :
    Works m (m.takeException v) := by
  have hhooks := (interceptException_works hH v).2
  rw [takeException_eq]
  split
  · exact hhooks.trans (log_works _ _)
  · exact hhooks.trans (enterException_works _ v)

theorem takeInterrupt_works (hH : m.hooks.OnlyAccess) (base level : UInt8) :
    Works m (m.takeInterrupt base level) := by
  have hlog := m.log_works (.interrupt base level m.regs.status.mask)
  have hmask : ∀ n : Machine Ram σ,
      Works n (n.mapRegs fun r => r.setMask level).interruptsChanged :=
    fun n => .of_parts rfl rfl rfl rfl
  simp only [takeInterrupt]
  split
  · have htaken := hlog.trans (takeException_works (hlog.onlyAccess hH) (base + level))
    exact htaken.trans (hmask _)
  · exact m.log_works _

end Machine

namespace ControlInstructions
variable {σ : Type} {m : Machine Ram σ}
open Machine (Works)

theorem fetchWord_works (m : Machine Ram σ) : Works m m.fetchWord.2 :=
  (m.advance_works 2).trans (Machine.readWord_works _ _)

theorem fetchLong_works (m : Machine Ram σ) : Works m m.fetchLong.2 :=
  (m.advance_works 4).trans (Machine.readLong_works _ _)

theorem popWord_works (m : Machine Ram σ) : Works m m.popWord.2 :=
  (m.mapRegs_works _).trans (Machine.readWord_works _ _)

theorem popLong_works (m : Machine Ram σ) : Works m m.popLong.2 :=
  (m.mapRegs_works _).trans (Machine.readLong_works _ _)

theorem pushLong_works (m : Machine Ram σ) (l : UInt32) : Works m (m.pushLong l) :=
  (m.mapRegs_works _).trans (Machine.writeLong_works _ _ l)

theorem refuse_works (hH : m.hooks.OnlyAccess) (v : ExceptionVector) :
    Works m ((m.setPc (m.regs.pc - 2)).takeException v) := by
  have hback : Works m (m.setPc (m.regs.pc - 2)) := m.mapRegs_works _
  exact hback.trans (Machine.takeException_works (hback.onlyAccess hH) v)

theorem privileged_works (hH : m.hooks.OnlyAccess) {h : Handler Ram σ} (w : UInt16)
    (hh : Works m (h w m).2) : Works m (privileged h w m).2 := by
  simp only [privileged]
  split
  · exact hh
  · exact refuse_works hH _

theorem stop_works (hH : m.hooks.OnlyAccess) (w : UInt16) : Works m (stop w m).2 := by
  refine privileged_works hH w ?_
  have hfetch := fetchWord_works m
  generalize m.fetchWord = p at hfetch ⊢
  exact hfetch.trans (.of_parts rfl rfl rfl rfl)

theorem moveToSr_works (hH : m.hooks.OnlyAccess) (w : UInt16) : Works m (moveToSr w m).2 := by
  refine privileged_works hH w ?_
  have hfetch := fetchWord_works m
  generalize m.fetchWord = p at hfetch ⊢
  exact hfetch.trans (.of_parts rfl rfl rfl rfl)

theorem rte_works (hH : m.hooks.OnlyAccess) (w : UInt16) : Works m (rte w m).2 := by
  refine privileged_works hH w ?_
  have hsr := popWord_works m
  generalize m.popWord = p at hsr ⊢
  obtain ⟨sr, m₁⟩ := p
  have hpop := hsr.trans (popLong_works m₁)
  dsimp only
  generalize m₁.popLong = q at hpop ⊢
  obtain ⟨dest, n⟩ := q
  have hloaded := hpop.trans (n.mapRegs_works fun r => r.loadStatus sr)
  have hsp := hloaded.trans (Machine.notify_works _ (.newSp .incremented) rfl)
  exact (hsp.trans (Machine.notify_works _ (.rte dest) rfl)).trans (Machine.jump_works _ dest)

theorem rts_works (m : Machine Ram σ) (w : UInt16) : Works m (rts w m).2 := by
  have hpop := popLong_works m
  simp only [rts]
  generalize m.popLong = p at hpop ⊢
  obtain ⟨dest, n⟩ := p
  have hsp := hpop.trans (n.notify_works (.newSp .incremented) rfl)
  exact (hsp.trans (Machine.notify_works _ (.rts dest) rfl)).trans (Machine.jump_works _ dest)

theorem call_works (m : Machine Ram σ) (ret dest : UInt32) : Works m (call m ret dest) := by
  have hsp := (pushLong_works m ret).trans (Machine.notify_works _ (.newSp .decremented) rfl)
  exact hsp.trans (Machine.jump_works _ dest)

theorem jsrAbsolute_works (m : Machine Ram σ) (w : UInt16) : Works m (jsrAbsolute w m).2 := by
  have hfetch := fetchLong_works m
  simp only [jsrAbsolute]
  generalize m.fetchLong = p at hfetch ⊢
  obtain ⟨dest, n⟩ := p
  have hjsr := hfetch.trans (n.notify_works (.jsr n.regs.pc dest) rfl)
  exact hjsr.trans (call_works _ n.regs.pc dest)

theorem jsrIndirect_works (m : Machine Ram σ) (w : UInt16) : Works m (jsrIndirect w m).2 := by
  simp only [jsrIndirect]
  exact (m.notify_works (.jsrIndirect m.regs.pc m.regs.a[Register.place w.toUInt8]) rfl).trans
    (call_works _ _ _)

theorem link_works (m : Machine Ram σ) (w : UInt16) : Works m (link w m).2 := by
  have hfetch := fetchWord_works m
  simp only [link]
  generalize m.fetchWord = p at hfetch ⊢
  obtain ⟨d, n⟩ := p
  have hsaved : ∀ k : Machine Ram σ, Works k
      ((k.writeLong k.regs.sp k.regs.a[Register.place w.toUInt8]).mapRegs fun r =>
        linkFrame r (Register.place w.toUInt8) d.toInt16.toInt32) :=
    fun k => (k.writeLong_works _ _).trans (Machine.mapRegs_works _ _)
  have hroom := hfetch.trans (n.mapRegs_works fun r => r.reserve 4)
  have hlink := (hroom.trans (hsaved _)).trans
    (Machine.notify_works _ (.link d.toInt16.toInt32) rfl)
  exact hlink.trans (Machine.notify_works _ (.newSp .decremented) rfl)

theorem dispatch_works (hH : m.hooks.OnlyAccess) (w : UInt16) :
    Works m (table.dispatch w m).2 := by
  simp only [OpcodeTable.dispatch]
  apply handler_cases w fun h => Works m (h w m).2
  case hnop => exact .refl m
  case hstop => exact fun _ => stop_works hH w
  case hrte => exact fun _ => rte_works hH w
  case hrts => exact rts_works m w
  case htrap => exact Machine.takeException_works hH _
  case hillegal => exact refuse_works hH _
  case habsolute => exact jsrAbsolute_works m w
  case hindirect => exact jsrIndirect_works m w
  case hlink => exact link_works m w
  case hmove => exact fun _ => moveToSr_works hH w

end ControlInstructions
end Mc68000
