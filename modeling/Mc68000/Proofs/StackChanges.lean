import Mc68000.Machine.Control
import Mc68000.Memory.Ram
import Mc68000.Proofs.Additions

/-!
# Who is told of a new stack pointer

The hooks for the stack pointer are told of pushes, pops and LINK. They are told of nothing when a
change of mode puts the other stack pointer into A7 without a pop, nor when a frame is pushed, and
RTE to user state is told as a pop.
-/

namespace Mc68000
variable {β σ : Type}

@[simp]
def HookCall.stackChange? : HookCall → Option StackChange
  | .newSp c => some c
  | _ => none

def Event.stackChange? : Event → Option (HookHandle × StackChange)
  | .hook h call => call.stackChange?.map fun c => (h, c)
  | _ => none

namespace Registry
variable (r : Registry β σ)

def told (c : StackChange) : List (HookHandle × StackChange) :=
  (r.listeners (.newSp c)).map fun l => (l.handle, c)

@[simp]
theorem stackChange_calls (call : HookCall) :
    (r.calls call).filterMap Event.stackChange? = call.stackChange?.toList.flatMap r.told := by
  rw [calls, List.filterMap_map]
  cases call with
  | newSp c =>
    simp only [HookCall.stackChange?, Option.toList_some, List.flatMap_singleton, told]
    exact congrFun (List.filterMap_eq_map ..) _
  | _ => exact List.filterMap_eq_nil_iff.mpr fun _ _ => rfl

@[simp]
theorem stackChange_announcement (pc : UInt32) :
    (r.announcement pc).filterMap Event.stackChange? = [] := by
  rw [announcement, List.filterMap_append, stackChange_calls]
  rfl

end Registry

theorem Event.stackChange_guard {es : List Event} (h : ∀ e ∈ es, e.ofGuard = true) :
    es.filterMap stackChange? = [] := by
  rw [List.filterMap_eq_nil_iff]
  intro e he
  have hguard := h e he
  cases e <;> simp_all [ofGuard, stackChange?]

namespace Machine
variable {m m₁ m₂ : Machine β σ}

/-- The hooks for the stack pointer are told of this change, or of none. -/
def Tells (m m' : Machine β σ) (change : Option StackChange) : Prop :=
  Shows Event.stackChange? m m' (change.toList.flatMap m.hooks.told)

theorem Adds.tells {es : List Event} (h : Adds m m₁ es) {change : Option StackChange}
    (hes : es.filterMap Event.stackChange? = change.toList.flatMap m.hooks.told) :
    m.Tells m₁ change := by
  rw [Tells, ← hes]
  exact h.shows _

variable [Bus β]

theorem takeException_tells (m : Machine β σ) (v : ExceptionVector) :
    m.Tells (m.takeException v) none := by
  have hintercepted := m.interceptException_adds v
  rw [takeException_eq]
  split
  · apply (hintercepted.trans (.log _ (.exceptionHandled v))).tells
    simp only [List.cons_append, List.filterMap_append, List.filterMap_cons, Event.stackChange?,
      Registry.stackChange_calls]
    rfl
  · obtain ⟨es, hes, hguard⟩ := (m.interceptException v).2.enterException_adds v
    apply (hintercepted.trans hes).tells
    simp only [List.cons_append, List.filterMap_append, List.filterMap_cons, Event.stackChange?,
      Registry.stackChange_calls, Registry.stackChange_announcement,
      Event.stackChange_guard hguard]
    rfl

theorem takeInterrupt_tells (m : Machine β σ) (base level : UInt8) :
    m.Tells (m.takeInterrupt base level) none := by
  have hmask : ∀ k : Machine β σ, m.Tells k none →
      m.Tells (k.mapRegs fun r => r.setMask level).interruptsChanged none := fun _ hk => hk
  simp only [takeInterrupt]
  split
  · have hlog : m.Tells (m.log (.interrupt base level m.regs.status.mask)) none :=
      (Adds.log m _).tells rfl
    exact hmask _ (hlog.trans (takeException_tells _ (base + level)))
  · exact (Adds.log m _).tells rfl

end Machine

namespace ControlInstructions
open Machine (Tells Adds)

@[simp]
def Mnemonic.stackChange? (supervisor : Bool) : Mnemonic → Option StackChange
  | rts => some .incremented
  | rte => if supervisor then some .incremented else none
  | jsrAbsolute | jsrIndirect | link => some .decremented
  | _ => none

variable [Bus β] (m : Machine β σ) (w : UInt16)

theorem refuse_tells (v : ExceptionVector) :
    m.Tells ((m.setPc (m.regs.pc - 2)).takeException v) none :=
  Machine.takeException_tells (m.setPc (m.regs.pc - 2)) v

theorem privileged_tells {h : Handler β σ} (hs : m.regs.status.s = false) :
    m.Tells (privileged h w m).2 none := by
  simp only [privileged, hs, Bool.false_eq_true, if_false]
  exact refuse_tells m _

theorem dispatch_tells :
    m.Tells (table.dispatch w m).2 ((Mnemonic.ofWord w).stackChange? m.regs.status.s) := by
  simp only [OpcodeTable.dispatch, handler_eq]
  cases hword : Mnemonic.ofWord w with
  | nop => exact (Adds.refl m).tells rfl
  | stop =>
    cases hs : m.regs.status.s with
    | true => exact (stop_adds m w hs).tells rfl
    | false => exact privileged_tells m w hs
  | rte =>
    cases hs : m.regs.status.s with
    | true =>
      apply (rte_adds m w hs).tells
      simp
    | false =>
      simp only [Mnemonic.handler, rte]
      exact privileged_tells m w hs
  | rts =>
    apply (rts_adds m w).tells
    simp
  | trap =>
    simp only [Mnemonic.handler, trap]
    exact m.takeException_tells _
  | jsrAbsolute =>
    apply (jsrAbsolute_adds m w).tells
    rw [List.cons_append, List.filterMap_cons_none rfl]
    simp
  | jsrIndirect =>
    apply (jsrIndirect_adds m w rfl).tells
    simp
  | link =>
    apply (link_adds m w).tells
    rw [List.cons_append, List.filterMap_cons_none rfl]
    simp
  | moveToSr =>
    cases hs : m.regs.status.s with
    | true => exact (moveToSr_adds m w hs).tells rfl
    | false => exact privileged_tells m w hs
  | illegal =>
    simp only [Mnemonic.handler, OpcodeTable.illegalOpcode]
    exact refuse_tells m _

theorem Mnemonic.stackChange_ne_changed (supervisor : Bool) (i : Mnemonic) :
    i.stackChange? supervisor ≠ some .changed := by
  cases i <;> cases supervisor <;> decide

end ControlInstructions

/-- What may move the stack pointer of a running processor. -/
inductive Occasion where
  | opcode (w : UInt16)
  | exception (v : ExceptionVector)
  | interrupt (base level : UInt8)

namespace Occasion

def stackChange? (m : Machine β σ) : Occasion → Option StackChange
  | .opcode w => (ControlInstructions.Mnemonic.ofWord w).stackChange? m.regs.status.s
  | _ => none

theorem stackChange_ne_changed (m : Machine β σ) (o : Occasion) :
    o.stackChange? m ≠ some .changed := by
  cases o with
  | opcode w => exact ControlInstructions.Mnemonic.stackChange_ne_changed _ _
  | exception v => exact nofun
  | interrupt base level => exact nofun

variable [Bus β]

def perform (m : Machine β σ) : Occasion → Machine β σ
  | .opcode w => (ControlInstructions.table.dispatch w m).2
  | .exception v => m.takeException v
  | .interrupt base level => m.takeInterrupt base level

theorem perform_tells (m : Machine β σ) (o : Occasion) :
    m.Tells (o.perform m) (o.stackChange? m) := by
  cases o with
  | opcode w => exact ControlInstructions.dispatch_tells m w
  | exception v => exact m.takeException_tells v
  | interrupt base level => exact m.takeInterrupt_tells base level

end Occasion

namespace Machine

/-- If the stack pointer is another one now, then all hooks for it were told so: of a replacement if
the mode has changed. -/
def AnnouncesSp (m m' : Machine β σ) : Prop :=
  m'.regs.sp ≠ m.regs.sp → ∃ c,
    (∀ l ∈ m.hooks.listeners (.newSp c), Logged (fun e => e = .hook l.handle (.newSp c)) m m') ∧
      (m'.regs.status.s ≠ m.regs.status.s → c = .changed)

variable {m m' : Machine β σ} {change : Option StackChange}

theorem Tells.logged_iff (h : m.Tells m' change) (handle : HookHandle) (c : StackChange) :
    Logged (fun e => e = .hook handle (.newSp c)) m m' ↔
      ∃ k, change = some k ∧ (handle, c) ∈ m.hooks.told k := by
  obtain ⟨es, hj, hes⟩ := h
  have hmem : Logged (fun e => e = .hook handle (.newSp c)) m m' ↔
      (handle, c) ∈ es.reverse.filterMap Event.stackChange? := by
    rw [List.mem_filterMap]
    constructor
    · intro hlogged
      obtain ⟨e, he, rfl⟩ := hlogged.of_append hj
      exact ⟨_, List.mem_reverse.mpr he, rfl⟩
    · rintro ⟨e, he, hchange⟩
      refine ⟨es, hj, e, List.mem_reverse.mp he, ?_⟩
      cases e with
      | hook h call => cases call <;> simp_all [Event.stackChange?, HookCall.stackChange?]
      | _ => simp [Event.stackChange?] at hchange
  rw [hmem, hes]
  cases change <;> simp

theorem Tells.announcesSp_iff (h : m.Tells m' change) (hne : change ≠ some .changed) :
    m.AnnouncesSp m' ↔ m.hooks.newSp.entries = [] ∨ m'.regs.sp = m.regs.sp ∨
      (change.isSome ∧ m'.regs.status.s = m.regs.status.s) := by
  constructor
  · intro hannounces
    by_cases hnil : m.hooks.newSp.entries = []
    · exact .inl hnil
    by_cases hsp : m'.regs.sp = m.regs.sp
    · exact .inr (.inl hsp)
    -- What a hook was told can only be the change that was told to all, so not a replacement.
    obtain ⟨c, hcalled, hmode⟩ := hannounces hsp
    obtain ⟨e, he⟩ := List.exists_mem_of_ne_nil _ hnil
    obtain ⟨k, hchange, hk⟩ := (h.logged_iff _ c).mp (hcalled _ (List.mem_map_of_mem he))
    obtain ⟨l, -, hl⟩ := List.mem_map.mp hk
    have hck : k = c := (Prod.mk.inj hl).2
    rw [hchange, hck] at hne ⊢
    have hstays : m'.regs.status.s = m.regs.status.s :=
      Decidable.byContradiction fun hdiffers => hne (congrArg some (hmode hdiffers))
    exact .inr (.inr ⟨rfl, hstays⟩)
  · rintro (hnil | hsp | ⟨hsome, hmode⟩) hmoved
    · refine ⟨.changed, fun l hl => ?_, fun _ => rfl⟩
      simp [Registry.listeners, Registry.listenersOf, hnil] at hl
    · exact absurd hsp hmoved
    · obtain ⟨c, rfl⟩ := Option.isSome_iff_exists.mp hsome
      refine ⟨c, fun l hl => ?_, fun hdiffers => absurd hmode hdiffers⟩
      exact (h.logged_iff _ c).mpr ⟨c, rfl, List.mem_map_of_mem hl⟩

end Machine

namespace Occasion
variable [Bus β]

/-- What the hooks for the stack pointer are told is told by the opcode and the mode alone. So a
change of the stack pointer is announced, if there are hooks, exactly by an opcode that tells
something and leaves the mode as it was. -/
theorem perform_announcesSp_iff (m : Machine β σ) (o : Occasion) :
    m.Tells (o.perform m) (o.stackChange? m) ∧
      (m.AnnouncesSp (o.perform m) ↔ m.hooks.newSp.entries = [] ∨
        (o.perform m).regs.sp = m.regs.sp ∨
          ((o.stackChange? m).isSome ∧ (o.perform m).regs.status.s = m.regs.status.s)) :=
  ⟨o.perform_tells m, (o.perform_tells m).announcesSp_iff (o.stackChange_ne_changed m)⟩

def leaving : Machine Ram Unit :=
  let m := Machine.ofSettings Settings.default ((Ram.ofSize 256).loadWords 0xA0 [0x46FC, 0]) ()
  let m := ((m.setRegister .sp 0x80).setRegister .usp 0x40).setRegister .pc 0xA2
  (m.installHook (.newSp fun _ => id)).2

theorem not_announcesSp_leaving :
    ¬ leaving.AnnouncesSp ((Occasion.opcode 0x46FC).perform leaving) := by
  intro h
  have hmoved : ((opcode 0x46FC).perform leaving).regs.sp ≠ leaving.regs.sp := by decide +kernel
  obtain ⟨c, hcalled, -⟩ := h hmoved
  have hadds : leaving.Adds ((opcode 0x46FC).perform leaving) [.stream leaving.regs.pc 2] :=
    ControlInstructions.moveToSr_adds leaving 0x46FC rfl
  let l : Registry.Listener Ram Unit := ⟨⟨.newSp, 0, 0, 0⟩, Registry.observing id⟩
  obtain ⟨e, he, hhook⟩ := (hcalled l (List.mem_singleton_self l)).of_append hadds.journal
  rw [List.reverse_singleton, List.mem_singleton] at he
  rw [he] at hhook
  cases hhook

end Occasion
end Mc68000
