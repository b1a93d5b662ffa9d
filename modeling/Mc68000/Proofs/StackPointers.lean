import Mc68000.Machine.Control
import Mc68000.Proofs.Nesting

/-!
# Two stack pointers in three words

A7 and the two parked words hold two stack pointers between them, and which word holds which turns
with the mode. The register file behaves as a machine that has a register of its own for either
stack pointer and just selects one of them by its mode (`view`). The word that is left over is dead:
it is written before it is read (`view_withParked`).
-/

namespace Mc68000

/-- A register of that machine. A7 is not one of them. -/
inductive LogicalRegister where
  | data (i : Fin 8)
  | address (i : Fin 7)
  | userSp
  | supervisorSp
  | pc
  deriving DecidableEq

/-- Its state. The packed word is only there for the next unpacking. -/
@[ext]
structure RegisterView where
  value : LogicalRegister → UInt32
  status : Status
  word : UInt16

namespace RegisterView

def active (v : RegisterView) : LogicalRegister := if v.status.s then .supervisorSp else .userSp

def put (v : RegisterView) (q : LogicalRegister) (x : UInt32) : RegisterView :=
  { v with value := Function.update v.value q x }

def load (v : RegisterView) (w : UInt16) : RegisterView :=
  { v with status := Status.ofWord w, word := w }

end RegisterView

def Register.logical? (active : LogicalRegister) : Register → Option LogicalRegister
  | .data n => some (.data (place n))
  | .address n => some (if h : (place n).val < 7 then .address ⟨place n, h⟩ else active)
  | .usp => some .userSp
  | .ssp => some .supervisorSp
  | .sp => some active
  | .pc => some .pc
  | .sr => none

def Register.fit : Register → UInt32 → UInt32
  | .sr, x => x &&& 0xF71F
  | _, x => x

def RegisterView.read (v : RegisterView) (q : Register) : UInt32 :=
  match q.logical? v.active with
  | some l => v.value l
  | none => v.status.toWord.toUInt32

inductive RegisterOp where
  | setSp (x : UInt32)
  | setUserSp (x : UInt32)
  | setSupervisorSp (x : UInt32)
  | reserve (n : UInt32)
  | release (n : UInt32)
  | enterSupervisor
  | packStatus
  | unpackStatus
  | setRegister (q : Register) (x : UInt32)

namespace RegisterOp

/-- The only register that the operation writes to, if it writes to any. -/
def target (active : LogicalRegister) : RegisterOp → Option LogicalRegister
  | .setSp _ | .reserve _ | .release _ => some active
  | .setUserSp _ => some .userSp
  | .setSupervisorSp _ => some .supervisorSp
  | .enterSupervisor | .packStatus | .unpackStatus => none
  | .setRegister q _ => q.logical? active

def onView (v : RegisterView) : RegisterOp → RegisterView
  | .setSp x => v.put v.active x
  | .setUserSp x => v.put .userSp x
  | .setSupervisorSp x => v.put .supervisorSp x
  | .reserve n => v.put v.active (v.value v.active - n)
  | .release n => v.put v.active (v.value v.active + n)
  | .enterSupervisor => { v with status := { v.status with s := true } }
  | .packStatus => { v with word := v.status.toWord }
  | .unpackStatus => v.load v.word
  | .setRegister q x =>
    match q.logical? v.active with
    | some l => v.put l x
    | none => v.load x.toUInt16

def onMachine {β σ : Type} (m : Machine β σ) : RegisterOp → Machine β σ
  | .setSp x => m.mapRegs fun r => r.setSp x
  | .setUserSp x => m.mapRegs fun r => r.setUserSp x
  | .setSupervisorSp x => m.mapRegs fun r => r.setSupervisorSp x
  | .reserve n => m.mapRegs fun r => r.reserve n
  | .release n => m.mapRegs fun r => r.release n
  | .enterSupervisor => m.mapRegs Registers.enterSupervisor
  | .packStatus => m.mapRegs Registers.packStatus
  | .unpackStatus => m.mapRegs Registers.unpackStatus
  | .setRegister q x => m.setRegister q x

theorem onView_frame (v : RegisterView) (op : RegisterOp) :
    (∀ l, op.target v.active ≠ some l → (op.onView v).value l = v.value l) ∧
      (op.target v.active ≠ none →
        (op.onView v).status = v.status ∧ (op.onView v).word = v.word) := by
  have hput : ∀ l x, (∀ k, some l ≠ some k → (v.put l x).value k = v.value k) ∧
      (some l ≠ none → (v.put l x).status = v.status ∧ (v.put l x).word = v.word) := fun l x =>
    ⟨fun k hk => Function.update_of_ne (fun h => hk (congrArg some h.symm)) _ _,
      fun _ => ⟨rfl, rfl⟩⟩
  cases op with
  | setSp x | setUserSp x | setSupervisorSp x | reserve n | release n => exact hput _ _
  | enterSupervisor | packStatus | unpackStatus => exact ⟨fun _ _ => rfl, fun h => absurd rfl h⟩
  | setRegister q x =>
    simp only [target, onView]
    cases q.logical? v.active with
    | none => exact ⟨fun _ _ => rfl, fun h => absurd rfl h⟩
    | some l => exact hput l x

end RegisterOp

namespace Registers

def logicalValue (r : Registers) : LogicalRegister → UInt32
  | .data i => r.d.get i
  | .address i => r.a.get i.castSucc
  | .userSp => r.userSp
  | .supervisorSp => r.supervisorSp
  | .pc => r.pc

def view (r : Registers) : RegisterView := ⟨r.logicalValue, r.status, r.sr⟩

/-- With this in the parked word of the active mode. -/
def withParked (r : Registers) (x : UInt32) : Registers :=
  if r.status.s then { r with isp := x } else { r with usp := x }

theorem view_eq {r : Registers} {v : RegisterView} (hd : ∀ i, r.d.get i = v.value (.data i))
    (ha : ∀ i : Fin 7, r.a.get i.castSucc = v.value (.address i))
    (hu : r.userSp = v.value .userSp) (hs : r.supervisorSp = v.value .supervisorSp)
    (hpc : r.pc = v.value .pc) (hstatus : r.status = v.status) (hword : r.sr = v.word) :
    r.view = v := by
  ext1
  · funext l
    cases l with
    | data i => exact hd i
    | address i => exact ha i
    | userSp => exact hu
    | supervisorSp => exact hs
    | pc => exact hpc
  · exact hstatus
  · exact hword

variable (r : Registers)

theorem view_withParked (x : UInt32) : (r.withParked x).view = r.view := by
  cases hs : r.status.s <;>
    apply view_eq <;> simp [withParked, view, logicalValue, userSp, supervisorSp, sp, hs]

theorem sp_view : r.sp = r.view.value r.view.active := by
  cases hs : r.status.s <;> simp [RegisterView.active, view, logicalValue, userSp, supervisorSp, hs]

theorem active_view : r.view.active = if r.status.s then .supervisorSp else .userSp := rfl

theorem view_setSp (x : UInt32) : (r.setSp x).view = r.view.put r.view.active x := by
  have huser := userSp_setSp r x
  have hsupervisor := supervisorSp_setSp r x
  have ha : ∀ i : Fin 7, (r.setSp x).a.get i.castSucc = r.a.get i.castSucc :=
    fun i => a_setSp r x i i.isLt
  rw [active_view]
  cases hs : r.status.s with
  | false =>
    rw [hs] at huser hsupervisor
    exact view_eq (fun _ => rfl) ha huser hsupervisor rfl rfl rfl
  | true =>
    rw [hs] at huser hsupervisor
    exact view_eq (fun _ => rfl) ha huser hsupervisor rfl rfl rfl

theorem view_setUserSp (x : UInt32) : (r.setUserSp x).view = r.view.put .userSp x := by
  cases hs : r.status.s with
  | false =>
    have hactive : r.view.active = .userSp := by rw [active_view, hs]; rfl
    rw [setUserSp, hs, ← hactive]
    exact view_setSp r x
  | true =>
    have hother : (r.setUserSp x).supervisorSp = r.supervisorSp := supervisorSp_setUserSp r x
    have hown : (r.setUserSp x).userSp = x := userSp_setUserSp r x
    rw [setUserSp, hs, if_pos rfl] at hother hown ⊢
    exact view_eq (fun _ => rfl) (fun _ => rfl) hown hother rfl rfl rfl

theorem view_setSupervisorSp (x : UInt32) :
    (r.setSupervisorSp x).view = r.view.put .supervisorSp x := by
  cases hs : r.status.s with
  | false =>
    have hother : (r.setSupervisorSp x).userSp = r.userSp := userSp_setSupervisorSp r x
    have hown : (r.setSupervisorSp x).supervisorSp = x := supervisorSp_setSupervisorSp r x
    rw [setSupervisorSp, hs, if_neg Bool.false_ne_true] at hother hown ⊢
    exact view_eq (fun _ => rfl) (fun _ => rfl) hother hown rfl rfl rfl
  | true =>
    have hactive : r.view.active = .supervisorSp := by rw [active_view, hs]; rfl
    rw [setSupervisorSp, hs, ← hactive]
    exact view_setSp r x

theorem view_enterSupervisor :
    r.enterSupervisor.view = { r.view with status := { r.status with s := true } } := by
  have huser := userSp_enterSupervisor r
  have hsupervisor := supervisorSp_enterSupervisor r
  cases hs : r.status.s with
  | false =>
    rw [enterSupervisor, hs, if_neg Bool.false_ne_true] at huser hsupervisor ⊢
    -- A7 and the parked words change places, and no pointer moves.
    exact view_eq (fun _ => rfl) (fun i => a_swapStacks r false i i.isLt) huser hsupervisor rfl rfl
      rfl
  | true =>
    rw [enterSupervisor, hs, if_pos rfl]
    exact view_eq (fun _ => rfl) (fun _ => rfl) rfl rfl rfl (by rw [← hs]) rfl

theorem pc_unpackStatus : r.unpackStatus.pc = r.pc := by
  simp only [unpackStatus, followStatus]
  cases r.status.s <;> split <;> rfl

theorem sr_unpackStatus : r.unpackStatus.sr = r.sr := by
  simp only [unpackStatus, followStatus]
  cases r.status.s <;> split <;> rfl

theorem view_unpackStatus : r.unpackStatus.view = r.view.load r.sr :=
  view_eq (fun i => congrArg (·.get i) (d_loadStatus r r.sr))
    (fun i => a_loadStatus r r.sr i i.isLt) (userSp_unpackStatus r)
    (supervisorSp_unpackStatus r) (pc_unpackStatus r)
    (status_loadStatus r r.sr) (sr_unpackStatus r)

theorem view_loadStatus (w : UInt16) : (r.loadStatus w).view = r.view.load w :=
  view_unpackStatus { r with sr := w }

theorem view_setData (i : Fin 8) (x : UInt32) :
    { r with d := r.d.set i x i.isLt }.view = r.view.put (.data i) x := by
  refine view_eq (fun j => ?_) (fun _ => rfl) rfl rfl rfl rfl rfl
  by_cases h : j = i
  · subst h
    have hset : (r.d.set j x j.isLt).get j = x := Vector.getElem_set_self _
    simpa [RegisterView.put] using hset
  · have hset : (r.d.set i x i.isLt).get j = r.d.get j :=
      Vector.getElem_set_ne _ _ fun hv => h (Fin.ext hv.symm)
    simpa [RegisterView.put, view, logicalValue, h] using hset

theorem view_setAddress (i : Fin 8) (x : UInt32) :
    { r with a := r.a.set i x i.isLt }.view =
      r.view.put (if h : i.val < 7 then .address ⟨i, h⟩ else r.view.active) x := by
  split
  · rename_i hi
    have hsp : (r.a.set i x)[7] = r.a[7] := Vector.getElem_set_ne _ _ (by omega)
    refine view_eq (fun _ => rfl) (fun j => ?_) ?_ ?_ rfl rfl rfl
    · by_cases h : j = ⟨i, hi⟩
      · subst h
        have hset : (r.a.set i x i.isLt).get i = x := Vector.getElem_set_self _
        simpa [RegisterView.put] using hset
      · have hset : (r.a.set i x i.isLt).get j.castSucc = r.a.get j.castSucc :=
          Vector.getElem_set_ne _ _ fun hv => h (Fin.ext hv.symm)
        simpa [RegisterView.put, view, logicalValue, h] using hset
    · simp [RegisterView.put, view, logicalValue, userSp, sp, hsp]
    · simp [RegisterView.put, view, logicalValue, supervisorSp, sp, hsp]
  · have hseven : i = 7 := Fin.ext (by omega)
    rw [hseven]
    exact view_setSp r x

theorem view_write (q : Register) (x : UInt32) :
    (r.write q x).view =
      match q.logical? r.view.active with
      | some l => r.view.put l x
      | none => r.view.load x.toUInt16 := by
  cases q with
  | data n => exact view_setData r _ x
  | address n => exact view_setAddress r _ x
  | usp => exact view_setUserSp r x
  | ssp => exact view_setSupervisorSp r x
  | sp => exact view_setSp r x
  | pc => exact view_eq (fun _ => rfl) (fun _ => rfl) rfl rfl rfl rfl rfl
  | sr => exact view_loadStatus r x.toUInt16

theorem read_eq (q : Register) : (r.read q).1 = r.view.read q := by
  cases q with
  | address n =>
    simp only [read, RegisterView.read, Register.logical?]
    split
    · rfl
    · have hseven : Register.place n = 7 := Fin.ext (by omega)
      exact (congrArg r.a.get hseven).trans (sp_view r)
  | sp => exact sp_view r
  | data n | usp | ssp | pc | sr => rfl

theorem view_read (q : Register) :
    (r.read q).2.view.value = r.view.value ∧ (r.read q).2.view.status = r.view.status := by
  cases q <;> exact ⟨rfl, rfl⟩

end Registers

namespace RegisterView

theorem toUInt32_and_modelled (x : UInt32) :
    (x.toUInt16 &&& Status.modelled).toUInt32 = x &&& 0xF71F := by
  have hlow : x.toNat % 65536 = x.toNat &&& 65535 := (Nat.and_two_pow_sub_one_eq_mod _ 16).symm
  rw [← UInt32.toNat_inj, UInt16.toNat_toUInt32, UInt16.toNat_and, UInt32.toNat_toUInt16,
    UInt32.toNat_and, hlow, Nat.and_assoc]
  rfl

theorem read_write (v : RegisterView) (q : Register) (x : UInt32) :
    ((RegisterOp.setRegister q x).onView v).read q = q.fit x := by
  have hput : ∀ l, (v.put l x).value l = x := fun l => Function.update_self ..
  cases q with
  | sr =>
    simp only [RegisterOp.onView, Register.logical?, read, load]
    rw [Status.toWord_ofWord]
    exact toUInt32_and_modelled x
  | data n | address n | usp | ssp | sp | pc => exact hput _

end RegisterView

theorem RegisterOp.view_onMachine {β σ : Type} (m : Machine β σ) (op : RegisterOp) :
    (op.onMachine m).regs.view = op.onView m.regs.view := by
  cases op with
  | setSp x => exact Registers.view_setSp m.regs x
  | setUserSp x => exact Registers.view_setUserSp m.regs x
  | setSupervisorSp x => exact Registers.view_setSupervisorSp m.regs x
  | reserve n =>
    simp only [onMachine, onView, ← Registers.sp_view]
    exact Registers.view_setSp m.regs _
  | release n =>
    simp only [onMachine, onView, ← Registers.sp_view]
    exact Registers.view_setSp m.regs _
  | enterSupervisor => exact Registers.view_enterSupervisor m.regs
  | packStatus => rfl
  | unpackStatus => exact Registers.view_unpackStatus m.regs
  | setRegister q x => exact Registers.view_write m.regs q x

namespace Machine
variable {β σ : Type}

def operate (m : Machine β σ) (ops : List RegisterOp) : Machine β σ :=
  ops.foldl RegisterOp.onMachine m

theorem view_operate (m : Machine β σ) (ops : List RegisterOp) :
    (m.operate ops).regs.view = ops.foldl RegisterOp.onView m.regs.view := by
  induction ops generalizing m with
  | nil => rfl
  | cons op ops ih =>
    rw [List.foldl_cons, ← RegisterOp.view_onMachine]
    exact ih (op.onMachine m)

def rewritten (m : Machine β σ) (q : Register) (x : UInt32) : UInt32 × Machine β σ :=
  (m.setRegister q x).getRegister q

structure KeepsRegistersApart (m : Machine β σ) : Prop where
  selected : m.regs.sp = if m.regs.status.s then m.regs.supervisorSp else m.regs.userSp
  /-- An operation reaches the register that it writes to and no other. One that changes the mode
  writes to none. -/
  others : ∀ (op : RegisterOp) l, op.target m.regs.view.active ≠ some l →
    (op.onMachine m).regs.view.value l = m.regs.view.value l
  status : ∀ op : RegisterOp, op.target m.regs.view.active ≠ none →
    (op.onMachine m).regs.status = m.regs.status
  /-- What is written to a register is read from it. Neither changes another register, and only
  writing SR changes the status. -/
  readBack : ∀ q x, (m.rewritten q x).1 = q.fit x
  readBackOthers : ∀ q x l, q.logical? m.regs.view.active ≠ some l →
    (m.rewritten q x).2.regs.view.value l = m.regs.view.value l
  readBackStatus : ∀ q x, q ≠ .sr → (m.rewritten q x).2.regs.status = m.regs.status

theorem view_rewritten (m : Machine β σ) (q : Register) (x : UInt32) :
    (m.rewritten q x).2.regs.view.value =
        ((RegisterOp.setRegister q x).onView m.regs.view).value ∧
      (m.rewritten q x).2.regs.status =
        ((RegisterOp.setRegister q x).onView m.regs.view).status := by
  have hread := Registers.view_read (m.setRegister q x).regs q
  have hview : (m.setRegister q x).regs.view = _ :=
    RegisterOp.view_onMachine m (.setRegister q x)
  rw [hview] at hread
  exact hread

theorem keepsRegistersApart (m : Machine β σ) : m.KeepsRegistersApart where
  selected := Registers.sp_eq m.regs
  others op l h := by
    rw [RegisterOp.view_onMachine]
    exact (op.onView_frame _).1 l h
  status op h := by
    have hview := congrArg RegisterView.status (RegisterOp.view_onMachine m op)
    exact hview.trans ((op.onView_frame _).2 h).1
  readBack q x := by
    have hview : (m.setRegister q x).regs.view = _ :=
      RegisterOp.view_onMachine m (.setRegister q x)
    have hread := Registers.read_eq (m.setRegister q x).regs q
    rw [hview, RegisterView.read_write] at hread
    exact hread
  readBackOthers q x l h := by
    rw [(view_rewritten m q x).1]
    exact ((RegisterOp.setRegister q x).onView_frame _).1 l h
  readBackStatus q x h := by
    have hnamed : (RegisterOp.setRegister q x).target m.regs.view.active ≠ none := by
      cases q <;> simp_all [RegisterOp.target, Register.logical?]
    rw [(view_rewritten m q x).2]
    exact ((RegisterOp.setRegister q x).onView_frame _).2 hnamed |>.1

/-- After any operations on the stack pointers, the mode and the registers by name, the register
file is what a machine with two separate stack pointers would have, whatever the parked word of the
active mode was at first, and its registers are still apart. -/
theorem two_stack_pointers (m : Machine β σ) (ops : List RegisterOp) :
    (m.operate ops).regs.view = ops.foldl RegisterOp.onView m.regs.view ∧
      (∀ x, ((m.mapRegs fun r => r.withParked x).operate ops).regs.view =
        (m.operate ops).regs.view) ∧
      (m.operate ops).KeepsRegistersApart := by
  refine ⟨view_operate m ops, fun x => ?_, keepsRegistersApart _⟩
  have hparked : (m.mapRegs fun r => r.withParked x).regs.view = m.regs.view :=
    Registers.view_withParked m.regs x
  rw [view_operate, view_operate, hparked]

end Machine
end Mc68000
