import Mc68000.Proofs.Evolution

/-!
# What exceptions do to a machine

An exception leaves its own events and changes the registers within every kept relation that the
hooks respect. A fault is an exception with a look at the latch before and after it; the second look
is where a double fault shows.
-/

namespace Mc68000.Machine
variable {β σ : Type} {P : Event → Prop} {R : Registers → Registers → Prop} {m : Machine β σ}

theorem recordException_evolves (hK : Registers.KeptByException R) (hP : ∀ r, P (.exception r))
    (m : Machine β σ) (v : ExceptionVector) : Evolves P R m (m.recordException v) :=
  .of_event (hP ⟨v, m.regs.pc, m.regs.sp⟩) (hK.refl _) rfl rfl id rfl rfl

theorem checkStack_evolves (hK : Registers.KeptByException R) (hP : ∀ e : Event, e.ofEntry → P e)
    (m : Machine β σ) : Evolves P R m m.checkStack := by
  have hframe : Evolves P R m (m.log (.frame m.regs.sp)) := .log hK _ (hP _ rfl)
  have hwarned : ∀ n : Machine β σ, Evolves P R n
      ({ n with guard := { n.guard with warned := true } }.log
        (.stackLow n.regs.sp n.guard.lowWarn)) :=
    fun n => .of_event (hP _ rfl) (hK.refl _) rfl rfl id rfl rfl
  have hoverflowed : ∀ n : Machine β σ, Evolves P R n
      ({ n with guard := { n.guard with overflowed := true } }.log
        (.stackOverflow n.regs.sp n.guard.low)) :=
    fun n => .of_event (hP _ rfl) (hK.refl _) rfl rfl (fun _ => rfl) rfl rfl
  simp only [checkStack]
  split <;> split
  · exact (hframe.trans hK (hwarned _)).trans hK (hoverflowed _)
  · exact hframe.trans hK (hwarned _)
  · exact hframe.trans hK (hoverflowed _)
  · exact hframe

variable [Bus β]

theorem pushFrame_evolves (hK : Registers.KeptByException R) (m : Machine β σ) (v : ExceptionVector)
    (sr : UInt16) (pc : UInt32) : Evolves P R m (m.pushFrame v sr pc) := by
  have hreserve : R m.regs (m.regs.reserve v.frameSize) := hK.address _ 7 (by decide) _
  simp only [pushFrame]
  split
  · exact .of_parts hreserve rfl rfl rfl rfl rfl
  · exact .of_parts hreserve rfl rfl rfl rfl rfl

theorem announcePc_evolves (hK : Registers.KeptByException R) (hP : ∀ e : Event, e.ofEntry → P e)
    (m : Machine β σ) (pc : UInt32) : Evolves P R m (m.announcePc pc) := by
  have hhooks : Evolves P R m (m.notify (.newPc pc)) :=
    notify_evolves hK (fun _ _ => hP _ rfl) m rfl
  have hbus : Evolves P R (m.notify (.newPc pc)) (m.announcePc pc) :=
    .of_event (hP (.newPc pc) rfl) (hK.refl _) rfl rfl id rfl rfl
  exact hhooks.trans hK hbus

theorem jump_evolves (hK : Registers.KeptByException R) (hP : ∀ e : Event, e.ofEntry → P e)
    (m : Machine β σ) (pc : UInt32) : Evolves P R m (m.jump pc) :=
  (announcePc_evolves hK hP m pc).trans hK (.of_parts (hK.pc _ pc) rfl rfl rfl rfl rfl)

theorem enterHandler_evolves (hK : Registers.KeptByException R) (hP : ∀ e : Event, e.ofEntry → P e)
    (m : Machine β σ) (v : ExceptionVector) : Evolves P R m (m.enterHandler v) := by
  have hread : Evolves P R m (m.readVector (ExceptionVector.entryAddress m.regs.vbr v)).2 :=
    .of_parts (hK.refl _) rfl rfl rfl rfl rfl
  simp only [enterHandler]
  generalize m.readVector (ExceptionVector.entryAddress m.regs.vbr v) = p at hread ⊢
  obtain ⟨handler, n⟩ := p
  exact (hread.trans hK (jump_evolves hK hP n handler)).trans hK (.mapRegs _ (hK.dropTrace _))

/-- The part of an exception that no hook has taken over. -/
def enterException (m : Machine β σ) (v : ExceptionVector) : Machine β σ :=
  ((((m.log (.exceptionTaken v m.regs.pc)).mapRegs Registers.enterSupervisor).pushFrame v
    m.regs.sr m.regs.pc).checkStack).enterHandler v

def interceptException (m : Machine β σ) (v : ExceptionVector) : Bool × Machine β σ :=
  ((m.mapRegs Registers.packStatus).recordException v).callHooks (.exception v)

theorem takeException_eq (m : Machine β σ) (v : ExceptionVector) :
    m.takeException v =
      if (m.interceptException v).1 then (m.interceptException v).2.log (.exceptionHandled v)
      else (m.interceptException v).2.enterException v := rfl

theorem enterException_evolves (hK : Registers.KeptByException R)
    (hP : ∀ e : Event, e.ofEntry → P e)
    (m : Machine β σ) (v : ExceptionVector) : Evolves P R m (m.enterException v) := by
  have htaken : Evolves P R m (m.log (.exceptionTaken v m.regs.pc)) := .log hK _ (hP _ rfl)
  have hsuper := htaken.trans hK (.mapRegs _ (hK.supervisor _))
  have hframe := hsuper.trans hK (pushFrame_evolves hK _ v m.regs.sr m.regs.pc)
  have hguard := hframe.trans hK (checkStack_evolves hK hP _)
  exact hguard.trans hK (enterHandler_evolves hK hP _ v)

omit [Bus β] in
theorem interceptException_evolves (hK : Registers.KeptByException R)
    (hP : ∀ e : Event, e.ofException → P e) (hH : m.hooks.Respects R) (v : ExceptionVector) :
    Evolves P R m (m.interceptException v).2 := by
  have hpack : Evolves P R m (m.mapRegs Registers.packStatus) := .mapRegs _ (hK.pack _)
  have hrecord := hpack.trans hK (recordException_evolves hK (fun _ => hP _ rfl) _ v)
  exact hrecord.trans hK
    (callHooks_exception_evolves hK (fun _ _ => hP _ rfl) (hrecord.respects hH) v)

theorem takeException_evolves (hK : Registers.KeptByException R)
    (hP : ∀ e : Event, e.ofException → P e)
    (hH : m.hooks.Respects R) (v : ExceptionVector) : Evolves P R m (m.takeException v) := by
  have hhooks := interceptException_evolves hK hP hH v
  rw [takeException_eq]
  split
  · exact hhooks.trans hK (.log hK _ (hP _ rfl))
  · exact hhooks.trans hK
      (enterException_evolves hK (fun e he => hP e (Event.ofException_of_ofEntry he)) _ v)

theorem takeFault_evolves (hK : Registers.KeptByException R) (m : Machine β σ) :
    Evolves P R m m.takeFault.2 :=
  .of_parts (hK.refl _) rfl rfl rfl rfl rfl

/-- The exception of a fault up to the second look at the latch. -/
def enterFault (m : Machine β σ) (f : Fault) : Machine β σ :=
  ({ m.takeFault.2 with lastFault := some f }.log (.fault f)).takeException f.kind.vector

theorem raiseFault_eq (m : Machine β σ) (f : Fault) :
    m.raiseFault f =
      match (m.enterFault f).takeFault.1 with
      | none => (m.enterFault f).takeFault.2
      | some g =>
        ((m.enterFault f).takeFault.2.log
          (.doubleFault f.kind.vector g.address (m.enterFault f).regs.sp)).requestBreak := rfl

theorem deliverFault_eq (m : Machine β σ) :
    m.deliverFault =
      match m.takeFault.1 with
      | none => m.takeFault.2
      | some f => m.takeFault.2.raiseFault f := rfl

theorem enterFault_evolves (hK : Registers.KeptByException R)
    (hP : ∀ e : Event, e.ofException → P e)
    (hF : ∀ f, P (.fault f)) (hH : m.hooks.Respects R) (f : Fault) :
    Evolves P R m (m.enterFault f) := by
  have htaken := takeFault_evolves (P := P) hK m
  have hlog : Evolves P R m.takeFault.2
      ({ m.takeFault.2 with lastFault := some f }.log (.fault f)) :=
    .of_event (hF f) (hK.refl _) rfl rfl id rfl rfl
  have hbegun := htaken.trans hK hlog
  exact hbegun.trans hK (takeException_evolves hK hP (hbegun.respects hH) _)

theorem raiseFault_evolves (hK : Registers.KeptByException R) (hP : ∀ e : Event, e.ofFault → P e)
    (hH : m.hooks.Respects R) (f : Fault) : Evolves P R m (m.raiseFault f) := by
  have hP' : ∀ e : Event, e.ofException → P e :=
    fun e he => hP e (Event.ofFault_of_ofException he)
  have htaken : Evolves P R m (m.enterFault f).takeFault.2 :=
    (enterFault_evolves hK hP' (fun f => hP _ rfl) hH f).trans hK (takeFault_evolves hK _)
  rw [raiseFault_eq]
  split
  · exact htaken
  · exact (htaken.trans hK (.log hK _ (hP _ rfl))).trans hK
      (.of_parts (hK.breakRequest _) rfl rfl rfl rfl rfl)

theorem deliverFault_evolves (hK : Registers.KeptByException R) (hP : ∀ e : Event, e.ofFault → P e)
    (hH : m.hooks.Respects R) : Evolves P R m m.deliverFault := by
  have htaken := takeFault_evolves (P := P) hK m
  rw [deliverFault_eq]
  split
  · exact htaken
  · exact htaken.trans hK (raiseFault_evolves hK hP (htaken.respects hH) _)

theorem takeInterrupt_evolves (hK : Registers.Kept R) (hP : ∀ e : Event, e.ofException → P e)
    (hI : ∀ base level mask, P (.interrupt base level mask))
    (hN : ∀ level, P (.interruptIgnored level)) (hH : m.hooks.Respects R) (base level : UInt8) :
    Evolves P R m (m.takeInterrupt base level) := by
  have hmask : ∀ n : Machine β σ,
      Evolves P R n (n.mapRegs fun r => r.setMask level).interruptsChanged :=
    fun n => .of_parts (hK.mask n.regs level) rfl rfl rfl rfl rfl
  simp only [takeInterrupt]
  split
  · have hlog : Evolves P R m (m.log (.interrupt base level m.regs.status.mask)) :=
      .log hK m (hI _ _ _)
    have htaken := hlog.trans hK (takeException_evolves hK hP (hlog.respects hH) (base + level))
    exact htaken.trans hK (hmask _)
  · exact .log hK m (hN level)

theorem takeException_continues (m : Machine β σ) (v : ExceptionVector) :
    Continues m (m.takeException v) :=
  takeException_evolves Registers.kept_true (fun _ _ => trivial) (Registry.respects_true _) v

theorem raiseFault_continues (m : Machine β σ) (f : Fault) : Continues m (m.raiseFault f) :=
  raiseFault_evolves Registers.kept_true (fun _ _ => trivial) (Registry.respects_true _) f

theorem deliverFault_continues (m : Machine β σ) : Continues m m.deliverFault :=
  deliverFault_evolves Registers.kept_true (fun _ _ => trivial) (Registry.respects_true _)

theorem takeException_logged (m : Machine β σ) (v : ExceptionVector) :
    Logged (fun e => e.isException) m (m.takeException v) := by
  have hrecord : Logged (fun e => e.isException) m
      ((m.mapRegs Registers.packStatus).recordException v) :=
    ⟨[.exception ⟨v, m.regs.pc, m.regs.sp⟩], rfl, _, List.mem_singleton_self _, rfl⟩
  have hhooks : Logged (fun e => e.isException) m (m.interceptException v).2 :=
    hrecord.trans_grows (callHooks_exception_evolves (P := fun _ => True) Registers.kept_true
      (fun _ _ => trivial) (Registry.respects_true _) v).grows
  rw [takeException_eq]
  split
  · exact hhooks.trans_grows ⟨[_], rfl⟩
  · exact hhooks.trans_grows (enterException_evolves (P := fun _ => True) (R := fun _ _ => True)
      Registers.kept_true (fun _ _ => trivial) _ v).grows

theorem takeException_shows {α : Type} {p : Event → Option α}
    (hp : ∀ e : Event, e.ofEntry → p e = none) (m : Machine β σ) (v : ExceptionVector) :
    Shows p m (m.takeException v) (p (.exception ⟨v, m.regs.pc, m.regs.sp⟩)).toList := by
  have hrecord : Shows p m ((m.mapRegs Registers.packStatus).recordException v)
      (p (.exception ⟨v, m.regs.pc, m.regs.sp⟩)).toList := .of_event _ rfl
  have hhooks := Shows.of_evolves (p := p) (callHooks_exception_evolves Registers.kept_true
    (fun _ _ => hp _ rfl) (Registry.respects_true _) v
    (m := (m.mapRegs Registers.packStatus).recordException v))
  have hintercepted := hrecord.trans hhooks
  rw [List.append_nil] at hintercepted
  have hhandled : ∀ n : Machine β σ, Shows p n (n.log (.exceptionHandled v)) [] :=
    fun n => .of_evolves (.log (R := fun _ _ => True) Registers.kept_true n (hp _ rfl))
  rw [takeException_eq, interceptException]
  split
  · simpa using hintercepted.trans (hhandled _)
  · simpa using hintercepted.trans
      (.of_evolves (enterException_evolves (R := fun _ _ => True) Registers.kept_true hp _ v))

omit [Bus β] in
theorem raiseMask_grows (m : Machine β σ) (level : UInt8) :
    Grows m (m.mapRegs fun r => r.setMask level).interruptsChanged := ⟨[], rfl⟩

theorem takeInterrupt_logged (m : Machine β σ) (base : UInt8) {level : UInt8}
    (hlevel : isInterruptLevel level) :
    Logged (fun e => e.isInterrupt) m (m.takeInterrupt base level) ∧
      Logged (fun e => e.isException) m (m.takeInterrupt base level) := by
  simp only [takeInterrupt]
  rw [if_pos hlevel]
  constructor
  · have hlog : Logged (fun e => e.isInterrupt) m
        (m.log (.interrupt base level m.regs.status.mask)) := .of_log m rfl
    exact (hlog.trans_grows (takeException_continues _ _).grows).trans_grows
      (raiseMask_grows _ level)
  · have hlog : Grows m (m.log (.interrupt base level m.regs.status.mask)) := ⟨[_], rfl⟩
    exact (Logged.grows_trans hlog (takeException_logged _ _)).trans_grows (raiseMask_grows _ level)

end Mc68000.Machine
