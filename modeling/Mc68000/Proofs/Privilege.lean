import Mc68000.Machine.Control
import Mc68000.Memory.Ram
import Mc68000.Proofs.Outcome

/-!
# Keeping user programs in user state

An opcode that begins in user state ends there, with everything that belongs to the supervisor as it
was, or it ends in a handler that an exception entered. A handler is entered through the vector
table that the supervisor named, on the supervisor's own stack.
-/

namespace Mc68000
variable {β σ : Type}

/-- What a program in user state cannot reach is as it was. -/
structure Registers.Guards (r r' : Registers) : Prop where
  status : r'.status = r.status
  isp : r'.isp = r.isp
  vbr : r'.vbr = r.vbr
  sfc : r'.sfc = r.sfc
  dfc : r'.dfc = r.dfc
  stopped : r'.stopped = r.stopped
  stop : r'.pending.stop = r.pending.stop

theorem Registers.Moves.guards {r r₁ : Registers} (h : r.Moves r₁) : r.Guards r₁ := by
  obtain ⟨_, _, rfl⟩ := h
  exact ⟨rfl, rfl, rfl, rfl, rfl, rfl, rfl⟩

structure Registers.Handles (r r' : Registers) (sp pc : UInt32) : Prop where
  status : r'.status = r.status.inHandler
  supervisorSp : r'.supervisorSp = sp
  pc : r'.pc = pc
  vbr : r'.vbr = r.vbr
  sfc : r'.sfc = r.sfc
  dfc : r'.dfc = r.dfc

theorem Registers.handles_enter (r : Registers) (sp pc : UInt32) :
    r.Handles (r.enter sp pc) sp pc where
  status := r.status_enter sp pc
  supervisorSp := r.supervisorSp_enter sp pc
  pc := rfl
  vbr := r.vbr_enter sp pc
  sfc := r.sfc_enter sp pc
  dfc := r.dfc_enter sp pc

theorem Registers.Handles.with_pending {r r' : Registers} {sp pc : UInt32} (h : r.Handles r' sp pc)
    (p : Pending) : r.Handles { r' with pending := p } sp pc :=
  ⟨h.status, h.supervisorSp, h.pc, h.vbr, h.sfc, h.dfc⟩

theorem Registers.Handles.trans {r r₁ r₂ : Registers} {sp sp₁ pc pc₁ : UInt32}
    (h : r.Handles r₁ sp pc) (h₁ : r₁.Handles r₂ sp₁ pc₁) : r.Handles r₂ sp₁ pc₁ where
  status := by rw [h₁.status, h.status, Status.inHandler, Status.inHandler]
  supervisorSp := h₁.supervisorSp
  pc := h₁.pc
  vbr := h₁.vbr.trans h.vbr
  sfc := h₁.sfc.trans h.sfc
  dfc := h₁.dfc.trans h.dfc

namespace ControlInstructions
variable [Bus β] {m : Machine β σ}

theorem dispatch_attempt (hs : m.regs.status.s = false) (w : UInt16) :
    Outcome m none (table.dispatch w m).2 := by
  have hnone : loads w m = none := by simp [loads, hs]
  exact hnone ▸ dispatch_outcome w m

end ControlInstructions

namespace Machine
variable [Bus β] {m m₁ m' : Machine β σ} {first last : Entry β}

/-- The machine is in the handler of `last`. The way there began in user state with `first`, and
there was nothing between them but a look at the latch of memory. -/
structure Escalates (m m' : Machine β σ) (first last : Entry β) : Prop where
  sp : first.sp = m.regs.supervisorSp - first.vector.frameSize
  sr : first.sr = m.regs.status.toWord
  regs : m.regs.Handles m'.regs last.sp (last.handler m.regs.vbr)
  bus : m'.bus = Entry.drained (last.entered m.regs.vbr)
  exceptions :
    (last = first ∧ Shows Event.vector? m m' [first.vector]) ∨
      (last.sp = first.sp - last.vector.frameSize ∧
        last.memory = Entry.drained (Entry.drained (first.entered m.regs.vbr)) ∧
        Shows Event.vector? m m' [first.vector, last.vector])

/-- The processor stays in user state, or an exception takes it into supervisor state. Neither way
changes the interrupt mask or the registers of supervisor state. -/
structure Isolates (m m' : Machine β σ) : Prop where
  mask : m'.regs.status.mask = m.regs.status.mask
  vbr : m'.regs.vbr = m.regs.vbr
  sfc : m'.regs.sfc = m.regs.sfc
  dfc : m'.regs.dfc = m.regs.dfc
  outcome :
    (m'.regs.status = m.regs.status ∧ m'.regs.supervisorSp = m.regs.supervisorSp ∧
        m'.regs.pending.stop = m.regs.pending.stop ∧ m'.regs.stopped = m.regs.stopped ∧
        Shows Event.vector? m m' []) ∨
      ∃ first last, Escalates m m' first last

omit [Bus β] in
theorem Ordinary.supervisorSp (h : Ordinary m m₁) (hs : m.regs.status.s = false) :
    m₁.regs.supervisorSp = m.regs.supervisorSp := by
  simp [Registers.supervisorSp, h.regs.status, hs, h.regs.guards.isp]

omit [Bus β] in
theorem Ordinary.handles (h : Ordinary m m₁) {r : Registers} {sp pc : UInt32}
    (hr : m₁.regs.Handles r sp pc) : m.regs.Handles r sp pc where
  status := by rw [hr.status, h.regs.status]
  supervisorSp := hr.supervisorSp
  pc := hr.pc
  vbr := hr.vbr.trans h.regs.guards.vbr
  sfc := hr.sfc.trans h.regs.guards.sfc
  dfc := hr.dfc.trans h.regs.guards.dfc

theorem Ordinary.isolates (h : Ordinary m m₁) (hs : m.regs.status.s = false) :
    Isolates m m₁ := by
  have hregs := h.regs.guards
  refine ⟨?_, hregs.vbr, hregs.sfc, hregs.dfc, .inl ⟨hregs.status, h.supervisorSp hs, hregs.stop,
    hregs.stopped, h.shows⟩⟩
  rw [hregs.status]

theorem Escalates.isolates (h : Escalates m m' first last) : Isolates m m' := by
  refine ⟨?_, h.regs.vbr, h.regs.sfc, h.regs.dfc, .inr ⟨first, last, h⟩⟩
  rw [h.regs.status]
  rfl

theorem raiseFault_handles (hH : m.hooks.NoInterceptors) (f : Fault) :
    m.regs.Handles (m.raiseFault f).regs (m.faultEntry f).sp
      ((m.faultEntry f).handler m.regs.vbr) := by
  obtain ⟨p, hregs⟩ := regs_raiseFault hH f
  rw [hregs]
  exact (Registers.handles_enter ..).with_pending p

theorem raiseFault_escalates (h : Ordinary m m₁) (hs : m.regs.status.s = false)
    (hH : m.hooks.NoInterceptors) (f : Fault) :
    Escalates m (m₁.raiseFault f) (m₁.faultEntry f) (m₁.faultEntry f) := by
  have hH₁ : m₁.hooks.NoInterceptors := by
    rw [h.hooks]
    exact hH
  constructor
  · rw [← h.supervisorSp hs]
    rfl
  · rw [← h.regs.status]
    rfl
  · rw [← h.regs.guards.vbr]
    exact h.handles (raiseFault_handles hH₁ f)
  · rw [bus_raiseFault hH₁, h.regs.guards.vbr]
  · exact .inl ⟨rfl, h.shows.trans (raiseFault_shows_vector m₁ f)⟩

theorem deliverFault_escalates (h : Ordinary m m₁) (hs : m.regs.status.s = false)
    (hH : m.hooks.NoInterceptors) (v : ExceptionVector) {n : Machine β σ}
    (hregs : n.regs = (m₁.takeException v).regs) (hbus : n.bus = (m₁.takeException v).bus)
    (hhooks : n.hooks = m₁.hooks) (hshows : Shows Event.vector? (m₁.takeException v) n []) :
    ∃ last, Escalates m n.deliverFault (m₁.entry v) last := by
  have hH₁ : m₁.hooks.NoInterceptors := by
    rw [h.hooks]
    exact hH
  have hsp : (m₁.entry v).sp = m.regs.supervisorSp - v.frameSize := by
    rw [← h.supervisorSp hs]
    rfl
  have hsr : (m₁.entry v).sr = m.regs.status.toWord := by
    rw [← h.regs.status]
    rfl
  have hhandles : m.regs.Handles n.regs (m₁.entry v).sp ((m₁.entry v).handler m.regs.vbr) := by
    rw [hregs, regs_takeException hH₁, ← h.regs.guards.vbr]
    exact h.handles (Registers.handles_enter ..)
  have hmemory : n.bus = (m₁.entry v).entered m.regs.vbr := by
    rw [hbus, bus_takeException hH₁, h.regs.guards.vbr]
  have hfirst : Shows Event.vector? m n [v] :=
    (h.shows.trans (takeException_shows (fun _ => Event.vector?_of_ofEntry) m₁ v)).trans hshows
  rw [deliverFault_eq]
  -- What memory latched on the way into the handler is taken as well, from within it.
  split
  · refine ⟨m₁.entry v, hsp, hsr, hhandles, ?_, .inl ⟨rfl, hfirst⟩⟩
    rw [← hmemory]
    rfl
  · rename_i f _
    have hHn : n.takeFault.2.hooks.NoInterceptors := by
      rw [show n.takeFault.2.hooks = n.hooks from rfl, hhooks]
      exact hH₁
    have hvbr : n.takeFault.2.regs.vbr = m.regs.vbr := hhandles.vbr
    have hlast := raiseFault_handles hHn f
    rw [hvbr] at hlast
    refine ⟨n.takeFault.2.faultEntry f, hsp, hsr, hhandles.trans hlast, ?_, .inr ⟨?_, ?_, ?_⟩⟩
    · rw [bus_raiseFault hHn, hvbr]
    · rw [← hhandles.supervisorSp]
      rfl
    · rw [← hmemory]
      rfl
    · exact hfirst.trans (raiseFault_shows_vector n.takeFault.2 f)

theorem executeOpcode_isolates (hH : m.hooks.NoInterceptors) (hs : m.regs.status.s = false) :
    Isolates m (m.executeOpcode ControlInstructions.table) := by
  have hfetch : Ordinary m m.fetchOpcode.2.takeFault.2 := by
    have hlog : Ordinary m (m.log (.fetch m.regs)) := .of_event rfl (.refl _) rfl rfl
    have hword : Ordinary (m.log (.fetch m.regs)) m.fetchOpcode.2 :=
      ControlInstructions.fetchWord_ordinary _
    exact (hlog.trans hword).trans (takeFault_ordinary _)
  have hs₁ : m.fetchOpcode.2.takeFault.2.regs.status.s = false := by
    rw [hfetch.regs.status]
    exact hs
  rw [executeOpcode_eq]
  split
  · have hback : Ordinary m.fetchOpcode.2.takeFault.2 (m.fetchOpcode.2.takeFault.2.setPc
        (m.fetchOpcode.2.takeFault.2.regs.pc - 2)) :=
      .of_parts (.of_program ..) rfl rfl
    exact (raiseFault_escalates (hfetch.trans hback) hs hH _).isolates
  · have hattempt := ControlInstructions.dispatch_attempt hs₁ m.fetchOpcode.1
    rw [dispatched]
    generalize ControlInstructions.table.dispatch m.fetchOpcode.1 m.fetchOpcode.2.takeFault.2 = p
      at hattempt ⊢
    obtain ⟨cost, n⟩ := p
    dsimp only at hattempt ⊢
    have hcharge : ∀ k : Machine β σ,
        Ordinary k ((k.charge cost).log (.dispatch m.fetchOpcode.1 cost)) := fun k =>
      .of_event rfl (.refl _) rfl rfl
    cases hattempt with
    | ordinary h =>
      have hdone := (hfetch.trans h).trans (hcharge n)
      rw [deliverFault_eq]
      split
      · exact (hdone.trans (takeFault_ordinary _)).isolates hs
      · exact (raiseFault_escalates (hdone.trans (takeFault_ordinary _)) hs hH _).isolates
    | @exception k h v =>
      have hhooks : (k.takeException v).hooks = k.hooks := (takeException_continues k v).hooks
      have hcharged := (hcharge (k.takeException v)).shows
      have hregs : ∀ k : Machine β σ,
          ((k.charge cost).log (.dispatch m.fetchOpcode.1 cost)).regs = k.regs := fun _ => rfl
      have hbus : ∀ k : Machine β σ,
          ((k.charge cost).log (.dispatch m.fetchOpcode.1 cost)).bus = k.bus := fun _ => rfl
      obtain ⟨last, hlast⟩ := deliverFault_escalates (hfetch.trans h) hs hH v (hregs _) (hbus _)
        hhooks hcharged
      exact hlast.isolates

def trespasser : Machine Ram Unit :=
  let ram := ((Ram.ofSize 256).pokeLong 0x20 0xB0).loadWords 0xA0 [0x4E72, 0x2700]
  let m := ofSettings Settings.default ram ()
  ((m.setRegister .sp 0x80).setRegister .sr 0).setRegister .pc 0xA0

theorem executeOpcode_isolates_trespasser :
    trespasser.hooks.NoInterceptors ∧ trespasser.regs.status.s = false ∧
      Isolates trespasser (trespasser.executeOpcode ControlInstructions.table) ∧
      (trespasser.executeOpcode ControlInstructions.table).regs.pc = 0xB0 := by
  have hH : trespasser.hooks.NoInterceptors := fun _ => rfl
  have hs : trespasser.regs.status.s = false := by decide +kernel
  exact ⟨hH, hs, executeOpcode_isolates hH hs, by decide +kernel⟩

end Machine
end Mc68000
