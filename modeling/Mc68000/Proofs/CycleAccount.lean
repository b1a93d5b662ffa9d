import Mc68000.Proofs.BreakRequest
import Mc68000.Proofs.Preservation
import Mathlib.Algebra.GroupWithZero.Nat

/-!
# Where the cycles of a call come from

A handler names the cost of its opcode and an idle tick has a fixed one. Nothing else is charged:
not a fetch that faults, not an exception, not an interrupt. So the count after a call is the count
before it and what the journal shows to be owed, as far as 32 bits tell. A handler may execute
opcodes itself; those are charged as all others.
-/

namespace Mc68000

namespace Event

def cost? : Event → Option UInt32
  | .dispatch _ cost => some cost
  | _ => none

/-- What is charged, if a tick of idling costs so much. -/
def charge? (idle : UInt32) : Event → Option UInt32
  | .dispatch _ cost => some cost
  | .host .delay => some idle
  | _ => none

theorem charge?_of_not_isNotable {e : Event} (h : e.isNotable = false) (idle : UInt32) :
    e.charge? idle = none := by
  cases e with
  | dispatch => cases h
  | host call =>
    cases call with
    | delay => cases h
    | _ => rfl
  | _ => rfl

theorem cost?_of_charge? {e : Event} {idle : UInt32} (h : e.charge? idle = none) :
    e.cost? = none := by
  cases e with
  | dispatch => cases h
  | _ => rfl

theorem charge?_cases (e : Event) (idle : UInt32) :
    (e.charge? idle = some idle ∧ e.cost? = none ∧ e.delay? = some e) ∨
      (e.charge? idle = e.cost? ∧ e.delay? = none) := by
  cases e with
  | host call =>
    cases call with
    | delay => exact .inl ⟨rfl, rfl, rfl⟩
    | _ => exact .inr ⟨rfl, rfl⟩
  | _ => exact .inr ⟨rfl, rfl⟩

end Event

def owed : List UInt32 → Nat
  | [] => 0
  | charge :: charges => charge.toNat + owed charges

theorem owed_append (charges later : List UInt32) :
    owed (charges ++ later) = owed charges + owed later := by
  induction charges with
  | nil => exact (Nat.zero_add _).symm
  | cons charge charges ih => simp only [List.cons_append, owed, ih, Nat.add_assoc]

theorem owed_filterMap_charge (idle : UInt32) (es : List Event) :
    owed (es.filterMap (Event.charge? idle)) =
      owed (es.filterMap Event.cost?) + idle.toNat * (es.filterMap Event.delay?).length := by
  induction es with
  | nil => rfl
  | cons e es ih =>
    rcases e.charge?_cases idle with ⟨hcharge, hcost, hdelay⟩ | ⟨hcharge, hdelay⟩
    · simp only [List.filterMap_cons, hcharge, hcost, hdelay, owed, ih, List.length_cons,
        Nat.mul_succ]
      omega
    · simp only [List.filterMap_cons, hcharge, hdelay]
      cases e.cost? with
      | none => exact ih
      | some cost => simp only [owed, ih, Nat.add_assoc]

namespace Cycles

theorem add_owed (c : Cycles) (n k : Nat) :
    (c.add (.ofNat n)).add (.ofNat k) = c.add (.ofNat (n + k)) := by
  simp only [add, UInt32.ofNat_add, UInt32.add_assoc]

theorem toNat_add_owed (c : Cycles) (n : Nat) :
    (c.add (.ofNat n)).count.toNat = (c.count.toNat + n) % 2 ^ 32 := by
  simp only [add, UInt32.toNat_add, UInt32.toNat_ofNat', Nat.add_mod_mod]

theorem since_add_owed (c : Cycles) {n : Nat} (h : n < 2 ^ 32) :
    ((c.add (.ofNat n)).since c).toNat = n := by
  have hback : (c.add (.ofNat n)).since c = .ofNat n := by
    simp only [since, add, UInt32.add_comm c.count, UInt32.add_sub_cancel]
  rw [hback, UInt32.toNat_ofNat', Nat.mod_eq_of_lt h]

end Cycles

namespace Machine
variable {β σ : Type} {m m₁ m₂ : Machine β σ}

structure Charged (m m' : Machine β σ) : Prop where
  settings : m'.settings = m.settings
  cycles : ∃ charges, m.Shows (Event.charge? m.settings.idleTickCycles) m' charges ∧
    m'.cycles = m.cycles.add (.ofNat (owed charges))

structure Uncharged (m m' : Machine β σ) : Prop where
  settings : m'.settings = m.settings
  charges : m.Shows (Event.charge? m.settings.idleTickCycles) m' []
  cycles : m'.cycles = m.cycles

namespace Uncharged

theorem refl (m : Machine β σ) : Uncharged m m := ⟨rfl, ⟨[], rfl, rfl⟩, rfl⟩

theorem trans (h : Uncharged m m₁) (h₁ : Uncharged m₁ m₂) : Uncharged m m₂ := by
  have hlater := h₁.charges
  rw [h.settings] at hlater
  exact ⟨h₁.settings.trans h.settings, h.charges.trans hlater, h₁.cycles.trans h.cycles⟩

theorem of_journal (es : List Event) (hsettings : m₁.settings = m.settings)
    (hcycles : m₁.cycles = m.cycles) (hjournal : m₁.journal = es ++ m.journal)
    (hes : ∀ e ∈ es, e.charge? m.settings.idleTickCycles = none) : Uncharged m m₁ := by
  refine ⟨hsettings, ⟨es, hjournal, ?_⟩, hcycles⟩
  rw [List.filterMap_eq_nil_iff]
  exact fun e he => hes e (List.mem_reverse.mp he)

theorem log (m : Machine β σ) {e : Event} (he : e.charge? m.settings.idleTickCycles = none) :
    Uncharged m (m.log e) :=
  of_journal [e] rfl rfl rfl (by simpa using he)

theorem kept : KeptByInstructions (Uncharged (β := β) (σ := σ)) where
  refl := refl
  trans := trans
  scene _ _ := ⟨rfl, ⟨[], rfl, rfl⟩, rfl⟩
  log m _ he := log m (Event.charge?_of_not_isNotable he _)
  lastFault _ _ := ⟨rfl, ⟨[], rfl, rfl⟩, rfl⟩
  record _ _ := ⟨rfl, ⟨[_], rfl, rfl⟩, rfl⟩
  frame _ := ⟨rfl, ⟨[_], rfl, rfl⟩, rfl⟩

theorem recordRegisters (m : Machine β σ) : Uncharged m m.recordRegisters := by
  simp only [Machine.recordRegisters]
  split
  · exact ⟨rfl, ⟨[], rfl, rfl⟩, rfl⟩
  · exact .refl m

theorem fetch (h : Logs (fun e => e.ofHost) m.recordRegisters m₁) :
    Uncharged m (m₁.log (.fetch m₁.regs)) := by
  have hlogs : Uncharged m.recordRegisters m₁ := by
    obtain ⟨es, rfl, hes⟩ := h
    refine .of_journal _ rfl rfl rfl fun e he => ?_
    exact Event.charge?_of_not_isNotable (Event.not_isNotable_of_ofHost (hes e he)) _
  exact ((recordRegisters m).trans hlogs).trans (.log m₁ rfl)

end Uncharged

namespace Charged

theorem of_uncharged (h : Uncharged m m₁) : Charged m m₁ := by
  refine ⟨h.settings, [], h.charges, ?_⟩
  rw [h.cycles]
  exact congrArg Cycles.mk (UInt32.add_zero m.cycles.count).symm

theorem trans (h : Charged m m₁) (h₁ : Charged m₁ m₂) : Charged m m₂ := by
  obtain ⟨charges, hshows, hcycles⟩ := h.cycles
  obtain ⟨later, hlater, hcycles₁⟩ := h₁.cycles
  rw [h.settings] at hlater
  refine ⟨h₁.settings.trans h.settings, charges ++ later, hshows.trans hlater, ?_⟩
  rw [hcycles₁, hcycles, Cycles.add_owed, owed_append]

theorem of_charge {e : Event} {c : UInt32} (he : e.charge? m.settings.idleTickCycles = some c)
    (hsettings : m₁.settings = m.settings) (hjournal : m₁.journal = e :: m.journal)
    (hcycles : m₁.cycles = m.cycles.add c) : Charged m m₁ := by
  have hshows := Shows.of_event (p := Event.charge? m.settings.idleTickCycles) e hjournal
  rw [he] at hshows
  refine ⟨hsettings, [c], hshows, ?_⟩
  rw [hcycles, owed, owed, Nat.add_zero, UInt32.ofNat_toNat]

theorem kept : KeptByLoop (Charged (β := β) (σ := σ)) where
  refl m := of_uncharged (.refl m)
  trans := trans
  scene m s := of_uncharged (Uncharged.kept.scene m s)
  log m _ he := of_uncharged (Uncharged.kept.log m he)
  lastFault m f := of_uncharged (Uncharged.kept.lastFault m f)
  record m v := of_uncharged (Uncharged.kept.record m v)
  frame m := of_uncharged (Uncharged.kept.frame m)
  traceAddress _ _ := of_uncharged ⟨rfl, ⟨[], rfl, rfl⟩, rfl⟩
  slowCounter _ _ := of_uncharged ⟨rfl, ⟨[], rfl, rfl⟩, rfl⟩
  fetch h := of_uncharged (.fetch h)
  dispatch _ _ _ := of_charge rfl rfl rfl rfl
  idle _ := of_charge rfl rfl rfl rfl

end Charged

variable [Bus β]

/-- What a handler does to a machine that it does not reset. It may execute opcodes, by a table of
such handlers; but for that it charges nothing. -/
inductive Handled : Machine β σ → Machine β σ → Prop
  | uncharged {m m' : Machine β σ} (h : Uncharged m m') : Handled m m'
  | execute {η : Type} [Host η] {table : OpcodeTable β σ} (s : Hosted β σ η) (fuel : Nat)
    (hT : ∀ w n, Handled n (table.dispatch w n).2) :
    Handled s.machine (Mc68000.execute table fuel s).state.machine
  | trans {m m₁ m₂ : Machine β σ} (h : Handled m m₁) (h₁ : Handled m₁ m₂) : Handled m m₂

theorem Handled.charged (h : Handled m m₁) : Charged m m₁ := by
  -- For a call from inside a handler the hypothesis is about the handlers of that call.
  induction h with
  | uncharged h => exact .of_uncharged h
  | execute s fuel hT ih => exact Execution.execute_kept Charged.kept ih s fuel
  | trans h h₁ ih ih₁ => exact ih.trans ih₁

/-- Of an opcode its cost is charged, after whatever its handler executed, and nothing else is. -/
structure ChargesOpcodesOnly (table : OpcodeTable β σ) (m : Machine β σ) : Prop where
  fetched : Uncharged m m.fetchOpcode.2.takeFault.2
  opcode : m.fetchOpcode.2.takeFault.1 = none →
    let done := table.dispatch m.fetchOpcode.1 m.fetchOpcode.2.takeFault.2
    (m.executeOpcode table).cycles = done.2.cycles.add done.1 ∧
      done.2.Shows Event.cost? (m.executeOpcode table) [done.1]
  faulted : m.fetchOpcode.2.takeFault.1 ≠ none → Uncharged m (m.executeOpcode table)
  trace : Uncharged m m.traceIfDue
  interrupt : ∀ wake base level, Uncharged m (Hosted.acceptInterrupt wake base level m)
  delivery : Uncharged m m.deliverFault

namespace Uncharged

theorem fetched (m : Machine β σ) : Uncharged m m.fetchOpcode.2.takeFault.2 :=
  ⟨rfl, ⟨[_, _], rfl, rfl⟩, rfl⟩

theorem traceIfDue (m : Machine β σ) : Uncharged m m.traceIfDue := by
  simp only [Machine.traceIfDue]
  split
  · have hlog : Uncharged m (m.log .trace) := .log m rfl
    exact (hlog.trans (kept.takeException _ _)).trans (kept.deliverFault _)
  · exact .refl m

theorem acceptInterrupt (wake : Registers → Registers) (base level : UInt8) (m : Machine β σ) :
    Uncharged m (Hosted.acceptInterrupt wake base level m) := by
  have hwoken : Uncharged m ((m.takeInterrupt base level).mapRegs fun r =>
      wake { r with stopped := false }) :=
    (kept.takeInterrupt m base level).trans (kept.of_scene rfl)
  exact hwoken.trans (kept.deliverFault _)

omit [Bus β] in
theorem shows_cost (h : Uncharged m m₁) : m.Shows Event.cost? m₁ [] := by
  obtain ⟨es, hj, hes⟩ := h.charges
  refine ⟨es, hj, ?_⟩
  rw [List.filterMap_eq_nil_iff] at hes ⊢
  exact fun e he => Event.cost?_of_charge? (hes e he)

end Uncharged

theorem chargesOpcodesOnly (table : OpcodeTable β σ) (m : Machine β σ) :
    m.ChargesOpcodesOnly table where
  fetched := .fetched m
  opcode hnone := by
    have heq := executeOpcode_eq table m
    rw [hnone] at heq
    rw [heq]
    let done := dispatched table m.fetchOpcode.1 m.fetchOpcode.2.takeFault.2
    have hdelivered := Uncharged.kept.deliverFault done
    have hdone : Shows Event.cost? (table.dispatch m.fetchOpcode.1 m.fetchOpcode.2.takeFault.2).2
        done [(table.dispatch m.fetchOpcode.1 m.fetchOpcode.2.takeFault.2).1] :=
      .of_event (.dispatch _ _) rfl
    exact ⟨hdelivered.cycles, hdone.trans hdelivered.shows_cost⟩
  faulted hfault := by
    obtain ⟨f, hf⟩ := Option.ne_none_iff_exists'.mp hfault
    have heq := executeOpcode_eq table m
    rw [hf] at heq
    rw [heq]
    have hback : Uncharged m (m.fetchOpcode.2.takeFault.2.setPc
        (m.fetchOpcode.2.takeFault.2.regs.pc - 2)) :=
      (Uncharged.fetched m).trans (Uncharged.kept.of_scene rfl)
    exact hback.trans (Uncharged.kept.raiseFault _ f)
  trace := .traceIfDue m
  interrupt wake base level := .acceptInterrupt wake base level m
  delivery := Uncharged.kept.deliverFault m

end Machine

namespace Execution
variable {β σ η : Type} [Host η] [Bus β]
open Machine (Handled ChargesOpcodesOnly)

/-- A call dispatches opcodes of these costs, and idles for so many ticks. -/
structure Charges (table : OpcodeTable β σ) (s : Hosted β σ η) (n : Nat) (costs : List UInt32)
    (ticks : Nat) : Prop where
  dispatched : s.machine.Shows Event.cost? (execute table n s).state.machine costs
  delayed : ∃ delays, s.machine.Shows Event.delay? (execute table n s).state.machine delays ∧
    delays.length = ticks
  count : (execute table n s).state.machine.cycles.count.toNat =
    (s.machine.cycles.count.toNat +
      (owed costs + s.machine.settings.idleTickCycles.toNat * ticks)) % 2 ^ 32
  since : owed costs + s.machine.settings.idleTickCycles.toNat * ticks < 2 ^ 32 →
    ((execute table n s).state.machine.cycles.since s.machine.cycles).toNat =
      owed costs + s.machine.settings.idleTickCycles.toNat * ticks

/-- A call charges the costs that its handlers return and its ticks of idling. -/
theorem cycles_accounted {table : OpcodeTable β σ}
    (hT : ∀ w n, Handled n (table.dispatch w n).2) (s : Hosted β σ η) (n : Nat) :
    (∃ costs ticks, Charges table s n costs ticks) ∧
      ∀ m : Machine β σ, m.ChargesOpcodesOnly table := by
  refine ⟨?_, Machine.chargesOpcodesOnly table⟩
  have hcharged := execute_kept Machine.Charged.kept (fun w m => (hT w m).charged) s n
  obtain ⟨charges, ⟨es, hj, hes⟩, hcycles⟩ := hcharged.cycles
  rw [← hes, owed_filterMap_charge] at hcycles
  refine ⟨es.reverse.filterMap Event.cost?, (es.reverse.filterMap Event.delay?).length,
    ⟨es, hj, rfl⟩, ⟨_, ⟨es, hj, rfl⟩, rfl⟩, ?_, fun hbound => ?_⟩
  · rw [hcycles, Cycles.toNat_add_owed]
  · rw [hcycles, Cycles.since_add_owed _ hbound]

def wrapping : Hosted Ram Unit Host.Stuck :=
  let ram := (((Ram.ofSize 256).pokeLong 0x78 0xB0).loadWords 0xA0
    [0x4E71, 0x4E72, 0x2000]).loadWords 0xB0 [0x4E71]
  let m := (Machine.ofSettings { Settings.default with idleTickCycles := 256 } ram ()).charge
    0xFFFFFFFC
  ⟨(m.setRegister .sp 0x100).setRegister .pc 0xA0, { level := some 6 }⟩

theorem cycles_accounted_wrapping :
    (∀ w (m : Machine Ram Unit), Handled m (ControlInstructions.table.dispatch w m).2) ∧
      Charges ControlInstructions.table wrapping 5 [4, 4, 4] 1 := by
  have hT : ∀ w (m : Machine Ram Unit), Handled m (ControlInstructions.table.dispatch w m).2 :=
    fun w m => .uncharged (ControlInstructions.dispatch_kept Machine.Uncharged.kept w m)
  refine ⟨hT, ?_⟩
  obtain ⟨⟨costs, ticks, h⟩, -⟩ := cycles_accounted hT wrapping 5
  have hgrows := (execute_continues wrapping 5).grows
  have hcosts : costs = [4, 4, 4] :=
    (h.dispatched.unique (.of_take Event.cost? hgrows)).trans (by decide +kernel)
  have hticks : ticks = 1 := by
    obtain ⟨delays, hdelays, hlength⟩ := h.delayed
    rw [← hlength, hdelays.unique (.of_take Event.delay? hgrows)]
    decide +kernel
  rwa [hcosts, hticks] at h

end Execution
end Mc68000
