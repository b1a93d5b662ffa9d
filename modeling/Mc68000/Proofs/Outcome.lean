import Mc68000.Proofs.Entry
import Mc68000.Proofs.Loop
import Mathlib.Tactic.Push

/-!
# What can become of an opcode

An opcode goes by with nothing but the program counter and address registers changed, or it takes
an exception, or it loads a status word. Which word it loads can be told before it is executed.
-/

namespace Mc68000
variable {β σ : Type}

def Event.vector? : Event → Option ExceptionVector
  | .exception r => some r.vector
  | _ => none

theorem Event.vector?_of_ofEntry {e : Event} (h : e.ofEntry) : e.vector? = none := by
  cases e <;> simp_all [ofEntry, vector?]

theorem Machine.Shows.exception_iff {m m' : Machine β σ} {vs : List ExceptionVector}
    (h : Machine.Shows Event.vector? m m' vs) :
    Machine.Logged (fun e => e.isException) m m' ↔ vs ≠ [] := by
  obtain ⟨es, hj, rfl⟩ := h
  rw [Ne, List.filterMap_eq_nil_iff]
  push Not
  constructor
  · intro hlogged
    obtain ⟨e, he, hexception⟩ := hlogged.of_append hj
    refine ⟨e, List.mem_reverse.mpr he, ?_⟩
    cases e <;> simp_all [Event.isException, Event.vector?]
  · rintro ⟨e, he, hvector⟩
    refine ⟨es, hj, e, List.mem_reverse.mp he, ?_⟩
    cases e <;> simp_all [Event.isException, Event.vector?]

def Registers.Moves (r r' : Registers) : Prop := ∃ pc a, r' = { r with pc := pc, a := a }

namespace Registers.Moves
variable {r r₁ r₂ : Registers}

theorem of_program (r : Registers) (pc : UInt32) (a : Vector UInt32 8) :
    r.Moves { r with pc := pc, a := a } := ⟨pc, a, rfl⟩

theorem refl (r : Registers) : r.Moves r := .of_program r r.pc r.a

theorem trans (h : r.Moves r₁) (h₁ : r₁.Moves r₂) : r.Moves r₂ := by
  obtain ⟨_, _, rfl⟩ := h
  obtain ⟨pc, a, rfl⟩ := h₁
  exact ⟨pc, a, rfl⟩

theorem status (h : r.Moves r₁) : r₁.status = r.status := by
  obtain ⟨_, _, rfl⟩ := h
  rfl

theorem pending (h : r.Moves r₁) : r₁.pending = r.pending := by
  obtain ⟨_, _, rfl⟩ := h
  rfl

end Registers.Moves

namespace Machine
variable {m m₁ m₂ : Machine β σ}

/-- The machine went on without an exception, and without a change of status. -/
structure Ordinary (m m' : Machine β σ) : Prop where
  regs : m.regs.Moves m'.regs
  hooks : m'.hooks = m.hooks
  shows : Shows Event.vector? m m' []

namespace Ordinary

theorem trans (h : Ordinary m m₁) (h₁ : Ordinary m₁ m₂) : Ordinary m m₂ :=
  ⟨h.regs.trans h₁.regs, h₁.hooks.trans h.hooks, h.shows.trans h₁.shows⟩

theorem of_parts (hregs : m.regs.Moves m₁.regs) (hhooks : m₁.hooks = m.hooks)
    (hjournal : m₁.journal = m.journal) : Ordinary m m₁ :=
  ⟨hregs, hhooks, [], hjournal, rfl⟩

theorem of_event {e : Event} (he : e.vector? = none) (hregs : m.regs.Moves m₁.regs)
    (hhooks : m₁.hooks = m.hooks) (hjournal : m₁.journal = e :: m.journal) : Ordinary m m₁ := by
  have hshows := Shows.of_event (p := Event.vector?) e hjournal
  rw [he] at hshows
  exact ⟨hregs, hhooks, hshows⟩

theorem refl (m : Machine β σ) : Ordinary m m := .of_parts (.refl _) rfl rfl

end Ordinary

theorem notify_ordinary (m : Machine β σ) (call : HookCall) (hc : call.intercepts = false) :
    Ordinary m (m.notify call) := by
  have hevolves : Evolves (fun e => e.vector? = none) (fun _ _ => True) m (m.notify call) :=
    notify_evolves Registers.kept_true (fun _ _ => rfl) m hc
  refine ⟨?_, hevolves.hooks, .of_evolves hevolves⟩
  rw [regs_notify m call hc]
  exact .refl _

variable [Bus β]

theorem takeFault_ordinary (m : Machine β σ) : Ordinary m m.takeFault.2 :=
  .of_parts (.refl _) rfl rfl

theorem jump_ordinary (m : Machine β σ) (pc : UInt32) : Ordinary m (m.jump pc) := by
  have hhooks : Ordinary m (m.notify (.newPc pc)) := notify_ordinary m _ rfl
  have hbus : Ordinary (m.notify (.newPc pc)) (m.jump pc) :=
    .of_event (e := .newPc pc) rfl (.of_program _ pc _) rfl rfl
  exact hhooks.trans hbus

end Machine

namespace ControlInstructions
variable [Bus β] {m : Machine β σ}
open Machine (Ordinary)

theorem fetchWord_ordinary (m : Machine β σ) : Ordinary m m.fetchWord.2 :=
  .of_event (e := .stream m.regs.pc 2) rfl (.of_program ..) rfl rfl

theorem fetchLong_ordinary (m : Machine β σ) : Ordinary m m.fetchLong.2 :=
  .of_event (e := .stream m.regs.pc 4) rfl (.of_program ..) rfl rfl

theorem popWord_ordinary (m : Machine β σ) : Ordinary m m.popWord.2 :=
  .of_parts (.of_program ..) rfl rfl

theorem popLong_ordinary (m : Machine β σ) : Ordinary m m.popLong.2 :=
  .of_parts (.of_program ..) rfl rfl

theorem rts_ordinary (m : Machine β σ) (w : UInt16) : Ordinary m (rts w m).2 := by
  have hpop := popLong_ordinary m
  simp only [rts]
  generalize m.popLong = p at hpop ⊢
  obtain ⟨dest, n⟩ := p
  have hsp := hpop.trans (n.notify_ordinary (.newSp .incremented) rfl)
  have hrts := hsp.trans (Machine.notify_ordinary _ (.rts dest) rfl)
  exact hrts.trans (Machine.jump_ordinary _ dest)

theorem call_ordinary (m : Machine β σ) (ret dest : UInt32) : Ordinary m (call m ret dest) := by
  have hpush : Ordinary m (m.pushLong ret) := .of_parts (.of_program ..) rfl rfl
  have hsp := hpush.trans (Machine.notify_ordinary _ (.newSp .decremented) rfl)
  exact hsp.trans (Machine.jump_ordinary _ dest)

theorem jsrAbsolute_ordinary (m : Machine β σ) (w : UInt16) : Ordinary m (jsrAbsolute w m).2 := by
  have hfetch := fetchLong_ordinary m
  simp only [jsrAbsolute]
  generalize m.fetchLong = p at hfetch ⊢
  obtain ⟨dest, n⟩ := p
  have hjsr := hfetch.trans (n.notify_ordinary (.jsr n.regs.pc dest) rfl)
  exact hjsr.trans (call_ordinary _ _ _)

theorem jsrIndirect_ordinary (m : Machine β σ) (w : UInt16) :
    Ordinary m (jsrIndirect w m).2 := by
  have hjsr := m.notify_ordinary
    (.jsrIndirect m.regs.pc m.regs.a[Register.place w.toUInt8]) rfl
  simp only [jsrIndirect]
  exact hjsr.trans (call_ordinary _ _ _)

theorem link_ordinary (m : Machine β σ) (w : UInt16) : Ordinary m (link w m).2 := by
  have hfetch := fetchWord_ordinary m
  simp only [link]
  generalize m.fetchWord = p at hfetch ⊢
  obtain ⟨d, n⟩ := p
  have hframe : Ordinary n (((n.mapRegs fun r => r.reserve 4).writeLong (n.regs.reserve 4).sp
      (n.regs.reserve 4).a[Register.place w.toUInt8]).mapRegs fun r =>
        linkFrame r (Register.place w.toUInt8) d.toInt16.toInt32) :=
    .of_parts (.of_program ..) rfl rfl
  have hlink := (hfetch.trans hframe).trans
    (Machine.notify_ordinary _ (.link d.toInt16.toInt32) rfl)
  exact hlink.trans (Machine.notify_ordinary _ _ rfl)

/-- The word that an opcode loads into SR, were it to be executed now. In user state none does. -/
def loads (w : UInt16) (m : Machine β σ) : Option UInt16 :=
  if m.regs.status.s then
    if w = 0x4E72 ∨ w = 0x46FC then some m.fetchWord.1
    else if w = 0x4E73 then some m.popWord.1
    else none
  else none

/-- What an opcode does, by the status word that it loads. -/
inductive Outcome (m : Machine β σ) : Option UInt16 → Machine β σ → Prop
  | ordinary {m'} (h : Ordinary m m') : Outcome m none m'
  | exception {n} (h : Ordinary m n) (v : ExceptionVector) : Outcome m none (n.takeException v)
  | load {n m'} (h : Ordinary m n) (sr : UInt16)
    (h' : Ordinary (n.mapRegs fun r => r.loadStatus sr) m') : Outcome m (some sr) m'
  | stop {n} (h : Ordinary m n) (sr : UInt16) :
    Outcome m (some sr) (n.mapRegs fun r => stopped (r.loadStatus sr))

theorem refused_outcome (m : Machine β σ) (v : ExceptionVector) :
    Outcome m none ((m.setPc (m.regs.pc - 2)).takeException v) := by
  have hback : Ordinary m (m.setPc (m.regs.pc - 2)) := .of_parts (.of_program ..) rfl rfl
  exact .exception hback v

theorem privileged_outcome {h : Handler β σ} {w : UInt16} {sr : UInt16}
    (hloads : loads w m = if m.regs.status.s then some sr else none)
    (hh : Outcome m (some sr) (h w m).2) : Outcome m (loads w m) (privileged h w m).2 := by
  rw [hloads]
  simp only [privileged]
  split
  · exact hh
  · exact refused_outcome m _

theorem stop_outcome (m : Machine β σ) : Outcome m (loads 0x4E72 m) (stop 0x4E72 m).2 :=
  privileged_outcome rfl (.stop (fetchWord_ordinary m) m.fetchWord.1)

theorem moveToSr_outcome (m : Machine β σ) : Outcome m (loads 0x46FC m) (moveToSr 0x46FC m).2 :=
  privileged_outcome rfl (.load (fetchWord_ordinary m) m.fetchWord.1 (.refl _))

theorem rte_outcome (m : Machine β σ) : Outcome m (loads 0x4E73 m) (rte 0x4E73 m).2 := by
  refine privileged_outcome rfl ?_
  have hsr := popWord_ordinary m
  generalize m.popWord = p at hsr ⊢
  obtain ⟨sr, m₁⟩ := p
  have hpop := hsr.trans (popLong_ordinary m₁)
  dsimp only
  generalize m₁.popLong = q at hpop ⊢
  obtain ⟨dest, n⟩ := q
  refine .load hpop sr ?_
  have hsp := Machine.notify_ordinary (n.mapRegs fun r => r.loadStatus sr) (.newSp .incremented) rfl
  exact (hsp.trans (Machine.notify_ordinary _ (.rte dest) rfl)).trans
    (Machine.jump_ordinary _ dest)

theorem dispatch_outcome (w : UInt16) (m : Machine β σ) :
    Outcome m (loads w m) (table.dispatch w m).2 := by
  simp only [OpcodeTable.dispatch]
  by_cases hstop : w = 0x4E72
  · rw [hstop, handler_stop]
    exact stop_outcome m
  by_cases hmove : w = 0x46FC
  · rw [hmove, handler_moveToSr]
    exact moveToSr_outcome m
  by_cases hrte : w = 0x4E73
  · rw [hrte, handler_rte]
    exact rte_outcome m
  have hnone : loads w m = none := by simp [loads, hstop, hmove, hrte]
  rw [hnone]
  apply handler_cases w fun h => Outcome m none (h w m).2
  case hnop => exact .ordinary (.refl m)
  case hstop => exact fun h => absurd h hstop
  case hrte => exact fun h => absurd h hrte
  case hrts => exact .ordinary (rts_ordinary m w)
  case htrap => exact .exception (.refl m) _
  case hillegal => exact refused_outcome m _
  case habsolute => exact .ordinary (jsrAbsolute_ordinary m w)
  case hindirect => exact .ordinary (jsrIndirect_ordinary m w)
  case hlink => exact .ordinary (link_ordinary m w)
  case hmove => exact fun h => absurd h hmove

end ControlInstructions

namespace Machine
variable [Bus β] {m : Machine β σ}

theorem raiseFault_shows_vector (m : Machine β σ) (f : Fault) :
    Shows Event.vector? m (m.raiseFault f) [f.kind.vector] := by
  have hfault : Shows Event.vector? m
      (({ m.takeFault.2 with lastFault := some f } : Machine β σ).log (.fault f)) [] :=
    .of_event (.fault f) rfl
  have htaken := hfault.trans
    (takeException_shows (fun _ => Event.vector?_of_ofEntry) _ f.kind.vector)
  rw [raiseFault_eq]
  split
  · exact htaken.trans ⟨[], rfl, rfl⟩
  · exact htaken.trans (.of_event (.doubleFault ..) rfl)

def loadedStatus (m : Machine β σ) : Option UInt16 :=
  match m.fetchOpcode.2.takeFault.1 with
  | some _ => none
  | none => ControlInstructions.loads m.fetchOpcode.1 m.fetchOpcode.2.takeFault.2

theorem fetchOpcode_ordinary (m : Machine β σ) : Ordinary m m.fetchOpcode.2.takeFault.2 := by
  have hlog : Ordinary m (m.log (.fetch m.regs)) := .of_event rfl (.refl _) rfl rfl
  have hword : Ordinary (m.log (.fetch m.regs)) m.fetchOpcode.2 :=
    ControlInstructions.fetchWord_ordinary _
  exact (hlog.trans hword).trans (takeFault_ordinary _)

theorem dispatched_ordinary (table : OpcodeTable β σ) (w : UInt16) (m : Machine β σ) :
    Ordinary (table.dispatch w m).2 (dispatched table w m) :=
  .of_event (e := .dispatch w (table.dispatch w m).1) rfl (.refl _) rfl rfl

end Machine
end Mc68000
