import Mc68000.ControlInstructions
import Mc68000.Proofs.Exception

/-!
# What the control instructions do to a machine

One lemma for every handler, and one for whatever the table finds for an opcode word. Only STOP sets
the condition of that name, so relations that its setting breaks still hold across the other words.
-/

namespace Mc68000.ControlInstructions
variable {β σ : Type} [Bus β] {P : Event → Prop} {R : Registers → Registers → Prop}
open Machine (Evolves)

def stopped (r : Registers) : Registers :=
  { r with stopped := true }.mapPending fun p => { p with stop := true }

theorem fetchWord_evolves (hK : Registers.KeptByException R)
    (hP : ∀ e : Event, e.ofInstruction → P e)
    (m : Machine β σ) : Evolves P R m m.fetchWord.2 :=
  .of_event (hP (.stream m.regs.pc 2) rfl) (hK.pc _ _) rfl rfl id rfl rfl

theorem fetchLong_evolves (hK : Registers.KeptByException R)
    (hP : ∀ e : Event, e.ofInstruction → P e)
    (m : Machine β σ) : Evolves P R m m.fetchLong.2 :=
  .of_event (hP (.stream m.regs.pc 4) rfl) (hK.pc _ _) rfl rfl id rfl rfl

theorem popWord_evolves (hK : Registers.KeptByException R) (m : Machine β σ) :
    Evolves P R m m.popWord.2 :=
  .of_parts (hK.address _ 7 (by decide) _) rfl rfl rfl rfl rfl

theorem popLong_evolves (hK : Registers.KeptByException R) (m : Machine β σ) :
    Evolves P R m m.popLong.2 :=
  .of_parts (hK.address _ 7 (by decide) _) rfl rfl rfl rfl rfl

theorem pushLong_evolves (hK : Registers.KeptByException R) (m : Machine β σ) (l : UInt32) :
    Evolves P R m (m.pushLong l) :=
  .of_parts (hK.address _ 7 (by decide) _) rfl rfl rfl rfl rfl

omit [Bus β] in
theorem announce (hK : Registers.KeptByException R) (hP : ∀ e : Event, e.ofInstruction → P e)
    (m : Machine β σ) (call : HookCall) (hc : call.intercepts = false) :
    Evolves P R m (m.notify call) :=
  Machine.notify_evolves hK (fun _ _ => hP _ rfl) m hc

theorem goTo_evolves (hK : Registers.KeptByException R) (hP : ∀ e : Event, e.ofInstruction → P e)
    (m : Machine β σ) (dest : UInt32) : Evolves P R m (m.jump dest) :=
  Machine.jump_evolves hK (fun e he => hP e
    (Event.ofInstruction_of_ofException (Event.ofException_of_ofEntry he))) m dest

variable {m : Machine β σ}

theorem raise_evolves (hK : Registers.KeptByException R) (hP : ∀ e : Event, e.ofInstruction → P e)
    (hH : m.hooks.Respects R) (v : ExceptionVector) : Evolves P R m (m.takeException v) :=
  Machine.takeException_evolves hK (fun e he => hP e (Event.ofInstruction_of_ofException he)) hH v

theorem refuse_evolves (hK : Registers.KeptByException R) (hP : ∀ e : Event, e.ofInstruction → P e)
    (hH : m.hooks.Respects R) (v : ExceptionVector) :
    Evolves P R m ((m.setPc (m.regs.pc - 2)).takeException v) := by
  have hback : Evolves P R m (m.setPc (m.regs.pc - 2)) := .mapRegs _ (hK.pc _ _)
  exact hback.trans hK (raise_evolves hK hP (hback.respects hH) v)

theorem privileged_evolves (hK : Registers.KeptByException R)
    (hP : ∀ e : Event, e.ofInstruction → P e)
    (hH : m.hooks.Respects R) {h : Handler β σ} (w : UInt16)
    (hh : m.regs.status.s = true → Evolves P R m (h w m).2) :
    Evolves P R m (privileged h w m).2 := by
  simp only [privileged]
  split
  · exact hh ‹_›
  · exact refuse_evolves hK hP hH _

theorem stop_evolves (hK : Registers.KeptByOpcode R) (hP : ∀ e : Event, e.ofInstruction → P e)
    (hH : m.hooks.Respects R) (hstop : m.regs.status.s = true → ∀ r, R r (stopped r)) (w : UInt16) :
    Evolves P R m (stop w m).2 := by
  refine privileged_evolves hK hP hH w fun hs => ?_
  have hfetch := fetchWord_evolves hK.toKeptByException hP m
  generalize m.fetchWord = p at hfetch ⊢
  obtain ⟨sr, n⟩ := p
  have hload : R n.regs (stopped (n.regs.loadStatus sr)) := hK.trans (hK.load _ _) (hstop hs _)
  exact hfetch.trans hK (.of_parts hload rfl rfl rfl rfl rfl)

theorem rte_evolves (hK : Registers.KeptByOpcode R) (hP : ∀ e : Event, e.ofInstruction → P e)
    (hH : m.hooks.Respects R) (w : UInt16) : Evolves P R m (rte w m).2 := by
  refine privileged_evolves hK hP hH w fun _ => ?_
  have hsr := popWord_evolves (P := P) hK.toKeptByException m
  generalize m.popWord = p at hsr ⊢
  obtain ⟨sr, m₁⟩ := p
  have hpop := hsr.trans hK (popLong_evolves hK m₁)
  dsimp only
  generalize m₁.popLong = q at hpop ⊢
  obtain ⟨dest, n⟩ := q
  have hload := hpop.trans hK (.mapRegs (f := fun r => r.loadStatus sr) n (hK.load _ _))
  have hsp := hload.trans hK (announce hK hP _ (.newSp .incremented) rfl)
  exact (hsp.trans hK (announce hK hP _ (.rte dest) rfl)).trans hK
    (goTo_evolves hK hP _ dest)

theorem rts_evolves (hK : Registers.KeptByException R) (hP : ∀ e : Event, e.ofInstruction → P e)
    (m : Machine β σ) (w : UInt16) : Evolves P R m (rts w m).2 := by
  have hpop := popLong_evolves (P := P) hK m
  simp only [rts]
  generalize m.popLong = p at hpop ⊢
  obtain ⟨dest, n⟩ := p
  have hsp := hpop.trans hK (announce hK hP n (.newSp .incremented) rfl)
  exact (hsp.trans hK (announce hK hP _ (.rts dest) rfl)).trans hK
    (goTo_evolves hK hP _ dest)

theorem call_evolves (hK : Registers.KeptByException R) (hP : ∀ e : Event, e.ofInstruction → P e)
    (m : Machine β σ) (ret dest : UInt32) : Evolves P R m (call m ret dest) := by
  have hsp := (pushLong_evolves hK m ret).trans hK (announce hK hP _ (.newSp .decremented) rfl)
  exact hsp.trans hK (goTo_evolves hK hP _ dest)

theorem jsrAbsolute_evolves (hK : Registers.KeptByException R)
    (hP : ∀ e : Event, e.ofInstruction → P e)
    (m : Machine β σ) (w : UInt16) : Evolves P R m (jsrAbsolute w m).2 := by
  have hfetch := fetchLong_evolves hK hP m
  simp only [jsrAbsolute]
  generalize m.fetchLong = p at hfetch ⊢
  obtain ⟨dest, n⟩ := p
  have hjsr := hfetch.trans hK (announce hK hP n (.jsr n.regs.pc dest) rfl)
  exact hjsr.trans hK (call_evolves hK hP _ n.regs.pc dest)

theorem jsrIndirect_evolves (hK : Registers.KeptByException R)
    (hP : ∀ e : Event, e.ofInstruction → P e)
    (m : Machine β σ) (w : UInt16) : Evolves P R m (jsrIndirect w m).2 := by
  simp only [jsrIndirect]
  exact (announce hK hP m (.jsrIndirect m.regs.pc m.regs.a[Register.place w.toUInt8]) rfl).trans hK
    (call_evolves hK hP _ _ _)

theorem linkFrame_kept (hK : Registers.KeptByException R) (r : Registers)
    (place : Fin 8) (size : Int32) :
    R r (linkFrame r place size) :=
  hK.trans (hK.address r place place.isLt r.sp) (hK.address _ 7 (by decide) _)

theorem link_evolves (hK : Registers.KeptByException R) (hP : ∀ e : Event, e.ofInstruction → P e)
    (m : Machine β σ) (w : UInt16) : Evolves P R m (link w m).2 := by
  have hfetch := fetchWord_evolves hK hP m
  simp only [link]
  generalize m.fetchWord = p at hfetch ⊢
  obtain ⟨d, n⟩ := p
  let size := d.toInt16.toInt32
  have hroom := hfetch.trans hK
    (.mapRegs (f := fun r => r.reserve 4) n (hK.address _ 7 (by decide) _))
  have hwrite : ∀ k : Machine β σ, Evolves P R k
      ((k.writeLong k.regs.sp k.regs.a[Register.place w.toUInt8]).mapRegs fun r =>
        linkFrame r (Register.place w.toUInt8) size) :=
    fun k => .of_parts (linkFrame_kept hK k.regs _ size) rfl rfl rfl rfl rfl
  have hlink := (hroom.trans hK (hwrite _)).trans hK (announce hK hP _ (.link size) rfl)
  exact hlink.trans hK (announce hK hP _ (.newSp .decremented) rfl)

theorem moveToSr_evolves (hK : Registers.KeptByOpcode R) (hP : ∀ e : Event, e.ofInstruction → P e)
    (hH : m.hooks.Respects R) (w : UInt16) : Evolves P R m (moveToSr w m).2 := by
  refine privileged_evolves hK hP hH w fun _ => ?_
  have hfetch := fetchWord_evolves hK.toKeptByException hP m
  generalize m.fetchWord = p at hfetch ⊢
  obtain ⟨sr, n⟩ := p
  exact hfetch.trans hK (.of_parts (hK.load n.regs sr) rfl rfl rfl rfl rfl)

theorem illegalOpcode_evolves (hK : Registers.KeptByException R)
    (hP : ∀ e : Event, e.ofInstruction → P e)
    (hH : m.hooks.Respects R) (w : UInt16) :
    Evolves P R m (OpcodeTable.illegalOpcode w m).2 :=
  refuse_evolves hK hP hH _

theorem handler_assign (t : OpcodeTable β σ) (o w : UInt16) (h : Handler β σ) :
    (t.assign o h).handler w = if w = o then h else t.handler w := by
  simp only [OpcodeTable.handler, OpcodeTable.assign]
  split <;> rfl

theorem handler_assignMatching (t : OpcodeTable β σ) (mask o w : UInt16) (h : Handler β σ) :
    (t.assignMatching mask o h).handler w = if w &&& mask = o then h else t.handler w := by
  simp only [OpcodeTable.handler, OpcodeTable.assignMatching]
  split <;> rfl

theorem handler_empty (w : UInt16) :
    (OpcodeTable.empty : OpcodeTable β σ).handler w = OpcodeTable.illegalOpcode := rfl

inductive Mnemonic where
  | nop
  | stop
  | rte
  | rts
  | trap
  | jsrAbsolute
  | jsrIndirect
  | link
  | moveToSr
  | illegal
  deriving DecidableEq, Repr

namespace Mnemonic

def ofWord (w : UInt16) : Mnemonic :=
  if w = 0x46FC then moveToSr
  else if w &&& 0xFFF8 = 0x4E50 then link
  else if w &&& 0xFFF8 = 0x4E90 then jsrIndirect
  else if w = 0x4EB9 then jsrAbsolute
  else if w = 0x4AFC then illegal
  else if w &&& 0xFFF0 = 0x4E40 then trap
  else if w = 0x4E75 then rts
  else if w = 0x4E73 then rte
  else if w = 0x4E72 then stop
  else if w = 0x4E71 then nop
  else illegal

def handler : Mnemonic → Handler β σ
  | nop => ControlInstructions.nop
  | stop => ControlInstructions.stop
  | rte => ControlInstructions.rte
  | rts => ControlInstructions.rts
  | trap => ControlInstructions.trap
  | jsrAbsolute => ControlInstructions.jsrAbsolute
  | jsrIndirect => ControlInstructions.jsrIndirect
  | link => ControlInstructions.link
  | moveToSr => ControlInstructions.moveToSr
  | illegal => OpcodeTable.illegalOpcode

end Mnemonic

theorem handler_eq (w : UInt16) :
    (table : OpcodeTable β σ).handler w = (Mnemonic.ofWord w).handler := by
  simp only [table, install, handler_assign, handler_assignMatching, handler_empty,
    Mnemonic.ofWord, apply_ite Mnemonic.handler]
  rfl

/-- What the table finds for a word. Those that load the status word are told apart by theirs. -/
theorem handler_cases (w : UInt16) (motive : Handler β σ → Prop) (hnop : motive nop)
    (hstop : w = 0x4E72 → motive stop) (hrte : w = 0x4E73 → motive rte) (hrts : motive rts)
    (htrap : motive trap) (hillegal : motive OpcodeTable.illegalOpcode)
    (habsolute : motive jsrAbsolute) (hindirect : motive jsrIndirect) (hlink : motive link)
    (hmove : w = 0x46FC → motive moveToSr) : motive (table.handler w) := by
  simp only [table, install]
  simp only [handler_assign, handler_assignMatching, handler_empty]
  refine iteInduction hmove fun _ => ?_
  refine iteInduction (fun _ => hlink) fun _ => ?_
  refine iteInduction (fun _ => hindirect) fun _ => ?_
  refine iteInduction (fun _ => habsolute) fun _ => ?_
  refine iteInduction (fun _ => hillegal) fun _ => ?_
  refine iteInduction (fun _ => htrap) fun _ => ?_
  refine iteInduction (fun _ => hrts) fun _ => ?_
  refine iteInduction hrte fun _ => ?_
  refine iteInduction hstop fun _ => ?_
  exact iteInduction (fun _ => hnop) fun _ => hillegal

theorem dispatch_evolves (hK : Registers.KeptByOpcode R) (hP : ∀ e : Event, e.ofInstruction → P e)
    (hH : m.hooks.Respects R) (w : UInt16)
    (hstop : w = 0x4E72 → m.regs.status.s = true → ∀ r, R r (stopped r)) :
    Evolves P R m (table.dispatch w m).2 := by
  simp only [OpcodeTable.dispatch]
  apply handler_cases w fun h => Evolves P R m (h w m).2
  case hnop => exact .refl hK m
  case hstop => exact fun hw => stop_evolves hK hP hH (hstop hw) w
  case hrte => exact fun _ => rte_evolves hK hP hH w
  case hrts => exact rts_evolves hK hP m w
  case htrap => exact raise_evolves hK hP hH _
  case hillegal => exact illegalOpcode_evolves hK hP hH w
  case habsolute => exact jsrAbsolute_evolves hK hP m w
  case hindirect => exact jsrIndirect_evolves hK hP m w
  case hlink => exact link_evolves hK hP m w
  case hmove => exact fun _ => moveToSr_evolves hK hP hH w

theorem handler_stop : (table : OpcodeTable β σ).handler 0x4E72 = stop := rfl

theorem handler_rte : (table : OpcodeTable β σ).handler 0x4E73 = rte := rfl

theorem handler_moveToSr : (table : OpcodeTable β σ).handler 0x46FC = moveToSr := rfl

end Mc68000.ControlInstructions
