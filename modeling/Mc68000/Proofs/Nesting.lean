import Mc68000.Machine.Control
import Mc68000.Proofs.Entry
import Mc68000.Proofs.Instruction
import Mc68000.Proofs.RamBytes

/-!
# Calls, exceptions and returns

A call pushes a return address, and an exception pushes a frame with the status and the program
counter. As long as frames that are still in use are not written over, every return finds what was
saved for it, however calls and exceptions are nested and whichever stacks they are on.
-/

namespace Mc68000
variable {σ : Type}

namespace Registers
variable {r r₁ r₂ : Registers}

theorem sp_eq (r : Registers) : r.sp = if r.status.s then r.supervisorSp else r.userSp := by
  cases hs : r.status.s <;> simp [userSp, supervisorSp, hs]

/-- The registers that a nested return leaves as they were before the call or exception. -/
structure Matches (r r' : Registers) : Prop where
  d : r'.d = r.d
  a : ∀ (i : Nat) (h : i < 7), r'.a[i] = r.a[i]
  status : r'.status = r.status
  userSp : r'.userSp = r.userSp
  supervisorSp : r'.supervisorSp = r.supervisorSp

namespace Matches

theorem refl (r : Registers) : r.Matches r := ⟨rfl, fun _ _ => rfl, rfl, rfl, rfl⟩

theorem trans (h : r.Matches r₁) (h₁ : r₁.Matches r₂) : r.Matches r₂ where
  d := h₁.d.trans h.d
  a i hi := (h₁.a i hi).trans (h.a i hi)
  status := h₁.status.trans h.status
  userSp := h₁.userSp.trans h.userSp
  supervisorSp := h₁.supervisorSp.trans h.supervisorSp

theorem sp (h : r.Matches r₁) : r₁.sp = r.sp := by
  rw [sp_eq, sp_eq, h.status, h.userSp, h.supervisorSp]

end Matches

theorem a_setSp (r : Registers) (v : UInt32) (i : Nat) (h : i < 7) : (r.setSp v).a[i] = r.a[i] := by
  simp only [setSp]
  rw [Vector.getElem_set_ne]
  omega

theorem userSp_setSp (r : Registers) (v : UInt32) :
    (r.setSp v).userSp = if r.status.s then r.userSp else v := by
  cases hs : r.status.s <;> simp [userSp, setSp, sp, hs]

theorem supervisorSp_setSp (r : Registers) (v : UInt32) :
    (r.setSp v).supervisorSp = if r.status.s then v else r.supervisorSp := by
  cases hs : r.status.s <;> simp [supervisorSp, setSp, sp, hs]

theorem a_swapStacks (r : Registers) (was : Bool) (i : Nat) (h : i < 7) :
    (r.swapStacks was).a[i] = r.a[i] := by
  cases was with
  | false => exact a_setSp _ _ i h
  | true => exact a_setSp _ _ i h

theorem d_enter (r : Registers) (sp pc : UInt32) : (r.enter sp pc).d = r.d := by rw [enter_eq]

theorem a_enter (r : Registers) (sp pc : UInt32) (i : Nat) (h : i < 7) :
    (r.enter sp pc).a[i] = r.a[i] := by
  simp only [enter_eq]
  exact a_setSp r sp i h

theorem userSp_enter (r : Registers) (sp pc : UInt32) : (r.enter sp pc).userSp = r.userSp := by
  rw [enter_eq]
  rfl

theorem d_swapStacks (r : Registers) (was : Bool) : (r.swapStacks was).d = r.d := by
  cases was <;> rfl

theorem d_loadStatus (r : Registers) (w : UInt16) : (r.loadStatus w).d = r.d := by
  simp only [loadStatus, unpackStatus, followStatus]
  split
  · rfl
  · exact d_swapStacks _ _

theorem a_loadStatus (r : Registers) (w : UInt16) (i : Nat) (h : i < 7) :
    (r.loadStatus w).a[i] = r.a[i] := by
  simp only [loadStatus, unpackStatus, followStatus]
  split
  · rfl
  · exact a_swapStacks _ _ i h

theorem Matches.release {n pc pc₁ : UInt32} (h : Matches { r.reserve n with pc := pc } r₁) :
    r.Matches { r₁.release n with pc := pc₁ } := by
  have hsp : r₁.sp + n = r.sp := by
    have hreserved : r₁.sp = r.sp - n := h.sp.trans (sp_setSp r _)
    rw [hreserved, UInt32.sub_add_cancel]
  have hstatus : r₁.status = r.status := h.status
  have huser : r₁.userSp = (r.setSp (r.sp - n)).userSp := h.userSp
  have hsupervisor : r₁.supervisorSp = (r.setSp (r.sp - n)).supervisorSp := h.supervisorSp
  rw [userSp_setSp] at huser
  rw [supervisorSp_setSp] at hsupervisor
  constructor
  · exact h.d
  · intro i hi
    exact (a_setSp r₁ _ i hi).trans ((h.a i hi).trans (a_setSp r _ i hi))
  · exact hstatus
  -- The status is the one of before, so the stack that is popped is the one that was pushed to.
  · refine (userSp_setSp r₁ _).trans ?_
    rw [hstatus, hsp, huser]
    cases hs : r.status.s <;> simp [sp_eq, hs]
  · refine (supervisorSp_setSp r₁ _).trans ?_
    rw [hstatus, hsp, hsupervisor]
    cases hs : r.status.s <;> simp [sp_eq, hs]

theorem release_release (r : Registers) (n k : UInt32) :
    (r.release n).release k = r.release (n + k) := by
  have hsp : (r.release n).sp = r.sp + n := sp_setSp _ _
  rw [release, hsp, UInt32.add_assoc]
  simp [release, setSp]

theorem Matches.resume {sp pc pc₁ n : UInt32} (hmask : r.status.mask ≤ 7)
    (h : (r.enter sp pc).Matches r₁) (hsp : sp + n = r.supervisorSp) :
    r.Matches { (r₁.release n).loadStatus r.status.toWord with pc := pc₁ } := by
  have hstatus : r₁.status = r.status.inHandler := h.status.trans (status_enter ..)
  have hs : r₁.status.s = true := by
    rw [hstatus]
    rfl
  have hactive : r₁.sp = sp := by
    rw [sp_eq, if_pos hs, h.supervisorSp, supervisorSp_enter]
  constructor
  · exact (d_loadStatus ..).trans (h.d.trans (d_enter ..))
  · intro i hi
    exact (a_loadStatus _ _ i hi).trans
      ((a_setSp _ _ i hi).trans ((h.a i hi).trans (a_enter _ _ _ i hi)))
  · exact (status_loadStatus ..).trans (Status.ofWord_toWord_of_mask hmask)
  · refine (userSp_unpackStatus _).trans ((userSp_setSp r₁ _).trans ?_)
    rw [if_pos hs, h.userSp, userSp_enter]
  · refine (supervisorSp_unpackStatus _).trans ((supervisorSp_setSp r₁ _).trans ?_)
    rw [if_pos hs, hactive, hsp]

end Registers

namespace Machine
variable {β : Type} (m : Machine β σ) (v : ExceptionVector)

def atStatus : Machine β σ := if v.usesLongFrame then m.mapRegs fun r => r.release 8 else m

theorem bus_atStatus : (m.atStatus v).bus = m.bus := by
  rw [atStatus]
  split <;> rfl

theorem status_atStatus : (m.atStatus v).regs.status = m.regs.status := by
  rw [atStatus]
  split <;> rfl

theorem sp_atStatus :
    (m.atStatus v).regs.sp = m.regs.sp + if v.usesLongFrame then 8 else 0 := by
  rw [atStatus]
  split
  · exact Registers.sp_setSp _ _
  · exact (UInt32.add_zero _).symm

theorem release_atStatus :
    ((m.atStatus v).regs.release 2).release 4 = m.regs.release v.frameSize := by
  rw [atStatus, ExceptionVector.frameSize, Registers.release_release]
  split
  · exact Registers.release_release ..
  · rfl

end Machine

namespace Entry

def bytes (e : Entry Ram) : List UInt8 :=
  (if e.vector.usesLongFrame then List.replicate 8 0 else []) ++
    (BigEndian.wordBytes e.sr ++ BigEndian.longBytes e.returnAddress)

theorem peek_of_bytes {e : Entry Ram} {r : Ram} (h : r.bytes e.sp e.bytes.length = e.bytes) :
    r.peekWord (e.sp + if e.vector.usesLongFrame then 8 else 0) = e.sr ∧
      r.peekLong ((e.sp + if e.vector.usesLongFrame then 8 else 0) + 2) = e.returnAddress := by
  rw [bytes, List.length_append] at h
  have hread := Ram.peek_of_bytes h
  cases hlong : e.vector.usesLongFrame with
  | false => simpa [hlong] using hread
  | true => simpa [hlong] using hread

theorem framed_of_noLimit (e : Entry Ram) (h : e.memory.limit = none) :
    e.framed = e.memory.load e.sp e.bytes := by
  have hword : ∀ (bs : List UInt8) (w : UInt16),
      Bus.writeWord (e.memory.load e.sp bs) (e.sp + UInt32.ofNat bs.length) w =
        e.memory.load e.sp (bs ++ BigEndian.wordBytes w) := fun bs w =>
    (Ram.writeWord_of_noLimit ((Ram.limit_load ..).trans h) _ w).trans (Ram.load_append ..).symm
  have hlong : ∀ (bs : List UInt8) (l : UInt32),
      Bus.writeLong (e.memory.load e.sp bs) (e.sp + UInt32.ofNat bs.length) l =
        e.memory.load e.sp (bs ++ BigEndian.longBytes l) := fun bs l =>
    (Ram.writeLong_of_noLimit ((Ram.limit_load ..).trans h) _ l).trans (Ram.load_append ..).symm
  simp only [framed, bytes]
  split
  · let zeros := BigEndian.wordBytes 0 ++ BigEndian.longBytes 0
    have h2 : Bus.writeLong (e.memory.load e.sp (BigEndian.wordBytes 0)) (e.sp + 2) 0 =
        e.memory.load e.sp zeros := hlong _ _
    have h6 : Bus.writeWord (e.memory.load e.sp zeros) (e.sp + 6) 0 =
        e.memory.load e.sp (zeros ++ BigEndian.wordBytes 0) := hword _ _
    have h8 : Bus.writeWord (e.memory.load e.sp (zeros ++ BigEndian.wordBytes 0)) (e.sp + 8) e.sr =
        e.memory.load e.sp (zeros ++ BigEndian.wordBytes 0 ++ BigEndian.wordBytes e.sr) :=
      hword _ _
    rw [Ram.writeWord_of_noLimit h, h2, h6, h8]
    exact hlong (zeros ++ BigEndian.wordBytes 0 ++ BigEndian.wordBytes e.sr) e.returnAddress
  · rw [Ram.writeWord_of_noLimit h]
    exact hlong (BigEndian.wordBytes e.sr) e.returnAddress

theorem entered_of_noLimit (e : Entry Ram) (h : e.memory.limit = none) (vbr : UInt32) :
    e.entered vbr = e.memory.load e.sp e.bytes := by
  have hframed := e.framed_of_noLimit h
  have hlimit : e.framed.limit = none := by
    rw [hframed, Ram.limit_load]
    exact h
  rw [← hframed]
  exact congrArg Prod.snd
    (Ram.readLong_of_noLimit hlimit (ExceptionVector.entryAddress vbr e.vector))

end Entry

/-- A way to come back: a call, or an exception. -/
inductive Linkage where
  | absolute
  | indirect (opcode : UInt16)
  | exception (v : ExceptionVector)

namespace Linkage
open ControlInstructions (jsrAbsolute jsrIndirect rts rte)

def enter (m : Machine Ram σ) : Linkage → Machine Ram σ
  | .absolute => (jsrAbsolute 0x4EB9 m).2
  | .indirect opcode => (jsrIndirect opcode m).2
  | .exception v => m.takeException v

/-- The handler of a bus or address error drops what lies below the status word first. -/
def leave (m : Machine Ram σ) : Linkage → Machine Ram σ
  | .exception v => (rte 0x4E73 (if v.usesLongFrame then m.mapRegs fun r => r.release 8 else m)).2
  | _ => (rts 0x4E75 m).2

def returnAddress (m : Machine Ram σ) : Linkage → UInt32
  | .absolute => m.regs.pc + 4
  | _ => m.regs.pc

def base (m : Machine Ram σ) : Linkage → UInt32
  | .exception v => m.regs.supervisorSp - v.frameSize
  | _ => m.regs.sp - 4

def saved (m : Machine Ram σ) : Linkage → List UInt8
  | .exception v => (m.entry v).bytes
  | l => BigEndian.longBytes (l.returnAddress m)

def frame (m : Machine Ram σ) (l : Linkage) : List UInt32 :=
  Ram.span (l.base m) (l.saved m).length

variable {m k : Machine Ram σ}

theorem bus_call (hlimit : m.bus.limit = none) (ret dest : UInt32) :
    (ControlInstructions.call m ret dest).bus =
      m.bus.load (m.regs.sp - 4) (BigEndian.longBytes ret) := by
  have hsp : (m.regs.reserve 4).sp = m.regs.sp - 4 := Registers.sp_setSp _ _
  have hpush : (m.pushLong ret).bus = m.bus.load (m.regs.sp - 4) (BigEndian.longBytes ret) := by
    rw [← Ram.writeLong_of_noLimit hlimit, ← hsp]
    rfl
  rw [ControlInstructions.call, Machine.bus_jump, Machine.bus_notify _ _ rfl]
  exact hpush

theorem regs_call (m : Machine Ram σ) (ret dest : UInt32) :
    (ControlInstructions.call m ret dest).regs = { m.regs.reserve 4 with pc := dest } := by
  rw [ControlInstructions.call, Machine.regs_jump, Machine.regs_notify _ _ rfl]
  rfl

theorem fetchLong_of_noLimit (hlimit : m.bus.limit = none) :
    m.fetchLong = (m.bus.peekLong m.regs.pc, m.advance 4) := by
  have hread := Ram.readLong_of_noLimit hlimit m.regs.pc
  rw [Machine.fetchLong, Machine.readLong, show (m.advance 4).bus = m.bus from rfl, hread]
  rfl

def isCall : Linkage → Prop
  | .exception _ => False
  | _ => True

theorem enter_eq_call (hlimit : m.bus.limit = none) {l : Linkage} (hl : l.isCall) :
    ∃ n dest pc, l.enter m = ControlInstructions.call n (l.returnAddress m) dest ∧
      n.bus = m.bus ∧ n.regs = { m.regs with pc := pc } ∧ n.hooks = m.hooks := by
  have hobserved : ∀ (n : Machine Ram σ) (call : HookCall), call.intercepts = false →
      (n.notify call).hooks = n.hooks := by
    intro n call hc
    exact (Machine.notify_evolves (P := fun _ => True) Registers.kept_true.toKeptByException
      (fun _ _ => trivial) n hc).hooks
  cases l with
  | absolute =>
    let dest := m.bus.peekLong m.regs.pc
    let jsr : HookCall := .jsr (m.regs.pc + 4) dest
    refine ⟨(m.advance 4).notify jsr, dest, m.regs.pc + 4, ?_, (m.advance 4).bus_notify jsr rfl,
      (m.advance 4).regs_notify jsr rfl, hobserved (m.advance 4) jsr rfl⟩
    simp only [enter, jsrAbsolute, fetchLong_of_noLimit hlimit, returnAddress, jsr, dest]
    rw [show (m.advance 4).regs.pc = m.regs.pc + 4 from rfl]
  | indirect opcode =>
    let dest := m.regs.a[Register.place opcode.toUInt8]
    let jsr : HookCall := .jsrIndirect m.regs.pc dest
    refine ⟨m.notify jsr, dest, m.regs.pc, ?_, m.bus_notify jsr rfl, m.regs_notify jsr rfl,
      hobserved m jsr rfl⟩
    simp only [enter, jsrIndirect, returnAddress, jsr, dest]
  | exception v => exact hl.elim

theorem saved_of_isCall {l : Linkage} (hl : l.isCall) (m : Machine Ram σ) :
    l.saved m = BigEndian.longBytes (l.returnAddress m) ∧ l.base m = m.regs.sp - 4 := by
  cases l with
  | exception v => exact hl.elim
  | absolute => exact ⟨rfl, rfl⟩
  | indirect opcode => exact ⟨rfl, rfl⟩

theorem bus_enter (hlimit : m.bus.limit = none) (hH : m.hooks.NoInterceptors) (l : Linkage) :
    (l.enter m).bus = m.bus.load (l.base m) (l.saved m) := by
  by_cases hl : l.isCall
  · obtain ⟨n, dest, pc, heq, hbus, hregs, -⟩ := enter_eq_call hlimit hl
    obtain ⟨hsaved, hbase⟩ := saved_of_isCall hl m
    rw [heq, hsaved, hbase, bus_call (by rw [hbus]; exact hlimit), hbus, hregs]
    rfl
  · cases l with
    | exception v =>
      rw [enter, Machine.bus_takeException hH]
      exact (m.entry v).entered_of_noLimit hlimit _
    | absolute => exact absurd trivial hl
    | indirect opcode => exact absurd trivial hl

theorem hooks_enter (hlimit : m.bus.limit = none) (l : Linkage) :
    (l.enter m).hooks = m.hooks := by
  by_cases hl : l.isCall
  · obtain ⟨n, dest, pc, heq, -, -, hhooks⟩ := enter_eq_call hlimit hl
    rw [heq, ← hhooks]
    exact (ControlInstructions.call_evolves (P := fun _ => True)
      Registers.kept_true.toKeptByException (fun _ _ => trivial) n _ dest).hooks
  · cases l with
    | exception v => exact (Machine.takeException_continues m v).hooks
    | absolute => exact absurd trivial hl
    | indirect opcode => exact absurd trivial hl

theorem popLong_of_noLimit (hlimit : k.bus.limit = none) :
    k.popLong = (k.bus.peekLong k.regs.sp, k.mapRegs fun r => r.release 4) := by
  have hread := Ram.readLong_of_noLimit hlimit k.regs.sp
  rw [Machine.popLong, Machine.readLong,
    show (k.mapRegs fun r => r.release 4).bus = k.bus from rfl, hread]
  rfl

theorem popWord_of_noLimit (hlimit : k.bus.limit = none) :
    k.popWord = (k.bus.peekWord k.regs.sp, k.mapRegs fun r => r.release 2) := by
  have hread := Ram.readWord_of_noLimit hlimit k.regs.sp
  rw [Machine.popWord, Machine.readWord,
    show (k.mapRegs fun r => r.release 2).bus = k.bus from rfl, hread]
  rfl

theorem rts_of_noLimit (hlimit : k.bus.limit = none) (w : UInt16) :
    (rts w k).2.regs = { k.regs.release 4 with pc := k.bus.peekLong k.regs.sp } ∧
      (rts w k).2.bus = k.bus := by
  simp only [rts, popLong_of_noLimit hlimit]
  rw [Machine.regs_jump, Machine.bus_jump, Machine.regs_notify _ _ rfl, Machine.regs_notify _ _ rfl,
    Machine.bus_notify _ _ rfl, Machine.bus_notify _ _ rfl]
  exact ⟨rfl, rfl⟩

theorem rte_of_noLimit (hlimit : k.bus.limit = none) (hs : k.regs.status.s = true) (w : UInt16) :
    (rte w k).2.regs =
        { ((k.regs.release 2).release 4).loadStatus (k.bus.peekWord k.regs.sp) with
          pc := k.bus.peekLong (k.regs.sp + 2) } ∧
      (rte w k).2.bus = k.bus := by
  have hsp : (k.regs.release 2).sp = k.regs.sp + 2 := Registers.sp_setSp _ _
  have hpop := popLong_of_noLimit (k := k.mapRegs fun r => r.release 2) hlimit
  simp only [rte, ControlInstructions.privileged, hs, if_true, popWord_of_noLimit hlimit, hpop]
  rw [Machine.regs_jump, Machine.bus_jump, Machine.regs_notify _ _ rfl, Machine.regs_notify _ _ rfl,
    Machine.bus_notify _ _ rfl, Machine.bus_notify _ _ rfl, ← hsp]
  exact ⟨rfl, rfl⟩

/-- What a return restores. Only a return from an exception has the level read again, and has
tracing follow the trace bits. -/
structure Restores (l : Linkage) (m m' : Machine Ram σ) : Prop where
  regs : m.regs.Matches m'.regs
  pc : m'.regs.pc = l.returnAddress m
  interruptCheck : ¬ l.isCall → m'.regs.pending.interruptCheck = true
  traceArmed : ¬ l.isCall → m'.regs.pending.traceArmed = m.regs.status.traces

theorem leave_call {l : Linkage} (hl : l.isCall) (hm : m.bus.limit = none)
    (hk : k.bus.limit = none) (hregs : (l.enter m).regs.Matches k.regs)
    (hsaved : k.bus.bytes (l.base m) (l.saved m).length = l.saved m) :
    l.Restores m (l.leave k) ∧ (l.leave k).bus = k.bus := by
  obtain ⟨n, dest, pc, heq, -, hn, -⟩ := enter_eq_call hm hl
  obtain ⟨hbytes, hbase⟩ := saved_of_isCall hl m
  obtain ⟨hleave, hbus⟩ := rts_of_noLimit hk 0x4E75
  have hcall : l.leave k = (rts 0x4E75 k).2 := by
    cases l with
    | exception v => exact hl.elim
    | absolute => rfl
    | indirect opcode => rfl
  rw [heq, regs_call, hn] at hregs
  have hsp : k.regs.sp = l.base m := by
    rw [hregs.sp, hbase]
    exact Registers.sp_setSp _ _
  have hpc : k.bus.peekLong k.regs.sp = l.returnAddress m := by
    rw [hsp]
    apply Ram.peekLong_of_bytes
    rw [hbytes] at hsaved
    exact hsaved
  rw [hcall]
  refine ⟨⟨?_, ?_, fun h => absurd hl h, fun h => absurd hl h⟩, hbus⟩
  · rw [hleave]
    exact Registers.Matches.release (r := m.regs) hregs
  · rw [hleave]
    exact hpc

theorem leave_exception (hk : k.bus.limit = none) (hH : m.hooks.NoInterceptors)
    (hmask : m.regs.status.mask ≤ 7) (v : ExceptionVector)
    (hregs : ((exception v).enter m).regs.Matches k.regs)
    (hsaved : k.bus.bytes ((exception v).base m) ((exception v).saved m).length =
      (exception v).saved m) :
    (exception v).Restores m ((exception v).leave k) ∧ ((exception v).leave k).bus = k.bus := by
  have hread := (m.entry v).peek_of_bytes hsaved
  have hn : ((exception v).enter m).regs = m.regs.enter (m.entry v).sp _ :=
    Machine.regs_takeException hH v
  rw [hn] at hregs
  have hs : k.regs.status.s = true := by
    rw [hregs.status, Registers.status_enter]
    rfl
  have hsp : k.regs.sp = (m.entry v).sp := by
    rw [Registers.sp_eq, if_pos hs, hregs.supervisorSp, Registers.supervisorSp_enter]
  have hs' : (k.atStatus v).regs.status.s = true := by
    rw [k.status_atStatus v]
    exact hs
  have hlimit : (k.atStatus v).bus.limit = none := by
    rw [k.bus_atStatus v]
    exact hk
  obtain ⟨hregs', hbus⟩ := rte_of_noLimit hlimit hs' 0x4E73
  have hword : (k.atStatus v).bus.peekWord (k.atStatus v).regs.sp = m.regs.status.toWord := by
    rw [k.bus_atStatus, k.sp_atStatus, hsp]
    exact hread.1
  have hlong : (k.atStatus v).bus.peekLong ((k.atStatus v).regs.sp + 2) = m.regs.pc := by
    rw [k.bus_atStatus, k.sp_atStatus, hsp]
    exact hread.2
  rw [k.release_atStatus, hword, hlong] at hregs'
  have hleave : (exception v).leave k = (rte 0x4E73 (k.atStatus v)).2 := rfl
  have hfinal : (m.entry v).sp + v.frameSize = m.regs.supervisorSp := UInt32.sub_add_cancel ..
  rw [hleave, hbus, k.bus_atStatus]
  refine ⟨⟨?_, ?_, fun _ => ?_, fun _ => ?_⟩, rfl⟩
  · rw [hregs']
    exact hregs.resume hmask hfinal
  · rw [hregs']
    rfl
  · rw [hregs']
    exact Registers.interruptCheck_unpackStatus _
  · rw [hregs']
    exact (Registers.traceArmed_loadStatus ..).trans
      (congrArg Status.traces (Status.ofWord_toWord_of_mask hmask))

theorem leave_restores (hm : m.bus.limit = none) (hH : m.hooks.NoInterceptors)
    (hmask : m.regs.status.mask ≤ 7) (hk : k.bus.limit = none) (l : Linkage)
    (hregs : (l.enter m).regs.Matches k.regs)
    (hsaved : k.bus.bytes (l.base m) (l.saved m).length = l.saved m) :
    l.Restores m (l.leave k) ∧ (l.leave k).bus = k.bus := by
  by_cases hl : l.isCall
  · exact leave_call hl hm hk hregs hsaved
  · cases l with
    | exception v => exact leave_exception hk hH hmask v hregs hsaved
    | absolute => exact absurd trivial hl
    | indirect opcode => exact absurd trivial hl

theorem hooks_leave (k : Machine Ram σ) (l : Linkage) : (l.leave k).hooks = k.hooks := by
  have hrts : (rts 0x4E75 k).2.hooks = k.hooks :=
    (ControlInstructions.rts_evolves (P := fun _ => True) Registers.kept_true.toKeptByException
      (fun _ _ => trivial) k _).hooks
  have hrte : ∀ n : Machine Ram σ, (rte 0x4E73 n).2.hooks = n.hooks := fun n =>
    (ControlInstructions.rte_evolves (P := fun _ => True) Registers.kept_true
      (fun _ _ => trivial) (Registry.respects_true _) _).hooks
  cases l with
  | exception v =>
    rw [leave, hrte]
    split <;> rfl
  | absolute => exact hrts
  | indirect opcode => exact hrts

theorem mask_enter (hm : m.bus.limit = none) (hH : m.hooks.NoInterceptors) (l : Linkage) :
    (l.enter m).regs.status.mask = m.regs.status.mask := by
  by_cases hl : l.isCall
  · obtain ⟨n, dest, pc, heq, -, hn, -⟩ := enter_eq_call hm hl
    rw [heq, regs_call, hn]
    rfl
  · cases l with
    | exception v =>
      rw [enter, Machine.regs_takeException hH, Registers.status_enter]
      rfl
    | absolute => exact absurd trivial hl
    | indirect opcode => exact absurd trivial hl

end Linkage

/-- Calls and exceptions with what happens before they return, one after the other. -/
inductive Nesting where
  | done
  | inside (l : Linkage) (body rest : Nesting)

namespace Nesting

def run (m : Machine Ram σ) : Nesting → Machine Ram σ
  | .done => m
  | .inside l body rest => rest.run (l.leave (body.run (l.enter m)))

def frames (m : Machine Ram σ) : Nesting → List UInt32
  | .done => []
  | .inside l body rest =>
    l.frame m ++ body.frames (l.enter m) ++ rest.frames (l.leave (body.run (l.enter m)))

/-- The bytes of the frames in use, `live` among them, are always in distinct cells of a memory of
this size. -/
def Separate (size : Nat) (live : List UInt32) (m : Machine Ram σ) : Nesting → Prop
  | .done => True
  | .inside l body rest =>
    ((l.frame m ++ live).map fun x => x.toNat % size).Nodup ∧
      body.Separate size (l.frame m ++ live) (l.enter m) ∧
        rest.Separate size live (l.leave (body.run (l.enter m)))

instance Separate.decidable (size : Nat) (live : List UInt32) (m : Machine Ram σ) :
    (nesting : Nesting) → Decidable (nesting.Separate size live m)
  | .done => isTrue trivial
  | .inside l body rest =>
    have := decidable size (l.frame m ++ live) (l.enter m) body
    have := decidable size live (l.leave (body.run (l.enter m))) rest
    inferInstanceAs (Decidable (_ ∧ _ ∧ _))

/-- Every return restores what its call or exception found, and nothing is written but frames. -/
def Restored (m : Machine Ram σ) : Nesting → Prop
  | .done => True
  | .inside l body rest =>
    body.Restored (l.enter m) ∧ l.Restores m (l.leave (body.run (l.enter m))) ∧
      (∀ x, (∀ y ∈ l.frame m ++ body.frames (l.enter m),
        x.toNat % m.bus.size ≠ y.toNat % m.bus.size) →
          (l.leave (body.run (l.enter m))).bus.peek x = m.bus.peek x) ∧
        rest.Restored (l.leave (body.run (l.enter m)))

theorem frames_apart {size : Nat} {live : List UInt32} {m : Machine Ram σ} {nesting : Nesting}
    (h : nesting.Separate size live m) :
    ∀ x ∈ live, ∀ y ∈ nesting.frames m, x.toNat % size ≠ y.toNat % size := by
  induction nesting generalizing live m with
  | done =>
    intro x _ y hy
    cases hy
  | inside l body rest ihbody ihrest =>
    obtain ⟨hnodup, hbody, hrest⟩ := h
    intro x hx y hy
    rw [frames, List.mem_append, List.mem_append] at hy
    rcases hy with (hy | hy) | hy
    · rw [List.map_append, List.nodup_append] at hnodup
      exact (hnodup.2.2 _ (List.mem_map_of_mem hy) _ (List.mem_map_of_mem hx)).symm
    · exact ihbody hbody x (List.mem_append_right _ hx) y hy
    · exact ihrest hrest x hx y hy

structure Returned (nesting : Nesting) (m : Machine Ram σ) : Prop where
  returns : nesting.Restored m
  regs : m.regs.Matches (nesting.run m).regs
  hooks : (nesting.run m).hooks = m.hooks
  limit : (nesting.run m).bus.limit = none
  size : (nesting.run m).bus.size = m.bus.size
  memory : ∀ x, (∀ y ∈ nesting.frames m, x.toNat % m.bus.size ≠ y.toNat % m.bus.size) →
    (nesting.run m).bus.peek x = m.bus.peek x

theorem returned {live : List UInt32} {m : Machine Ram σ} {nesting : Nesting}
    (hlimit : m.bus.limit = none) (hH : m.hooks.NoInterceptors)
    (hmask : m.regs.status.mask ≤ 7) (hsep : nesting.Separate m.bus.size live m) :
    nesting.Returned m := by
  induction nesting generalizing live m with
  | done => exact ⟨trivial, .refl _, rfl, hlimit, rfl, fun _ _ => rfl⟩
  | inside l body rest ihbody ihrest =>
    obtain ⟨hnodup, hbody, hrest⟩ := hsep
    have hbus := Linkage.bus_enter hlimit hH l
    have hsize : (l.enter m).bus.size = m.bus.size := by rw [hbus, Ram.size_load]
    have hin := ihbody (by rw [hbus, Ram.limit_load]; exact hlimit)
      (by rw [Linkage.hooks_enter hlimit]; exact hH)
      (by rw [Linkage.mask_enter hlimit hH]; exact hmask) (by rw [hsize]; exact hbody)
    -- Nothing in the body writes to the frame, so the return finds there what was saved.
    have hsaved : (body.run (l.enter m)).bus.bytes (l.base m) (l.saved m).length = l.saved m := by
      have hnodup' := hnodup
      rw [List.map_append, List.nodup_append] at hnodup'
      rw [Ram.bytes_congr (r := (l.enter m).bus), hbus, Ram.bytes_load hnodup'.1]
      intro x hx
      apply hin.memory
      rw [hsize]
      exact frames_apart hbody x (List.mem_append_left _ hx)
    obtain ⟨hrestores, hback⟩ := Linkage.leave_restores hlimit hH hmask hin.limit l hin.regs hsaved
    have hsize' : (l.leave (body.run (l.enter m))).bus.size = m.bus.size := by
      rw [hback, hin.size, hsize]
    have hmemory : ∀ x, (∀ y ∈ l.frame m ++ body.frames (l.enter m),
        x.toNat % m.bus.size ≠ y.toNat % m.bus.size) →
          (l.leave (body.run (l.enter m))).bus.peek x = m.bus.peek x := by
      intro x hx
      rw [hback, hin.memory, hbus, Ram.peek_load]
      · intro y hy
        exact hx y (List.mem_append_left _ hy)
      · intro y hy
        rw [hsize]
        exact hx y (List.mem_append_right _ hy)
    have hhooks : (l.leave (body.run (l.enter m))).hooks = m.hooks := by
      rw [Linkage.hooks_leave, hin.hooks, Linkage.hooks_enter hlimit]
    have hout := ihrest (by rw [hback]; exact hin.limit) (by rw [hhooks]; exact hH)
      (by rw [hrestores.regs.status]; exact hmask) (by rw [hsize']; exact hrest)
    refine ⟨⟨hin.returns, hrestores, hmemory, hout.returns⟩, hrestores.regs.trans hout.regs,
      hout.hooks.trans hhooks, hout.limit, hout.size.trans hsize', ?_⟩
    intro x hx
    rw [frames] at hx
    refine (hout.memory x ?_).trans (hmemory x ?_)
    · intro y hy
      rw [hsize']
      exact hx y (List.mem_append_right _ hy)
    · intro y hy
      exact hx y (List.mem_append_left _ hy)

/-- Returns restore what the calls and exceptions found, however they are nested. -/
theorem restored {m : Machine Ram σ} (hlimit : m.bus.limit = none) (hH : m.hooks.NoInterceptors)
    (hmask : m.regs.status.mask ≤ 7) {live : List UInt32} {nesting : Nesting}
    (hsep : nesting.Separate m.bus.size live m) : nesting.Restored m :=
  (returned hlimit hH hmask hsep).returns

def caller : Machine Ram Unit :=
  let m := Machine.ofSettings Settings.default ((Ram.ofSize 256).loadWords 0x10 [0, 0x20]) ()
  ((m.setRegister .sp 0xC0).setRegister .sr 0x8000).setRegister .sp 0x60 |>.setRegister .pc 0x10

def called : Nesting :=
  .inside .absolute (.inside (.exception 33)
    (.inside (.indirect 0x4E90) .done (.inside (.exception 2) .done .done)) .done) .done

theorem restored_called :
    caller.bus.limit = none ∧ caller.hooks.NoInterceptors ∧ caller.regs.status.mask ≤ 7 ∧
      called.Separate caller.bus.size [] caller ∧ called.Restored caller := by
  have hH : caller.hooks.NoInterceptors := fun _ => rfl
  have hmask : caller.regs.status.mask ≤ 7 := by decide +kernel
  have hsep : called.Separate caller.bus.size [] caller := by decide +kernel
  exact ⟨rfl, hH, hmask, hsep, restored rfl hH hmask hsep⟩

end Nesting
end Mc68000
