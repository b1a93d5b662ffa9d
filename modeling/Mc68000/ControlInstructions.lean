import Mc68000.OpcodeTable

/-!
# System control instructions

The instructions that deal with the processor itself: stopping it, entering and leaving handlers,
subroutine linkage and loading SR. An instruction set is built by assigning further handlers to the
same table.
-/

namespace Mc68000.ControlInstructions
variable {β σ : Type} [Bus β]

def privileged (h : Handler β σ) : Handler β σ := fun opcode m =>
  if m.regs.status.s then h opcode m
  else (34, (m.setPc (m.regs.pc - 2)).takeException ExceptionVector.privilegeViolation)

def nop : Handler β σ := fun _ m => (4, m)

def stop : Handler β σ := privileged fun _ m =>
  let (w, m) := m.fetchWord
  (4, m.mapRegs fun r =>
    { r.loadStatus w with stopped := true }.mapPending fun p => { p with stop := true })

def rte : Handler β σ := privileged fun _ m =>
  let (sr, m) := m.popWord
  let (dest, m) := m.popLong
  let m := (m.mapRegs fun r => r.loadStatus sr).notify (.newSp .incremented)
  (20, (m.notify (.rte dest)).jump dest)

def rts : Handler β σ := fun _ m =>
  let (dest, m) := m.popLong
  (16, ((m.notify (.newSp .incremented)).notify (.rts dest)).jump dest)

def trap : Handler β σ := fun opcode m =>
  (34, m.takeException (ExceptionVector.trapBase + (opcode &&& 0xF).toUInt8))

def call (m : Machine β σ) (returnAddress dest : UInt32) : Machine β σ :=
  ((m.pushLong returnAddress).notify (.newSp .decremented)).jump dest

def jsrAbsolute : Handler β σ := fun _ m =>
  let (dest, m) := m.fetchLong
  let ret := m.regs.pc
  (20, call (m.notify (.jsr ret dest)) ret dest)

def jsrIndirect : Handler β σ := fun opcode m =>
  let dest := m.regs.a[Register.place opcode.toUInt8]
  let ret := m.regs.pc
  (16, call (m.notify (.jsrIndirect ret dest)) ret dest)

/-- The registers after a LINK that has room for the frame pointer on the stack already: the frame
pointer is the stack pointer, which then moves by the displacement. -/
def linkFrame (r : Registers) (place : Fin 8) (size : Int32) : Registers :=
  let r := { r with a := r.a.set place r.sp }
  r.setSp (r.sp + size.toUInt32)

/-- LINK: save an address register, make it the frame pointer and open a frame. A7 is saved as it is
with the room for it already made. -/
def link : Handler β σ := fun opcode m =>
  let place := Register.place opcode.toUInt8
  let (w, m) := m.fetchWord
  let size := w.toInt16.toInt32
  let m := m.mapRegs fun r => r.reserve 4
  let m := (m.writeLong m.regs.sp m.regs.a[place]).mapRegs fun r => linkFrame r place size
  (16, (m.notify (.link size)).notify (.newSp .decremented))

def moveToSr : Handler β σ := privileged fun _ m =>
  let (w, m) := m.fetchWord
  (12, m.mapRegs fun r => r.loadStatus w)

def install (t : OpcodeTable β σ) : OpcodeTable β σ :=
  t.assign 0x4E71 nop
    |>.assign 0x4E72 stop
    |>.assign 0x4E73 rte
    |>.assign 0x4E75 rts
    |>.assignMatching 0xFFF0 0x4E40 trap
    |>.assign 0x4AFC OpcodeTable.illegalOpcode
    |>.assign 0x4EB9 jsrAbsolute
    |>.assignMatching 0xFFF8 0x4E90 jsrIndirect
    |>.assignMatching 0xFFF8 0x4E50 link
    |>.assign 0x46FC moveToSr

def table : OpcodeTable β σ := install .empty

end Mc68000.ControlInstructions
