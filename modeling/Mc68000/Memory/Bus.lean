import Mc68000.BigEndian
import Mc68000.ExceptionVector

/-!
# The memory bus

Memory has to answer byte accesses; wider ones are big-endian compositions of bytes unless the
memory says otherwise. An access that no device answers, or that is misaligned, is not an error of
the access: memory latches a fault and hands it over when it is asked, and the processor asks after
every opcode fetch, every opcode and every exception.
-/

namespace Mc68000

inductive Fault.Kind where
  | bus
  | address
  deriving DecidableEq, Repr

structure Fault where
  kind : Fault.Kind
  address : UInt32
  size : UInt8
  forRead : Bool
  deriving DecidableEq, Repr

def Fault.Kind.vector : Fault.Kind → ExceptionVector
  | .bus => ExceptionVector.busError
  | .address => ExceptionVector.addressError

class Bus (β : Type) where
  readByte : β → UInt32 → UInt8 × β
  writeByte : β → UInt32 → UInt8 → β
  readWord : β → UInt32 → UInt16 × β := fun b a =>
    let (high, b) := readByte b a
    let (low, b) := readByte b (a + 1)
    (BigEndian.word high low, b)
  readLong : β → UInt32 → UInt32 × β := fun b a =>
    let (high, b) := readWord b a
    let (low, b) := readWord b (a + 2)
    (BigEndian.long high low, b)
  writeWord : β → UInt32 → UInt16 → β := fun b a w =>
    writeByte (writeByte b a (BigEndian.highByte w)) (a + 1) (BigEndian.lowByte w)
  writeLong : β → UInt32 → UInt32 → β := fun b a l =>
    writeWord (writeWord b a (BigEndian.highWord l)) (a + 2) (BigEndian.lowWord l)
  /-- A long from the vector table, which is no memory traffic of the program and need not pass
  its access checks. -/
  readLongFullAccess : β → UInt32 → UInt32 × β := readLong
  /-- A program counter is about to be installed, whatever memory thinks of it; a memory that
  finds it invalid latches a fault. -/
  checkNewPc : β → UInt32 → β := fun b _ => b
  takeFault : β → Option Fault × β := fun b => (none, b)

end Mc68000
