/-!
# Pending conditions

What takes the processor off the straight path from one opcode to the next. The execution loop looks
at single conditions only when some bit of the word is set, so a set bit always leads to a special
pass before the next fetch.
-/

namespace Mc68000

def Pending.known : UInt32 := 0x400001DA

structure Pending where
  stop : Bool := false
  interruptCheck : Bool := false
  breakRequest : Bool := false
  traceArmed : Bool := false
  /-- Take the trace exception in the next pass. -/
  traceDue : Bool := false
  /-- Look for an interrupt to deliver in the next pass. -/
  interruptDue : Bool := false
  endOfCycle : Bool := false
  /-- Bits without a meaning; they are kept, and they count as set. -/
  spare : UInt32 := 0
  spare_known : spare &&& Pending.known = 0 := by decide
  deriving DecidableEq

namespace Pending

def none : Pending := {}

private theorem spare_ofWord (w : UInt32) : (w &&& ~~~known) &&& known = 0 := by
  rw [UInt32.and_assoc, show ~~~known &&& known = 0 by decide, UInt32.and_zero]

def ofWord (w : UInt32) : Pending where
  stop := w &&& 0x2 != 0
  interruptCheck := w &&& 0x8 != 0
  breakRequest := w &&& 0x10 != 0
  traceArmed := w &&& 0x40 != 0
  traceDue := w &&& 0x80 != 0
  interruptDue := w &&& 0x100 != 0
  endOfCycle := w &&& 0x40000000 != 0
  spare := w &&& ~~~known
  spare_known := spare_ofWord w

def bit (present : Bool) (weight : UInt32) : UInt32 := if present then weight else 0

def toWord (p : Pending) : UInt32 :=
  bit p.stop 0x2 ||| bit p.interruptCheck 0x8 ||| bit p.breakRequest 0x10 |||
    bit p.traceArmed 0x40 ||| bit p.traceDue 0x80 ||| bit p.interruptDue 0x100 |||
    bit p.endOfCycle 0x40000000 ||| p.spare

/-- No bit at all is set, named or not. -/
def isEmpty (p : Pending) : Bool :=
  !(p.stop || p.interruptCheck || p.breakRequest || p.traceArmed || p.traceDue ||
    p.interruptDue || p.endOfCycle) && p.spare == 0

def raise (p : Pending) (w : UInt32) : Pending := ofWord (p.toWord ||| w)

def lower (p : Pending) (w : UInt32) : Pending := ofWord (p.toWord &&& ~~~w)

def withoutTrace (p : Pending) : Pending := { p with traceArmed := false, traceDue := false }

def withoutInterrupt (p : Pending) : Pending :=
  { p with interruptCheck := false, interruptDue := false }

end Pending
end Mc68000
