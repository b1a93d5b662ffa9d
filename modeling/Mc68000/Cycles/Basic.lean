/-!
# Cycle counts

A cycle is a unit of pacing for whoever schedules the processor. The count has 32 bits and wraps, so
only the distance between two readings means something.
-/

namespace Mc68000

structure Cycles where
  count : UInt32
  deriving DecidableEq, Repr

namespace Cycles

def zero : Cycles := ⟨0⟩

def add (c : Cycles) (n : UInt32) : Cycles := ⟨c.count + n⟩

/-- Cycles from `earlier` to `c`, right as long as the counter wrapped at most once. -/
def since (c earlier : Cycles) : UInt32 := c.count - earlier.count

def order (a b : Cycles) : Ordering := compare a.count b.count

end Cycles
end Mc68000
