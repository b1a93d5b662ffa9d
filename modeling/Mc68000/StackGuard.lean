/-!
# The guard of the kernel stack

A session may name a lowest address for the kernel stack, and one to warn at. The guard looks at the
stack pointer after every exception frame and remembers, until it is told to forget, that it was
below. A bound of zero is no bound.
-/

namespace Mc68000

structure StackGuard where
  lowWarn : UInt32
  low : UInt32
  overflowed : Bool := false
  warned : Bool := false
  deriving DecidableEq, Repr

namespace StackGuard

def off : StackGuard := ⟨0, 0, false, false⟩

def warnsAt (g : StackGuard) (sp : UInt32) : Bool := g.lowWarn != 0 && sp < g.lowWarn && !g.warned

/-- A frame that ends at `sp` overflows the stack, for the first time since the guard was
cleared. -/
def overflowsAt (g : StackGuard) (sp : UInt32) : Bool := g.low != 0 && sp < g.low && !g.overflowed

def clear (g : StackGuard) : StackGuard := { g with overflowed := false, warned := false }

end StackGuard
end Mc68000
