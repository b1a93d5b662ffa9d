import Mc68000.Machine.Exception

/-!
# The opcode table

A table says what each of the 65536 opcode words does. A word that nothing was assigned to is
illegal. Of several assignments that cover a word the last one counts.
-/

namespace Mc68000

/-- Executes the instruction of an opcode word; the program counter is past the word. Gives the cost
in cycles. -/
abbrev Handler (β σ : Type) := UInt16 → Machine β σ → UInt32 × Machine β σ

structure OpcodeTable (β σ : Type) where
  assignment : UInt16 → Option (Handler β σ)

namespace OpcodeTable
variable {β σ : Type}

def empty : OpcodeTable β σ := ⟨fun _ => none⟩

def assign (t : OpcodeTable β σ) (opcode : UInt16) (h : Handler β σ) : OpcodeTable β σ :=
  ⟨fun w => if w = opcode then some h else t.assignment w⟩

/-- Assign a handler to every word that is `pattern` under `mask`; a pattern with a bit outside the
mask covers no word. -/
def assignMatching (t : OpcodeTable β σ) (mask pattern : UInt16) (h : Handler β σ) :
    OpcodeTable β σ :=
  ⟨fun w => if w &&& mask = pattern then some h else t.assignment w⟩

def assigned (t : OpcodeTable β σ) : Nat :=
  (List.range 0x10000).countP fun n => (t.assignment n.toUInt16).isSome

def illegalCycles : UInt32 := 34

variable [Bus β]

def illegalOpcode : Handler β σ := fun opcode m =>
  (illegalCycles, (m.setPc (m.regs.pc - 2)).takeIllegal opcode)

def handler (t : OpcodeTable β σ) (opcode : UInt16) : Handler β σ :=
  (t.assignment opcode).getD illegalOpcode

def dispatch (t : OpcodeTable β σ) (opcode : UInt16) (m : Machine β σ) : UInt32 × Machine β σ :=
  t.handler opcode opcode m

end OpcodeTable
end Mc68000
