import Mc68000.Proofs.Preservation

/-!
# What an opcode leaves of the counters

Cycles are charged by the loop and not by an instruction, and the ticks of housekeeping are counted
by the loop alone: neither instructions nor exceptions nor hooks touch the two counters.
-/

namespace Mc68000

namespace Machine
variable {β σ : Type} {m m₁ m₂ : Machine β σ}

structure SameCounts (m m' : Machine β σ) : Prop where
  cycles : m'.cycles = m.cycles
  slowCounter : m'.slowCounter = m.slowCounter

namespace SameCounts

theorem refl (m : Machine β σ) : SameCounts m m := ⟨rfl, rfl⟩

theorem trans (h : SameCounts m m₁) (h₁ : SameCounts m₁ m₂) : SameCounts m m₂ :=
  ⟨h₁.cycles.trans h.cycles, h₁.slowCounter.trans h.slowCounter⟩

theorem kept : KeptByInstructions (SameCounts (β := β) (σ := σ)) where
  refl := refl
  trans := trans
  scene _ _ := ⟨rfl, rfl⟩
  log _ _ _ := ⟨rfl, rfl⟩
  lastFault _ _ := ⟨rfl, rfl⟩
  record _ _ := ⟨rfl, rfl⟩
  frame _ := ⟨rfl, rfl⟩

end SameCounts

variable [Bus β]

theorem slowCounter_executeOpcode (m : Machine β σ) :
    (m.executeOpcode ControlInstructions.table).slowCounter = m.slowCounter := by
  have hfetch : SameCounts m m.fetchOpcode.2.takeFault.2 := ⟨rfl, rfl⟩
  rw [executeOpcode_eq]
  split
  · have hback : SameCounts m (m.fetchOpcode.2.takeFault.2.setPc
        (m.fetchOpcode.2.takeFault.2.regs.pc - 2)) := ⟨rfl, rfl⟩
    exact (hback.trans (SameCounts.kept.raiseFault _ _)).slowCounter
  · have hdone := hfetch.trans
      (ControlInstructions.dispatch_kept SameCounts.kept m.fetchOpcode.1 _)
    exact (SameCounts.kept.deliverFault _).slowCounter.trans hdone.slowCounter

end Machine
end Mc68000
