/-!
# Bounded history

A history keeps the newest entries up to its capacity. With capacity zero it records nothing.
-/

namespace Mc68000

/-- The newest entries, newest first, never more than the capacity. -/
structure History (α : Type) where
  capacity : Nat
  entries : List α
  length_le : entries.length ≤ capacity

namespace History
variable {α : Type}

def ofCapacity (capacity : Nat) : History α := ⟨capacity, [], Nat.zero_le _⟩

/-- What stays when another entry comes: a full history gives up its oldest one. -/
def kept (h : History α) : List α :=
  if h.entries.length = h.capacity then h.entries.dropLast else h.entries

theorem length_kept (h : History α) (hcapacity : h.capacity ≠ 0) :
    h.kept.length < h.capacity := by
  have hle := h.length_le
  unfold kept
  split
  · rw [List.length_dropLast]
    omega
  · omega

def push (h : History α) (a : α) : History α :=
  if hcapacity : h.capacity = 0 then h
  else ⟨h.capacity, a :: h.kept, h.length_kept hcapacity⟩

theorem kept_eq_take (h : History α) {c : Nat} (hcapacity : h.capacity = c + 1) :
    h.kept = h.entries.take c := by
  have hle := h.length_le
  unfold kept
  split
  case isTrue hfull => rw [List.dropLast_eq_take, hfull, hcapacity, Nat.add_sub_cancel]
  case isFalse hroom => rw [List.take_of_length_le (by omega)]

theorem capacity_push (h : History α) (a : α) : (h.push a).capacity = h.capacity := by
  unfold push
  split <;> rfl

theorem entries_push (h : History α) (a : α) :
    (h.push a).entries = (a :: h.entries).take h.capacity := by
  have hle := h.length_le
  unfold push
  split
  case isTrue hzero =>
    rw [hzero, List.take_zero]
    exact List.eq_nil_of_length_eq_zero (by omega)
  case isFalse hcapacity =>
    obtain ⟨c, hc⟩ := Nat.exists_eq_succ_of_ne_zero hcapacity
    show a :: h.kept = (a :: h.entries).take h.capacity
    rw [hc, List.take_succ_cons, h.kept_eq_take hc]

def clear (h : History α) : History α := ofCapacity h.capacity

def length (h : History α) : Nat := h.entries.length

def isEmpty (h : History α) : Bool := h.entries.isEmpty

def isEnabled (h : History α) : Bool := 0 < h.capacity

end History
end Mc68000
