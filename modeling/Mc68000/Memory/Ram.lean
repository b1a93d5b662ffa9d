import Mc68000.Memory.Bus

/-!
# Flat memory

Memory from address zero that repeats on its size, which is a power of two. Addresses at or above a
limit can be left unmapped: a read there gives zero, a write is dropped, and the first such access
since the last look is latched as a fault. Loading and peeking go past the limit and the latch.
-/

namespace Mc68000

structure Ram where
  cells : Array UInt8
  limit : Option UInt32
  latch : Option Fault
  cells_size_pos : 0 < cells.size

namespace Ram

/-- The least power of two that is at least 2 and at least `size`: one more binary digit than the
largest number below both has. -/
def capacity (size : Nat) : Nat := 1 <<< ((max size 2 - 1).log2 + 1)

theorem capacity_pos (size : Nat) : 0 < capacity size := by
  rw [capacity, Nat.shiftLeft_eq, Nat.one_mul]
  exact Nat.two_pow_pos _

def ofSize (size : Nat) : Ram where
  cells := Array.replicate (capacity size) 0
  limit := none
  latch := none
  cells_size_pos := by simpa using capacity_pos size

def unmappedFrom (r : Ram) (limit : UInt32) : Ram := { r with limit := some limit }

def size (r : Ram) : Nat := r.cells.size

def cell (r : Ram) (a : UInt32) : Fin r.cells.size :=
  ⟨a.toNat % r.cells.size, Nat.mod_lt _ r.cells_size_pos⟩

def peek (r : Ram) (a : UInt32) : UInt8 := r.cells[r.cell a]

def peekWord (r : Ram) (a : UInt32) : UInt16 := BigEndian.word (r.peek a) (r.peek (a + 1))

def peekLong (r : Ram) (a : UInt32) : UInt32 :=
  BigEndian.long (r.peekWord a) (r.peekWord (a + 2))

def poke (r : Ram) (a : UInt32) (b : UInt8) : Ram where
  cells := r.cells.set (r.cell a) b
  limit := r.limit
  latch := r.latch
  cells_size_pos := by simpa using r.cells_size_pos

def load (r : Ram) (a : UInt32) : List UInt8 → Ram
  | [] => r
  | b :: bs => (r.poke a b).load (a + 1) bs

def loadWords (r : Ram) (a : UInt32) (words : List UInt16) : Ram :=
  r.load a (words.flatMap BigEndian.wordBytes)

def pokeLong (r : Ram) (a : UInt32) (l : UInt32) : Ram := r.load a (BigEndian.longBytes l)

def isUnmapped (r : Ram) (a : UInt32) : Bool :=
  match r.limit with
  | none => false
  | some limit => limit ≤ a

/-- Latch the failed access of one byte, unless an earlier one is waiting. -/
def refuse (r : Ram) (a : UInt32) (forRead : Bool) : Ram :=
  { r with latch := r.latch <|> some ⟨.bus, a, 1, forRead⟩ }

def readByte (r : Ram) (a : UInt32) : UInt8 × Ram :=
  if r.isUnmapped a then (0, r.refuse a true) else (r.peek a, r)

def writeByte (r : Ram) (a : UInt32) (b : UInt8) : Ram :=
  if r.isUnmapped a then r.refuse a false else r.poke a b

instance : Bus Ram where
  readByte := readByte
  writeByte := writeByte
  takeFault r := (r.latch, { r with latch := none })

theorem size_poke (r : Ram) (a : UInt32) (b : UInt8) : (r.poke a b).size = r.size := by
  simp [size, poke]

theorem peek_poke (r : Ram) (a x : UInt32) (b : UInt8) :
    (r.poke a b).peek x = if x.toNat % r.size = a.toNat % r.size then b else r.peek x := by
  simp only [peek, poke, cell, size, Array.size_set, Fin.getElem_fin]
  rw [Array.getElem_set]
  simp only [eq_comm]

theorem size_load (r : Ram) (a : UInt32) (bs : List UInt8) : (r.load a bs).size = r.size := by
  induction bs generalizing r a with
  | nil => rfl
  | cons b bs ih => rw [load, ih, size_poke]

theorem le_capacity (n : Nat) : n ≤ capacity n := by
  have h : max n 2 - 1 < 2 ^ ((max n 2 - 1).log2 + 1) := Nat.lt_log2_self
  rw [capacity, Nat.shiftLeft_eq, Nat.one_mul]
  omega

theorem isPowerOfTwo_capacity (n : Nat) : (capacity n).isPowerOfTwo :=
  ⟨_, by rw [capacity, Nat.shiftLeft_eq, Nat.one_mul]⟩

theorem capacity_le {n p : Nat} (hp : p.isPowerOfTwo) (hn : n ≤ p) (h2 : 2 ≤ p) :
    capacity n ≤ p := by
  obtain ⟨k, rfl⟩ := hp
  have hlt : max n 2 - 1 < 2 ^ k := by omega
  have : (max n 2 - 1).log2 < k := (Nat.log2_lt (by omega)).2 hlt
  rw [capacity, Nat.shiftLeft_eq, Nat.one_mul]
  exact Nat.pow_le_pow_right (by decide) this

end Ram
end Mc68000
