import Mc68000.Memory.Ram
import Mathlib.Data.List.Nodup
import Mathlib.Data.Nat.ModEq

/-!
# Bytes of flat memory

Words, longs and frames are bytes at one address after the other. Addresses go on modulo `2 ^ 32`
and name the same cell modulo the size, so bytes of one value may fall into one cell, and what was
written shows as long as they do not.
-/

namespace Mc68000.Ram
variable {r : Ram}

/-- The addresses of `n` bytes from `a` on. -/
def span (a : UInt32) : Nat → List UInt32
  | 0 => []
  | n + 1 => a :: span (a + 1) n

def bytes (r : Ram) (a : UInt32) (n : Nat) : List UInt8 := (span a n).map r.peek

theorem length_span (a : UInt32) (n : Nat) : (span a n).length = n := by
  induction n generalizing a with
  | zero => rfl
  | succ n ih => rw [span, List.length_cons, ih]

theorem span_add (a : UInt32) (n k : Nat) :
    span a (n + k) = span a n ++ span (a + UInt32.ofNat n) k := by
  induction n generalizing a with
  | zero => simp [span]
  | succ n ih =>
    have hnext : a + 1 + UInt32.ofNat n = a + UInt32.ofNat (n + 1) := by
      rw [UInt32.ofNat_add, UInt32.add_comm (UInt32.ofNat n), UInt32.add_assoc]
      rfl
    rw [Nat.succ_add, span, ih, hnext]
    rfl

theorem bytes_add (r : Ram) (a : UInt32) (n k : Nat) :
    r.bytes a (n + k) = r.bytes a n ++ r.bytes (a + UInt32.ofNat n) k := by
  rw [bytes, span_add, List.map_append]
  rfl

theorem bytes_append_iff {a : UInt32} {bs cs : List UInt8} :
    r.bytes a (bs ++ cs).length = bs ++ cs ↔
      r.bytes a bs.length = bs ∧ r.bytes (a + UInt32.ofNat bs.length) cs.length = cs := by
  rw [List.length_append, bytes_add]
  constructor
  · intro h
    exact List.append_inj h (by rw [bytes, List.length_map, length_span])
  · rintro ⟨hbs, hcs⟩
    rw [hbs, hcs]

theorem span_eq_map (a : UInt32) (n : Nat) :
    span a n = (List.range n).map fun i => a + UInt32.ofNat i := by
  induction n with
  | zero => rfl
  | succ n ih => rw [span_add, ih, List.range_succ, List.map_append]; rfl

theorem bytes_congr {r' : Ram} {a : UInt32} {n : Nat}
    (h : ∀ x ∈ span a n, r'.peek x = r.peek x) : r'.bytes a n = r.bytes a n :=
  List.map_congr_left h

/-- Neither the end of the addresses nor the end of the memory brings two of a few bytes into one
cell, as both are powers of two. -/
theorem nodup_cells {size n : Nat} (hsize : size.isPowerOfTwo) (hn : n ≤ size) (hn' : n ≤ 2 ^ 32)
    (a : UInt32) : ((span a n).map fun x => x.toNat % size).Nodup := by
  obtain ⟨k, rfl⟩ := hsize
  rw [span_eq_map, List.map_map]
  refine List.Nodup.map_on ?_ List.nodup_range
  intro i hi j hj hij
  rw [List.mem_range] at hi hj
  -- Both reductions are one reduction, by the smaller of the two powers.
  have hmod : ∀ x : Nat, x % 2 ^ 32 % 2 ^ k = x % 2 ^ min 32 k := by
    intro x
    rcases Nat.le_total k 32 with hk | hk
    · rw [Nat.min_eq_right hk, Nat.mod_mod_of_dvd x (Nat.pow_dvd_pow 2 hk)]
    · have hlt : x % 2 ^ 32 < 2 ^ k :=
        (Nat.mod_lt x (by decide)).trans_le (Nat.pow_le_pow_right (by decide) hk)
      rw [Nat.min_eq_left hk, Nat.mod_eq_of_lt hlt]
  have hcell : ∀ i, (a + UInt32.ofNat i).toNat % 2 ^ k = (a.toNat + i) % 2 ^ min 32 k := by
    intro i
    rw [UInt32.toNat_add, UInt32.toNat_ofNat', Nat.add_mod_mod, hmod]
  have heq : Nat.ModEq (2 ^ min 32 k) (a.toNat + i) (a.toNat + j) := by
    rw [Nat.ModEq, ← hcell, ← hcell]
    exact hij
  have hle : n ≤ 2 ^ min 32 k := by
    rcases min_choice 32 k with h | h <;> rw [h] <;> assumption
  exact (Nat.ModEq.add_left_cancel' _ heq).eq_of_lt_of_lt (hi.trans_le hle) (hj.trans_le hle)

theorem limit_load (r : Ram) (a : UInt32) (bs : List UInt8) : (r.load a bs).limit = r.limit := by
  induction bs generalizing r a with
  | nil => rfl
  | cons b bs ih =>
    rw [load, ih]
    rfl

theorem load_append (r : Ram) (a : UInt32) (bs cs : List UInt8) :
    r.load a (bs ++ cs) = (r.load a bs).load (a + UInt32.ofNat bs.length) cs := by
  induction bs generalizing r a with
  | nil => simp [load]
  | cons b bs ih =>
    have hnext : a + 1 + UInt32.ofNat bs.length = a + UInt32.ofNat (bs.length + 1) := by
      rw [UInt32.ofNat_add, UInt32.add_comm (UInt32.ofNat bs.length), UInt32.add_assoc]
      rfl
    rw [List.cons_append, load, ih, hnext]
    rfl

theorem peek_load {a y : UInt32} {bs : List UInt8}
    (h : ∀ x ∈ span a bs.length, y.toNat % r.size ≠ x.toNat % r.size) :
    (r.load a bs).peek y = r.peek y := by
  induction bs generalizing r a with
  | nil => rfl
  | cons b bs ih =>
    rw [List.length_cons, span] at h
    rw [load, ih, peek_poke, if_neg (h a (List.mem_cons_self ..))]
    intro x hx
    rw [size_poke]
    exact h x (List.mem_cons_of_mem _ hx)

theorem bytes_load {a : UInt32} {bs : List UInt8}
    (h : ((span a bs.length).map fun x => x.toNat % r.size).Nodup) :
    (r.load a bs).bytes a bs.length = bs := by
  induction bs generalizing r a with
  | nil => rfl
  | cons b bs ih =>
    rw [List.length_cons, span, List.map_cons, List.nodup_cons] at h
    obtain ⟨hfirst, hrest⟩ := h
    have hkept : ((r.poke a b).load (a + 1) bs).peek a = b := by
      rw [peek_load, peek_poke, if_pos rfl]
      intro x hx heq
      rw [size_poke] at heq
      exact hfirst (List.mem_map.mpr ⟨x, hx, heq.symm⟩)
    have htail := ih (r := r.poke a b) (a := a + 1) (by rwa [size_poke])
    rw [List.length_cons, load, bytes, span, List.map_cons, hkept]
    exact congrArg _ htail

theorem peekWord_of_bytes {a : UInt32} {w : UInt16}
    (h : r.bytes a 2 = BigEndian.wordBytes w) : r.peekWord a = w := by
  simp only [bytes, span, List.map_cons, List.map_nil, BigEndian.wordBytes, List.cons.injEq] at h
  rw [peekWord, h.1, h.2.1, BigEndian.word_highByte_lowByte]

theorem peekLong_of_bytes {a : UInt32} {l : UInt32}
    (h : r.bytes a 4 = BigEndian.longBytes l) : r.peekLong a = l := by
  rw [show 4 = 2 + 2 from rfl, bytes_add, BigEndian.longBytes] at h
  obtain ⟨hhigh, hlow⟩ := List.append_inj h rfl
  rw [peekLong, peekWord_of_bytes hhigh]
  rw [show a + 2 = a + UInt32.ofNat 2 from rfl, peekWord_of_bytes hlow,
    BigEndian.long_highWord_lowWord]

theorem peek_of_bytes {a : UInt32} {before : List UInt8} {w : UInt16} {l : UInt32}
    (h : r.bytes a (before.length + (2 + 4)) =
      before ++ (BigEndian.wordBytes w ++ BigEndian.longBytes l)) :
    r.peekWord (a + UInt32.ofNat before.length) = w ∧
      r.peekLong (a + UInt32.ofNat before.length + 2) = l := by
  have hlength : before.length + (2 + 4) =
      (before ++ (BigEndian.wordBytes w ++ BigEndian.longBytes l)).length := by
    rw [List.length_append]
    rfl
  rw [hlength, bytes_append_iff, bytes_append_iff] at h
  exact ⟨peekWord_of_bytes h.2.1, peekLong_of_bytes h.2.2⟩

section
variable (h : r.limit = none)
include h

theorem isUnmapped_of_noLimit (a : UInt32) : r.isUnmapped a = false := by
  rw [isUnmapped, h]

theorem readByte_of_noLimit (a : UInt32) : r.readByte a = (r.peek a, r) := by
  simp [readByte, isUnmapped_of_noLimit h]

theorem writeByte_of_noLimit (a : UInt32) (b : UInt8) : r.writeByte a b = r.poke a b := by
  simp [writeByte, isUnmapped_of_noLimit h]

theorem readWord_of_noLimit (a : UInt32) : Bus.readWord r a = (r.peekWord a, r) := by
  simp only [Bus.readWord, readByte_of_noLimit h]
  rfl

theorem readLong_of_noLimit (a : UInt32) : Bus.readLong r a = (r.peekLong a, r) := by
  simp only [Bus.readLong, readByte_of_noLimit h]
  rfl

theorem writeWord_of_noLimit (a : UInt32) (w : UInt16) :
    Bus.writeWord r a w = r.load a (BigEndian.wordBytes w) := by
  simp only [Bus.writeWord, writeByte_of_noLimit h]
  exact writeByte_of_noLimit (r := r.poke a _) h _ _

theorem writeLong_of_noLimit (a : UInt32) (l : UInt32) :
    Bus.writeLong r a l = r.load a (BigEndian.longBytes l) := by
  have hhigh := writeWord_of_noLimit h a (BigEndian.highWord l)
  have hlow := writeWord_of_noLimit (r := r.load a (BigEndian.wordBytes (BigEndian.highWord l)))
    ((limit_load ..).trans h) (a + 2) (BigEndian.lowWord l)
  rw [BigEndian.longBytes, load_append, ← hhigh]
  rw [← hhigh] at hlow
  exact hlow

end

end Mc68000.Ram
