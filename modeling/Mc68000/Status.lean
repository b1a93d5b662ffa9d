/-!
# The status word

The processor keeps its status broken out into fields. The sixteen-bit word is built from them when
something needs all bits at once: an exception frame, a register snapshot, a move to or from SR.
Bits 5 to 7 and 11 carry nothing: they are dropped on the way in and zero on the way out. Apart from
them, and from a mask above 7, the two forms say the same (`toWord_ofWord`, `ofWord_toWord`).
-/

namespace Mc68000

structure Status where
  /-- Trace after every instruction. -/
  t1 : Bool
  /-- Trace on a change of flow. -/
  t0 : Bool
  s : Bool
  m : Bool
  /-- Interrupt mask; the word has room for its low three bits. -/
  mask : UInt8
  x : Bool
  n : Bool
  z : Bool
  v : Bool
  c : Bool
  deriving DecidableEq, Repr

namespace Status

def modelled : UInt16 := 0xF71F

def conditions : UInt16 := 0x001F

def maskPlace : UInt16 := 0x0700

def maskOf (w : UInt16) : UInt8 := ((w &&& maskPlace) >>> 8).toUInt8

def maskBits (mask : UInt8) : UInt16 := (mask &&& 7).toUInt16 <<< 8

def bit (present : Bool) (weight : UInt16) : UInt16 := if present then weight else 0

def ofWord (w : UInt16) : Status where
  t1 := w &&& 0x8000 != 0
  t0 := w &&& 0x4000 != 0
  s := w &&& 0x2000 != 0
  m := w &&& 0x1000 != 0
  mask := maskOf w
  x := w &&& 0x0010 != 0
  n := w &&& 0x0008 != 0
  z := w &&& 0x0004 != 0
  v := w &&& 0x0002 != 0
  c := w &&& 0x0001 != 0

def toWord (f : Status) : UInt16 :=
  bit f.t1 0x8000 ||| bit f.t0 0x4000 ||| bit f.s 0x2000 ||| bit f.m 0x1000 ||| maskBits f.mask |||
    bit f.x 0x0010 ||| bit f.n 0x0008 ||| bit f.z 0x0004 ||| bit f.v 0x0002 ||| bit f.c 0x0001

def ccr (f : Status) : UInt8 := (f.toWord &&& conditions).toUInt8

def traces (f : Status) : Bool := f.t1 || f.t0

def reset : Status := ofWord 0x2700

theorem and_or (w a b : UInt16) : w &&& (a ||| b) = w &&& a ||| w &&& b := by
  apply UInt16.eq_of_toBitVec_eq
  apply BitVec.eq_of_getLsbD_eq
  intro i _
  simp [Bool.and_or_distrib_left]

theorem or_and (a b w : UInt16) : (a ||| b) &&& w = a &&& w ||| b &&& w := by
  rw [UInt16.and_comm, and_or, UInt16.and_comm w a, UInt16.and_comm w b]

theorem bit_and_self (b : Bool) (k : UInt16) : bit b k &&& k = bit b k := by
  cases b <;> simp [bit]

theorem bit_and_of (b : Bool) {k w : UInt16} (h : k &&& w = 0) : bit b k &&& w = 0 := by
  cases b <;> simp [bit, h]

theorem bit_bne_zero (b : Bool) {k : UInt16} (hk : k ≠ 0) : (bit b k != 0) = b := by
  cases b <;> simp [bit, hk]

theorem bit_test (w k : UInt16) (i : Nat) (hk : k.toBitVec = BitVec.twoPow 16 i) :
    bit (w &&& k != 0) k = w &&& k := by
  have h : (w &&& k).toBitVec = if w.toBitVec.getLsbD i then k.toBitVec else 0#16 := by
    rw [UInt16.toBitVec_and, hk, BitVec.and_twoPow]
  cases hb : w.toBitVec.getLsbD i with
  | false =>
    have h0 : w &&& k = 0 := UInt16.eq_of_toBitVec_eq (by rw [h, hb]; rfl)
    rw [h0]
    rfl
  | true =>
    have h1 : w &&& k = k := UInt16.eq_of_toBitVec_eq (by rw [h, hb]; rfl)
    rw [h1]
    by_cases hz : k = 0
    · rw [hz]; rfl
    · simp [bit, hz]

theorem toNat_maskBits (mask : UInt8) : (maskBits mask).toNat = 256 * (mask.toNat % 8) := by
  have h : mask.toNat &&& 7 = mask.toNat % 8 := Nat.and_two_pow_sub_one_eq_mod mask.toNat 3
  have := Nat.mod_lt mask.toNat (show 0 < 8 by decide)
  rw [maskBits, UInt16.toNat_shiftLeft]
  simp only [UInt8.toNat_toUInt16, UInt8.toNat_and]
  rw [show (7 : UInt8).toNat = 7 from rfl, h, show (8 : UInt16).toNat % 16 = 8 from rfl,
    Nat.shiftLeft_eq]
  omega

theorem maskBits_and_maskPlace (mask : UInt8) : maskBits mask &&& maskPlace = maskBits mask := by
  have h : ∀ n : Fin 8, UInt16.ofNat (256 * n) &&& maskPlace = UInt16.ofNat (256 * n) := by decide
  have e : maskBits mask = UInt16.ofNat (256 * (mask.toNat % 8)) := by
    rw [← toNat_maskBits]
    simp
  rw [e]
  exact h ⟨mask.toNat % 8, Nat.mod_lt _ (by decide)⟩

theorem maskBits_and {k : UInt16} (mask : UInt8) (h : maskPlace &&& k = 0) :
    maskBits mask &&& k = 0 := by
  rw [← maskBits_and_maskPlace, UInt16.and_assoc, h, UInt16.and_zero]

theorem toNat_maskOf (w : UInt16) : (maskOf w).toNat = w.toNat / 256 % 8 := by
  have h : (w &&& maskPlace).toNat >>> 8 = w.toNat / 256 % 8 := by
    rw [UInt16.toNat_and, Nat.shiftRight_and_distrib, Nat.shiftRight_eq_div_pow]
    exact Nat.and_two_pow_sub_one_eq_mod _ 3
  simp only [maskOf, UInt16.toNat_toUInt8, UInt16.toNat_shiftRight]
  rw [show (8 : UInt16).toNat % 16 = 8 from rfl, h]
  omega

theorem maskOf_maskBits (mask : UInt8) : maskOf (maskBits mask) = mask &&& 7 := by
  have h : mask.toNat &&& 7 = mask.toNat % 8 := Nat.and_two_pow_sub_one_eq_mod mask.toNat 3
  rw [← UInt8.toNat_inj, toNat_maskOf, toNat_maskBits, UInt8.toNat_and,
    show (7 : UInt8).toNat = 7 from rfl, h]
  omega

theorem maskBits_maskOf (w : UInt16) : maskBits (maskOf w) = w &&& maskPlace := by
  have h : w.toNat &&& 0x0700 = 256 * (w.toNat / 256 % 8) := by
    rw [show 256 * (w.toNat / 256 % 8) = (w.toNat / 2 ^ 8 % 2 ^ 3) <<< 8 by
      rw [Nat.shiftLeft_eq]; omega]
    apply Nat.eq_of_testBit_eq
    intro i
    rw [Nat.testBit_shiftLeft, Nat.testBit_mod_two_pow, Nat.testBit_div_two_pow, Nat.testBit_and,
      show (0x0700 : Nat) = (2 ^ 3 - 1) <<< 8 from rfl, Nat.testBit_shiftLeft,
      Nat.testBit_two_pow_sub_one]
    by_cases hi : 8 ≤ i
    · rw [Nat.sub_add_cancel hi]
      simp [hi, Bool.and_comm]
    · simp [hi]
  rw [← UInt16.toNat_inj, toNat_maskBits, toNat_maskOf, UInt16.toNat_and,
    show maskPlace.toNat = 0x0700 from rfl, h]
  omega

theorem toWord_ofWord (w : UInt16) : (ofWord w).toWord = w &&& modelled := by
  simp only [toWord, ofWord, maskBits_maskOf]
  rw [bit_test w 0x8000 15 rfl, bit_test w 0x4000 14 rfl, bit_test w 0x2000 13 rfl,
    bit_test w 0x1000 12 rfl, bit_test w 0x0010 4 rfl, bit_test w 0x0008 3 rfl,
    bit_test w 0x0004 2 rfl, bit_test w 0x0002 1 rfl, bit_test w 0x0001 0 rfl]
  simp only [← and_or]
  rfl

theorem toWord_and_maskPlace (f : Status) : f.toWord &&& maskPlace = maskBits f.mask := by
  simp (disch := decide) only [toWord, or_and, bit_and_of, maskBits_and_maskPlace, UInt16.zero_or,
    UInt16.or_zero]

theorem ofWord_toWord (f : Status) : ofWord f.toWord = { f with mask := f.mask &&& 7 } := by
  have hm : maskOf f.toWord = f.mask &&& 7 := by
    rw [← maskOf_maskBits, maskOf, maskOf, toWord_and_maskPlace, maskBits_and_maskPlace]
  simp only [ofWord, hm]
  simp (disch := decide) only [toWord, or_and, bit_and_self, bit_and_of, maskBits_and,
    UInt16.zero_or, UInt16.or_zero, bit_bne_zero]

theorem and_seven {mask : UInt8} (h : mask ≤ 7) : mask &&& 7 = mask := by
  have hle : mask.toNat ≤ 7 := UInt8.le_iff_toNat_le.mp h
  rw [← UInt8.toNat_inj, UInt8.toNat_and, show (7 : UInt8).toNat = 2 ^ 3 - 1 from rfl,
    Nat.and_two_pow_sub_one_eq_mod]
  omega

theorem ofWord_toWord_of_mask {f : Status} (h : f.mask ≤ 7) : ofWord f.toWord = f := by
  rw [ofWord_toWord, and_seven h]

end Status
end Mc68000
