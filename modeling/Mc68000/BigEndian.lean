/-!
# Big-endian words and longs

The most significant byte of a wide value comes first. Joining two halves and taking a value apart
undo each other, in both directions and at both widths.
-/

namespace Mc68000.BigEndian

def word (high low : UInt8) : UInt16 := high.toUInt16 <<< 8 ||| low.toUInt16

def long (high low : UInt16) : UInt32 := high.toUInt32 <<< 16 ||| low.toUInt32

def highByte (w : UInt16) : UInt8 := (w >>> 8).toUInt8

def lowByte (w : UInt16) : UInt8 := w.toUInt8

def highWord (l : UInt32) : UInt16 := (l >>> 16).toUInt16

def lowWord (l : UInt32) : UInt16 := l.toUInt16

def wordBytes (w : UInt16) : List UInt8 := [highByte w, lowByte w]

def longBytes (l : UInt32) : List UInt8 := wordBytes (highWord l) ++ wordBytes (lowWord l)

theorem toNat_word (high low : UInt8) : (word high low).toNat = 256 * high.toNat + low.toNat := by
  have h := high.toNat_lt
  have l := low.toNat_lt
  rw [word, UInt16.toNat_or, UInt16.toNat_shiftLeft]
  simp only [UInt8.toNat_toUInt16]
  rw [show (8 : UInt16).toNat % 16 = 8 from rfl, Nat.mod_eq_of_lt (by rw [Nat.shiftLeft_eq]; omega),
    ← Nat.shiftLeft_add_eq_or_of_lt (by omega), Nat.shiftLeft_eq]
  omega

theorem toNat_long (high low : UInt16) :
    (long high low).toNat = 65536 * high.toNat + low.toNat := by
  have h := high.toNat_lt
  have l := low.toNat_lt
  rw [long, UInt32.toNat_or, UInt32.toNat_shiftLeft]
  simp only [UInt16.toNat_toUInt32]
  rw [show (16 : UInt32).toNat % 32 = 16 from rfl,
    Nat.mod_eq_of_lt (by rw [Nat.shiftLeft_eq]; omega),
    ← Nat.shiftLeft_add_eq_or_of_lt (by omega), Nat.shiftLeft_eq]
  omega

theorem toNat_highByte (w : UInt16) : (highByte w).toNat = w.toNat / 256 := by
  have h := w.toNat_lt
  simp only [highByte, UInt16.toNat_toUInt8, UInt16.toNat_shiftRight]
  rw [show (8 : UInt16).toNat % 16 = 8 from rfl, Nat.shiftRight_eq_div_pow]
  omega

theorem toNat_lowByte (w : UInt16) : (lowByte w).toNat = w.toNat % 256 := by
  simp [lowByte]

theorem toNat_highWord (l : UInt32) : (highWord l).toNat = l.toNat / 65536 := by
  have h := l.toNat_lt
  simp only [highWord, UInt32.toNat_toUInt16, UInt32.toNat_shiftRight]
  rw [show (16 : UInt32).toNat % 32 = 16 from rfl, Nat.shiftRight_eq_div_pow]
  omega

theorem toNat_lowWord (l : UInt32) : (lowWord l).toNat = l.toNat % 65536 := by
  simp [lowWord]

theorem highByte_word (high low : UInt8) : highByte (word high low) = high := by
  have := low.toNat_lt
  rw [← UInt8.toNat_inj, toNat_highByte, toNat_word]
  omega

theorem lowByte_word (high low : UInt8) : lowByte (word high low) = low := by
  have := low.toNat_lt
  rw [← UInt8.toNat_inj, toNat_lowByte, toNat_word]
  omega

theorem word_highByte_lowByte (w : UInt16) : word (highByte w) (lowByte w) = w := by
  rw [← UInt16.toNat_inj, toNat_word, toNat_highByte, toNat_lowByte]
  omega

theorem highWord_long (high low : UInt16) : highWord (long high low) = high := by
  have := low.toNat_lt
  rw [← UInt16.toNat_inj, toNat_highWord, toNat_long]
  omega

theorem lowWord_long (high low : UInt16) : lowWord (long high low) = low := by
  have := low.toNat_lt
  rw [← UInt16.toNat_inj, toNat_lowWord, toNat_long]
  omega

theorem long_highWord_lowWord (l : UInt32) : long (highWord l) (lowWord l) = l := by
  rw [← UInt32.toNat_inj, toNat_long, toNat_highWord, toNat_lowWord]
  omega

end Mc68000.BigEndian
