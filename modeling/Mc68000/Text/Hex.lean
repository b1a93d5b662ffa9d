/-!
# Hexadecimal text

Lower-case digits after `0x`, with or without leading zeros.
-/

namespace Mc68000.Hex

def digits (n : Nat) : List Char := Nat.toDigits 16 n

def text (n : Nat) : String := "0x" ++ String.ofList (digits n)

def padded (width n : Nat) : String :=
  let ds := digits n
  "0x" ++ String.ofList (List.replicate (width - ds.length) '0' ++ ds)

def address (a : UInt32) : String := padded 8 a.toNat

end Mc68000.Hex
