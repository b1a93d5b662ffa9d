/-!
# Exception vectors

A vector is a byte. The handler of vector `v` is the long stored at `VBR + 4 * v`.
-/

namespace Mc68000

abbrev ExceptionVector := UInt8

namespace ExceptionVector

def resetStack : ExceptionVector := 0
def resetProgram : ExceptionVector := 1
def busError : ExceptionVector := 2
def addressError : ExceptionVector := 3
def illegalInstruction : ExceptionVector := 4
def privilegeViolation : ExceptionVector := 8
def trace : ExceptionVector := 9
def lineA : ExceptionVector := 10
def lineF : ExceptionVector := 11

def autovectorBase : ExceptionVector := 24

def trapBase : ExceptionVector := 32

/-- Bus and address errors push the long frame, every other exception the short one. -/
def usesLongFrame (v : ExceptionVector) : Bool := v == busError || v == addressError

def longFrameSize : UInt32 := 14

def shortFrameSize : UInt32 := 6

def frameSize (v : ExceptionVector) : UInt32 :=
  if v.usesLongFrame then longFrameSize else shortFrameSize

def entryAddress (vbr : UInt32) (v : ExceptionVector) : UInt32 := vbr + 4 * v.toUInt32

def processorNames : List String :=
  ["Reset SSP", "Reset PC", "Bus error", "Address error", "Illegal instruction", "Divide by zero",
    "CHK instruction", "TRAPV instruction", "Privilege violation", "Trace", "A-line trap",
    "F-line trap"]

def name (v : ExceptionVector) : String :=
  if v < 12 then processorNames.getD v.toNat ""
  else if v < 24 then "Reserved"
  else if v = 24 then "Spurious interrupt"
  else if v < 32 then "Level " ++ Nat.repr (v.toNat - 24) ++ " interrupt"
  else if v < 48 then "TRAP #" ++ Nat.repr (v.toNat - 32)
  else if v < 64 then "Reserved"
  else "User interrupt"

end ExceptionVector
end Mc68000
