import Mc68000.BigEndian
import Mc68000.Registers
import Mc68000.Session.Error

/-!
# The register image

A register file is stored as 26 big-endian longs: D0 to D7, A0 to A7, USP, ISP, PC, the state long,
VBR, SFC, DFC, FPCR, FPSR and FPIAR. The state long has SR in its high word, then a byte that says
whether the processor is stopped, then a byte of padding. Of the pending conditions only the STOP of
a stopped processor comes back.
-/

namespace Mc68000.Registers

/-- The long that SR shares with the mark of a stopped processor. -/
def stateLong (r : Registers) : UInt32 := BigEndian.long r.sr (if r.stopped then 0x0100 else 0)

def imageLongs (r : Registers) : List UInt32 :=
  r.d.toList ++ r.a.toList ++
    [r.usp, r.isp, r.pc, r.stateLong, r.vbr, r.sfc, r.dfc, r.fpcr, r.fpsr, r.fpiar]

def image (r : Registers) : List UInt8 := r.imageLongs.flatMap BigEndian.longBytes

/-- The longs of a list of bytes; what does not fill a long is left out. -/
def longsOfBytes : List UInt8 → List UInt32
  | a :: b :: c :: d :: rest =>
    BigEndian.long (BigEndian.word a b) (BigEndian.word c d) :: longsOfBytes rest
  | _ => []

def ofImageLongs (longs : List UInt32) : Registers :=
  let place (i : Nat) := longs.getD i 0
  let sr := BigEndian.highWord (place 19)
  let stopped := BigEndian.highByte (BigEndian.lowWord (place 19)) != 0
  { d := Vector.ofFn fun i => place i.val
    a := Vector.ofFn fun i => place (8 + i.val)
    usp := place 16
    isp := place 17
    pc := place 18
    sr := sr
    status := Status.ofWord sr
    stopped := stopped
    vbr := place 20
    sfc := place 21
    dfc := place 22
    fpcr := place 23
    fpsr := place 24
    fpiar := place 25
    pending := { Pending.none with stop := stopped } }

def ofImage (bytes : List UInt8) : Except SessionError Registers :=
  if bytes.length = imageSize then .ok (ofImageLongs (longsOfBytes bytes))
  else .error (.badLength bytes.length)

end Mc68000.Registers
