import Mc68000.Machine.Control
import Mc68000.Session.File
import Mc68000.Session.Image

/-!
# Saving and loading registers

The register file goes into one chunk of a session file. A load that fails leaves the machine as it
was.
-/

namespace Mc68000.Machine
variable {β σ φ : Type} [SessionFile φ]

/-- Write the register file, with SR packed. The packing stays, whether the file takes the chunk or
not. -/
def save (m : Machine β σ) (file : φ) : Except SessionError φ × Machine β σ :=
  let (r, m) := m.getRegisters
  (SessionFile.writeChunk file ChunkTag.registers r.image, m)

def readRegisters (file : φ) : Except SessionError Registers :=
  match SessionFile.readChunk file ChunkTag.registers with
  | .error e => .error e
  | .ok none => .error .missingChunk
  | .ok (some bytes) => Registers.ofImage bytes

def load [Bus β] (m : Machine β σ) (file : φ) : Except SessionError (Machine β σ) :=
  (readRegisters file).map fun r =>
    (m.log (.registersLoaded r.pc r.sr r.stopped)).setRegisters r

end Mc68000.Machine
