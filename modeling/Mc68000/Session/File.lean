import Mc68000.Session.Error

/-!
# Session files

A session file holds chunks of bytes under tags of four bytes. Where the chunks are kept is up to
the file, and so is what can go wrong with it.
-/

namespace Mc68000

abbrev ChunkTag := Vector UInt8 4

def ChunkTag.registers : ChunkTag := #v[0x43, 0x72, 0x65, 0x67]

class SessionFile (φ : Type) where
  writeChunk : φ → ChunkTag → List UInt8 → Except SessionError φ
  readChunk : φ → ChunkTag → Except SessionError (Option (List UInt8))

/-- Chunks in memory, at most one for a tag. -/
structure ChunkStore where
  chunks : List (ChunkTag × List UInt8)

namespace ChunkStore

def empty : ChunkStore := ⟨[]⟩

def find? (s : ChunkStore) (tag : ChunkTag) : Option (List UInt8) := s.chunks.lookup tag

def insert (s : ChunkStore) (tag : ChunkTag) (bytes : List UInt8) : ChunkStore :=
  ⟨(tag, bytes) :: s.chunks.filter fun c => c.1 != tag⟩

instance : SessionFile ChunkStore where
  writeChunk s tag bytes := .ok (s.insert tag bytes)
  readChunk s tag := .ok (s.find? tag)

end ChunkStore
end Mc68000
