/-!
# What can go wrong with a session file
-/

namespace Mc68000

def imageSize : Nat := 104

inductive SessionError where
  | missingChunk
  | badLength (actual : Nat)
  | storage (reason : String)
  deriving DecidableEq, Repr

def SessionError.message : SessionError → String
  | .missingChunk => "session file has no CPU register chunk"
  | .badLength actual =>
    "CPU register chunk is " ++ Nat.repr actual ++ " bytes, expected " ++ Nat.repr imageSize
  | .storage reason => "session storage error: " ++ reason

end Mc68000
