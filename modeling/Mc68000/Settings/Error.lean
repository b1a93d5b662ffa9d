import Mc68000.Settings.Basic
import Mc68000.Text.Hex

/-! The wording of what is wrong with settings. -/

namespace Mc68000

def SettingsError.message : SettingsError → String
  | .slowCycleMask mask =>
    "slow cycle mask " ++ Hex.text mask.toNat ++ " must be one less than a power of two"
  | .historyCapacity capacity => "history capacity " ++ Nat.repr capacity.toNat ++ " is too large"

end Mc68000
