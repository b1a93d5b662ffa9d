import Mc68000.Cycles.Basic
import Mc68000.Json.Reader

/-! A cycle count as JSON: its number. -/

namespace Mc68000.Cycles

def toJson (c : Cycles) : Json := .natural c.count.toNat

def render (c : Cycles) : List Char := c.toJson.render

def parse (cs : List Char) : Option Cycles :=
  match Json.parse cs with
  | some (.natural n) => if n < UInt32.size then some ⟨n.toUInt32⟩ else none
  | _ => none

end Mc68000.Cycles
