import Mc68000.Json.Reader
import Mc68000.Settings.Basic

/-!
# Settings as JSON

Settings are written as an object with all six fields in order. They are read from an object with
any of the fields in any order, among fields of other names, which do not matter; or from an array
with values for the first few fields. A field that is missing has its default.
-/

namespace Mc68000.Settings

inductive Field where
  | romBase
  | slowCycleMask
  | idleTickCycles
  | registerHistory
  | exceptionHistory
  | deadManTimeoutMs
  deriving DecidableEq, Repr

namespace Field

def all : List Field :=
  [.romBase, .slowCycleMask, .idleTickCycles, .registerHistory, .exceptionHistory,
    .deadManTimeoutMs]

def name : Field → String
  | .romBase => "rom_base"
  | .slowCycleMask => "slow_cycle_mask"
  | .idleTickCycles => "idle_tick_cycles"
  | .registerHistory => "register_history"
  | .exceptionHistory => "exception_history"
  | .deadManTimeoutMs => "dead_man_timeout_ms"

def ofName? (cs : List Char) : Option Field := all.find? fun f => f.name.toList == cs

end Field

def fieldJson (s : Settings) : Field → Json
  | .romBase => .natural s.romBase.toNat
  | .slowCycleMask => .natural s.slowCycleMask.toNat
  | .idleTickCycles => .natural s.idleTickCycles.toNat
  | .registerHistory => .natural s.registerHistory.toNat
  | .exceptionHistory => .natural s.exceptionHistory.toNat
  | .deadManTimeoutMs =>
    match s.deadManTimeoutMs with
    | none => .null
    | some t => .natural t.toNat

def toJson (s : Settings) : Json :=
  .object (Field.all.map fun f => (Json.plainText f.name, s.fieldJson f))

def render (s : Settings) : List Char := s.toJson.render

def long? : Json → Option UInt32
  | .natural n => if n < UInt32.size then some n.toUInt32 else none
  | _ => none

def quad? : Json → Option UInt64
  | .natural n => if n < UInt64.size then some n.toUInt64 else none
  | _ => none

def withField (s : Settings) (f : Field) (v : Json) : Option Settings :=
  match f with
  | .romBase => (long? v).map fun n => { s with romBase := n }
  | .slowCycleMask => (long? v).map fun n => { s with slowCycleMask := n }
  | .idleTickCycles => (long? v).map fun n => { s with idleTickCycles := n }
  | .registerHistory => (quad? v).map fun n => { s with registerHistory := n }
  | .exceptionHistory => (quad? v).map fun n => { s with exceptionHistory := n }
  | .deadManTimeoutMs =>
    match v with
    | .null => some { s with deadManTimeoutMs := none }
    | v => (quad? v).map fun n => { s with deadManTimeoutMs := some n }

/-- Take the members of an object one after the other. Every name has to be a text, and no field may
come twice. -/
def withMembers (seen : List Field) (s : Settings) :
    List (List Json.Piece × Json) → Option Settings
  | [] => some s
  | (name, v) :: rest =>
    (Json.decodeText name).bind fun cs =>
      match Field.ofName? cs with
      | none => withMembers seen s rest
      | some f =>
        if f ∈ seen then none
        else (s.withField f v).bind fun s => withMembers (f :: seen) s rest

def withItems (s : Settings) : List Field → List Json → Option Settings
  | _, [] => some s
  | [], _ :: _ => none
  | f :: fields, v :: rest => (s.withField f v).bind fun s => withItems s fields rest

def ofJson? : Json → Option Settings
  | .object members => withMembers [] default members
  | .array items => withItems default Field.all items
  | _ => none

def parse (cs : List Char) : Option Settings := (Json.parse cs).bind ofJson?

end Mc68000.Settings
