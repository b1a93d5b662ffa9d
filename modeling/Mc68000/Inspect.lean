import Mc68000.Machine.Basic
import Mc68000.OpcodeTable
import Mc68000.Text.Inspection

/-!
# Inspection text of the parts of the engine
-/

namespace Mc68000
open Inspection

def Status.inspect (s : Status) : String :=
  record "StatusFields"
    [("t1", flag s.t1), ("t0", flag s.t0), ("s", flag s.s), ("m", flag s.m),
      ("intmask", nat s.mask.toNat), ("x", flag s.x), ("n", flag s.n), ("z", flag s.z),
      ("v", flag s.v), ("c", flag s.c)]

def Pending.names (p : Pending) : List String :=
  let named : List (Bool × String) :=
    [(p.stop, "STOP"), (p.interruptCheck, "INT"), (p.breakRequest, "BRK"),
      (p.traceArmed, "TRACE"), (p.traceDue, "DOTRACE"), (p.interruptDue, "DOINT"),
      (p.endOfCycle, "END_OF_CYCLE")]
  (named.filter fun n => n.1).map (fun n => n.2) ++
    if p.spare = 0 then [] else [Hex.text p.spare.toNat]

def Pending.inspect (p : Pending) : String :=
  applied "SpecialFlags" (if p.isEmpty then Hex.text 0 else joined " | " p.names)

def Registers.inspectBank (bank : Vector UInt32 8) : String :=
  list (bank.toList.map fun v => nat v.toNat)

def Registers.inspect (r : Registers) : String :=
  record "Registers"
    [("d", inspectBank r.d), ("a", inspectBank r.a), ("usp", nat r.usp.toNat),
      ("isp", nat r.isp.toNat), ("pc", nat r.pc.toNat), ("sr", nat r.sr.toNat),
      ("status", r.status.inspect), ("stopped", flag r.stopped), ("vbr", nat r.vbr.toNat),
      ("sfc", nat r.sfc.toNat), ("dfc", nat r.dfc.toNat), ("fpcr", nat r.fpcr.toNat),
      ("fpsr", nat r.fpsr.toNat), ("fpiar", nat r.fpiar.toNat), ("spcflags", r.pending.inspect)]

def HookKind.name : HookKind → String
  | .exception => "Exception"
  | .jsr => "Jsr"
  | .jsrIndirect => "JsrIndirect"
  | .link => "Link"
  | .rte => "Rte"
  | .rts => "Rts"
  | .newPc => "NewPc"
  | .newSp => "NewSp"

def HookHandle.inspect (h : HookHandle) : String :=
  record "HookHandle"
    [("kind", h.kind.name), ("key", nat h.key.toNat), ("slot", nat h.slot),
      ("generation", nat h.generation.toNat)]

def Registry.inspect {β σ : Type} (r : Registry β σ) : String :=
  record "HookRegistry"
    [("exception", nat (r.count .exception)), ("jsr", nat (r.count .jsr)),
      ("jsr_indirect", nat (r.count .jsrIndirect)), ("link", nat (r.count .link)),
      ("rte", nat (r.count .rte)), ("rts", nat (r.count .rts)),
      ("new_pc", nat (r.count .newPc)), ("new_sp", nat (r.count .newSp))]

def OpcodeTable.inspect {β σ : Type} (t : OpcodeTable β σ) : String :=
  record "OpcodeTable" [("assigned", nat t.assigned)]

def Settings.inspect (s : Settings) : String :=
  record "EngineConfig"
    [("rom_base", nat s.romBase.toNat), ("slow_cycle_mask", nat s.slowCycleMask.toNat),
      ("idle_tick_cycles", nat s.idleTickCycles.toNat),
      ("register_history", nat s.registerHistory.toNat),
      ("exception_history", nat s.exceptionHistory.toNat),
      ("dead_man_timeout_ms", option (s.deadManTimeoutMs.map fun t => nat t.toNat))]

def Cycles.inspect (c : Cycles) : String := applied "Cycles" (nat c.count.toNat)

def Fault.Kind.name : Fault.Kind → String
  | .bus => "Bus"
  | .address => "Address"

def Fault.inspect (f : Fault) : String :=
  record "BusFault"
    [("kind", f.kind.name), ("address", nat f.address.toNat), ("size", nat f.size.toNat),
      ("for_read", flag f.forRead)]

def StackGuard.inspect (g : StackGuard) : String :=
  record "StackGuard"
    [("low_warn", nat g.lowWarn.toNat), ("low", nat g.low.toNat),
      ("overflowed", flag g.overflowed), ("warned", flag g.warned)]

/-- The processor, without its table, its histories and the counter of housekeeping ticks. -/
def Machine.inspect {β σ : Type} (m : Machine β σ) : String :=
  openRecord "Cpu68k"
    [("regs", m.regs.inspect), ("hooks", m.hooks.inspect), ("config", m.settings.inspect),
      ("cycles", m.cycles.inspect), ("last_trace_address", nat m.lastTraceAddress.toNat),
      ("last_fault", option (m.lastFault.map Fault.inspect)),
      ("stack_guard", m.guard.inspect)]

end Mc68000
