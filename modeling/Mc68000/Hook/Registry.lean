import Mc68000.ExceptionVector
import Mc68000.Hook.SlotList
import Mc68000.Registers

/-!
# Hooks

Debuggers, patchers and profilers watch or intercept exceptions, calls, returns, stack frames and
changes of the program counter and the stack pointer. Every vector has a list of exception hooks of
its own, and every other kind has one list. The hooks share a state `σ`; exception hooks see and
change the registers and the memory as well, the others only observe.
-/

namespace Mc68000

inductive StackChange where
  | changed
  | incremented
  | decremented
  deriving DecidableEq, Repr

/-- What an exception hook sees and may change. -/
structure Scene (β σ : Type) where
  registers : Registers
  bus : β
  observers : σ

abbrev ExceptionHook (β σ : Type) := ExceptionVector → Scene β σ → Bool × Scene β σ

abbrev CallHook (σ : Type) := UInt32 → UInt32 → σ → Bool × σ

abbrev ReturnHook (σ : Type) := UInt32 → σ → Bool × σ

abbrev LinkHook (σ : Type) := Int32 → σ → σ

abbrev PcHook (σ : Type) := UInt32 → σ → σ

abbrev SpHook (σ : Type) := StackChange → σ → σ

inductive HookKind where
  | exception
  | jsr
  | jsrIndirect
  | link
  | rte
  | rts
  | newPc
  | newSp
  deriving DecidableEq, Repr

inductive Hook (β σ : Type) where
  | exception (vector : ExceptionVector) (f : ExceptionHook β σ)
  | jsr (f : CallHook σ)
  | jsrIndirect (f : CallHook σ)
  | link (f : LinkHook σ)
  | rte (f : ReturnHook σ)
  | rts (f : ReturnHook σ)
  | newPc (f : PcHook σ)
  | newSp (f : SpHook σ)

structure HookHandle where
  kind : HookKind
  /-- The vector of an exception hook, zero for the other kinds. -/
  key : UInt8
  slot : Nat
  generation : UInt32
  deriving DecidableEq, Repr

def HookHandle.vector (h : HookHandle) : Option ExceptionVector :=
  if h.kind = .exception then some h.key else none

inductive HookCall where
  | exception (vector : ExceptionVector)
  | jsr (returnAddress dest : UInt32)
  | jsrIndirect (returnAddress dest : UInt32)
  | link (size : Int32)
  | rte (dest : UInt32)
  | rts (dest : UInt32)
  | newPc (pc : UInt32)
  | newSp (change : StackChange)
  deriving DecidableEq, Repr

structure Registry (β σ : Type) where
  exception : ExceptionVector → SlotList (ExceptionHook β σ)
  jsr : SlotList (CallHook σ)
  jsrIndirect : SlotList (CallHook σ)
  link : SlotList (LinkHook σ)
  rte : SlotList (ReturnHook σ)
  rts : SlotList (ReturnHook σ)
  newPc : SlotList (PcHook σ)
  newSp : SlotList (SpHook σ)

namespace Registry
variable {β σ : Type}

def empty : Registry β σ where
  exception := fun _ => .empty
  jsr := .empty
  jsrIndirect := .empty
  link := .empty
  rte := .empty
  rts := .empty
  newPc := .empty
  newSp := .empty

def setException (r : Registry β σ) (v : ExceptionVector) (l : SlotList (ExceptionHook β σ)) :
    Registry β σ :=
  { r with exception := fun w => if w = v then l else r.exception w }

def handle {α : Type} (kind : HookKind) (key : UInt8) (e : SlotList.Entry α) : HookHandle :=
  ⟨kind, key, e.slot, e.generation⟩

def install (r : Registry β σ) : Hook β σ → HookHandle × Registry β σ
  | .exception v f =>
    let (e, l) := (r.exception v).push f
    (handle .exception v e, r.setException v l)
  | .jsr f => let (e, l) := r.jsr.push f; (handle .jsr 0 e, { r with jsr := l })
  | .jsrIndirect f =>
    let (e, l) := r.jsrIndirect.push f
    (handle .jsrIndirect 0 e, { r with jsrIndirect := l })
  | .link f => let (e, l) := r.link.push f; (handle .link 0 e, { r with link := l })
  | .rte f => let (e, l) := r.rte.push f; (handle .rte 0 e, { r with rte := l })
  | .rts f => let (e, l) := r.rts.push f; (handle .rts 0 e, { r with rts := l })
  | .newPc f => let (e, l) := r.newPc.push f; (handle .newPc 0 e, { r with newPc := l })
  | .newSp f => let (e, l) := r.newSp.push f; (handle .newSp 0 e, { r with newSp := l })

def remove (r : Registry β σ) (h : HookHandle) : Bool × Registry β σ :=
  match h.kind with
  | .exception =>
    let (done, l) := (r.exception h.key).remove h.slot h.generation
    (done, r.setException h.key l)
  | .jsr => let (done, l) := r.jsr.remove h.slot h.generation; (done, { r with jsr := l })
  | .jsrIndirect =>
    let (done, l) := r.jsrIndirect.remove h.slot h.generation
    (done, { r with jsrIndirect := l })
  | .link => let (done, l) := r.link.remove h.slot h.generation; (done, { r with link := l })
  | .rte => let (done, l) := r.rte.remove h.slot h.generation; (done, { r with rte := l })
  | .rts => let (done, l) := r.rts.remove h.slot h.generation; (done, { r with rts := l })
  | .newPc => let (done, l) := r.newPc.remove h.slot h.generation; (done, { r with newPc := l })
  | .newSp => let (done, l) := r.newSp.remove h.slot h.generation; (done, { r with newSp := l })

def vectors : List ExceptionVector := (List.range 256).map Nat.toUInt8

/-- Live registrations of a kind, over all vectors for exception hooks. -/
def count (r : Registry β σ) : HookKind → Nat
  | .exception => vectors.foldl (fun n v => n + (r.exception v).length) 0
  | .jsr => r.jsr.length
  | .jsrIndirect => r.jsrIndirect.length
  | .link => r.link.length
  | .rte => r.rte.length
  | .rts => r.rts.length
  | .newPc => r.newPc.length
  | .newSp => r.newSp.length

structure Listener (β σ : Type) where
  handle : HookHandle
  run : Scene β σ → Bool × Scene β σ

def answering (f : σ → Bool × σ) (s : Scene β σ) : Bool × Scene β σ :=
  let (answer, observers) := f s.observers
  (answer, { s with observers := observers })

def observing (f : σ → σ) (s : Scene β σ) : Bool × Scene β σ :=
  (false, { s with observers := f s.observers })

def listenersOf {α : Type} (l : SlotList α) (kind : HookKind) (key : UInt8)
    (run : α → Scene β σ → Bool × Scene β σ) : List (Listener β σ) :=
  l.entries.map fun e => ⟨handle kind key e, run e.value⟩

/-- Who is called on an occasion, in the order of registration. -/
def listeners (r : Registry β σ) : HookCall → List (Listener β σ)
  | .exception v => listenersOf (r.exception v) .exception v fun f => f v
  | .jsr ret dest => listenersOf r.jsr .jsr 0 fun f => answering (f ret dest)
  | .jsrIndirect ret dest =>
    listenersOf r.jsrIndirect .jsrIndirect 0 fun f => answering (f ret dest)
  | .link size => listenersOf r.link .link 0 fun f => observing (f size)
  | .rte dest => listenersOf r.rte .rte 0 fun f => answering (f dest)
  | .rts dest => listenersOf r.rts .rts 0 fun f => answering (f dest)
  | .newPc pc => listenersOf r.newPc .newPc 0 fun f => observing (f pc)
  | .newSp change => listenersOf r.newSp .newSp 0 fun f => observing (f change)

end Registry
end Mc68000
