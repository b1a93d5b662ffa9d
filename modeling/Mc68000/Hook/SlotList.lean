/-!
# Ordered registrations with generational slots

Registrations are kept in slots, which are linked in both directions in the order in which the
registrations were made. The slot of a removed registration is reused, the one vacated last first,
and every reuse raises its generation. A slot and a generation together so name one registration,
and a stale pair names none.
-/

namespace Mc68000

structure SlotList.Slot (α : Type) where
  value : Option α
  generation : UInt32
  prev : Option Nat
  next : Option Nat

structure SlotList (α : Type) where
  slots : Array (SlotList.Slot α)
  /-- The vacated slots, the one vacated last first. -/
  free : List Nat
  head : Option Nat
  tail : Option Nat
  length : Nat

namespace SlotList
variable {α : Type}

def empty : SlotList α := ⟨#[], [], none, none, 0⟩

structure Entry (α : Type) where
  slot : Nat
  generation : UInt32
  value : α

def entryAt (l : SlotList α) (slot : Nat) : Option (Entry α) :=
  l.slots[slot]?.bind fun s => s.value.map fun v => ⟨slot, s.generation, v⟩

def follow (l : SlotList α) : Nat → Option Nat → List (Entry α)
  | _, none => []
  | 0, some _ => []
  | n + 1, some i =>
    match l.slots[i]? with
    | none => []
    | some s => (l.entryAt i).toList ++ l.follow n s.next

/-- The live registrations, oldest first. No slot comes twice on the way from the head, so there are
no more links to follow than there are slots. -/
def entries (l : SlotList α) : List (Entry α) := l.follow l.slots.size l.head

def nextGeneration (l : SlotList α) (slot : Nat) : UInt32 :=
  match l.slots[slot]? with
  | none => 0
  | some s => s.generation + 1

def linkNext (l : SlotList α) (i next : Option Nat) : SlotList α :=
  match i with
  | some i => { l with slots := l.slots.modify i fun s => { s with next := next } }
  | none => { l with head := next }

def linkPrev (l : SlotList α) (i prev : Option Nat) : SlotList α :=
  match i with
  | some i => { l with slots := l.slots.modify i fun s => { s with prev := prev } }
  | none => { l with tail := prev }

def nextSlot (l : SlotList α) : Nat := l.free.headD l.slots.size

def nextEntry (l : SlotList α) (a : α) : Entry α :=
  ⟨l.nextSlot, l.nextGeneration l.nextSlot, a⟩

def fill (l : SlotList α) (e : Entry α) : SlotList α :=
  let s : Slot α := ⟨some e.value, e.generation, l.tail, none⟩
  match l.free with
  | _ :: free => { l with slots := l.slots.setIfInBounds e.slot s, free := free }
  | [] => { l with slots := l.slots.push s }

def append (l : SlotList α) (i : Nat) : SlotList α :=
  { l.linkNext l.tail (some i) with tail := some i, length := l.length + 1 }

def push (l : SlotList α) (a : α) : Entry α × SlotList α :=
  (l.nextEntry a, (l.fill (l.nextEntry a)).append l.nextSlot)

/-- Empty slot `i`, which held `s`, and link its neighbours with each other. The slot keeps its
generation. -/
def vacate (l : SlotList α) (i : Nat) (s : Slot α) : SlotList α :=
  let l := { l with slots := l.slots.setIfInBounds i ⟨none, s.generation, none, none⟩ }
  let l := (l.linkNext s.prev s.next).linkPrev s.next s.prev
  { l with free := i :: l.free, length := l.length - 1 }

def remove (l : SlotList α) (slot : Nat) (generation : UInt32) : Bool × SlotList α :=
  match l.slots[slot]? with
  | none => (false, l)
  | some s =>
    if s.generation = generation ∧ s.value.isSome then (true, l.vacate slot s) else (false, l)

end SlotList
end Mc68000
