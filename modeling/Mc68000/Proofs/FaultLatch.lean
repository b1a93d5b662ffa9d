import Mc68000.Proofs.Accesses
import Mc68000.Proofs.RamContents
import Mathlib.Data.List.DropRight

/-!
# What memory has latched

Between two looks at the latch the first byte that the limit refuses is the one that is reported,
with its own address and direction, however wide the access was that it belongs to. Looking empties
the latch. Loading and peeking go past the limit and leave no trace in it.
-/

namespace Mc68000.Ram
variable {r r₀ : Ram}

inductive Request where
  | readByte (a : UInt32)
  | readWord (a : UInt32)
  | readLong (a : UInt32)
  | readLongFullAccess (a : UInt32)
  | store (s : Store)
  | peek (a : UInt32)
  | peekWord (a : UInt32)
  | peekLong (a : UInt32)
  | takeFault

def Request.serve (r : Ram) : Request → Ram
  | .readByte a => (Bus.readByte r a).2
  | .readWord a => (Bus.readWord r a).2
  | .readLong a => (Bus.readLong r a).2
  | .readLongFullAccess a => (Bus.readLongFullAccess r a).2
  | .store s => s.perform r
  | .peek _ | .peekWord _ | .peekLong _ => r
  | .takeFault => (Bus.takeFault r).2

def writes (a : UInt32) (bs : List UInt8) : List Access :=
  (place a bs).map fun x => ⟨x.1, some x.2⟩

def reads (a : UInt32) (n : Nat) : List Access := (span a n).map fun x => ⟨x, none⟩

/-- The bytes that a call accesses, in the order of access. Loading and poking are no accesses. -/
def Store.accesses : Store → List Access
  | .writeByte a b => writes a [b]
  | .writeWord a w => writes a (BigEndian.wordBytes w)
  | .writeLong a l => writes a (BigEndian.longBytes l)
  | .load _ _ | .loadWords _ _ | .pokeLong _ _ => []

def Request.accesses : Request → List Access
  | .readByte a => reads a 1
  | .readWord a => reads a 2
  | .readLong a | .readLongFullAccess a => reads a 4
  | .store s => s.accesses
  | .peek _ | .peekWord _ | .peekLong _ | .takeFault => []

def Request.looks : Request → Bool
  | .takeFault => true
  | _ => false

/-- The calls since the latch was last looked at, or all of them if it never was. -/
def sinceLook (qs : List Request) : List Request := qs.rtakeWhile fun q => !q.looks

theorem latch_load (r : Ram) (a : UInt32) (bs : List UInt8) : (r.load a bs).latch = r.latch := by
  induction bs generalizing r a with
  | nil => rfl
  | cons b bs ih =>
    rw [load, ih]
    rfl

theorem readLong_eq_perform (r : Ram) (a : UInt32) :
    (Bus.readLong r a).2 = r.perform (reads a 4) := by
  rw [reads, map_span_four]
  rfl

theorem writeLong_eq_perform (r : Ram) (a l : UInt32) :
    Bus.writeLong r a l = r.perform (writes a (BigEndian.longBytes l)) := by
  rw [writes, place_longBytes]
  rfl

structure Latches (r r' : Ram) (xs : List Access) : Prop where
  limit : r'.limit = r.limit
  latch : r'.latch = r.latch.or (r.firstFault xs)

theorem Latches.perform (r : Ram) (xs : List Access) : Latches r (r.perform xs) xs :=
  ⟨limit_perform r xs, latch_perform r xs⟩

theorem Latches.load (r : Ram) (a : UInt32) (bs : List UInt8) : Latches r (r.load a bs) [] where
  limit := limit_load r a bs
  latch := by
    rw [latch_load]
    exact Option.or_none.symm

theorem Latches.refl (r : Ram) : Latches r r [] := .perform r []

theorem Store.latches (s : Store) (r : Ram) : Latches r (s.perform r) s.accesses := by
  cases s with
  | writeByte a b => exact .perform r (writes a [b])
  | writeWord a w => exact .perform r (writes a (BigEndian.wordBytes w))
  | writeLong a l =>
    rw [Store.perform, writeLong_eq_perform]
    exact .perform r _
  | load a bs => exact .load r a bs
  | loadWords a words => exact .load r a _
  | pokeLong a l => exact .load r a _

theorem Request.latches {q : Request} (h : q.looks = false) (r : Ram) :
    Latches r (q.serve r) q.accesses := by
  cases q with
  | readByte a => exact .perform r (reads a 1)
  | readWord a => exact .perform r (reads a 2)
  | readLong a =>
    rw [Request.serve, readLong_eq_perform]
    exact .perform r _
  | readLongFullAccess a =>
    have hread : (Bus.readLongFullAccess r a).2 = r.perform (reads a 4) := readLong_eq_perform r a
    rw [Request.serve, hread]
    exact .perform r _
  | store s => exact s.latches r
  | peek | peekWord | peekLong => exact .refl r
  | takeFault => cases h

theorem firstFault_append (r : Ram) (xs ys : List Access) :
    r.firstFault (xs ++ ys) = (r.firstFault xs).or (r.firstFault ys) := by
  rw [firstFault, List.find?_append, Option.map_or]
  rfl

structure Reports (limit : UInt32) (r : Ram) (xs : List Access) : Prop where
  limit_eq : r.limit = some limit
  latch_eq : r.latch = r.firstFault xs

theorem Reports.serve {limit : UInt32} {qs : List Request}
    (h : Reports limit r ((sinceLook qs).flatMap Request.accesses)) (q : Request) :
    Reports limit (q.serve r) ((sinceLook (qs ++ [q])).flatMap Request.accesses) := by
  cases hq : q.looks with
  | true =>
    have hnone : sinceLook (qs ++ [q]) = [] :=
      List.rtakeWhile_concat_neg _ _ _ (by simp [hq])
    rw [hnone]
    cases q with
    | takeFault => exact ⟨h.limit_eq, rfl⟩
    | _ => cases hq
  | false =>
    have hmore : sinceLook (qs ++ [q]) = sinceLook qs ++ [q] :=
      List.rtakeWhile_concat_pos _ _ _ (by simp [hq])
    obtain ⟨hlimit, hlatch⟩ := Request.latches hq r
    constructor
    · exact hlimit.trans h.limit_eq
    · rw [hlatch, h.latch_eq, ← firstFault_append, firstFault_congr hlimit, hmore,
        List.flatMap_append, List.flatMap_singleton]

theorem reports_foldl {limit : UInt32} (h : Reports limit r₀ []) (qs : List Request) :
    Reports limit (qs.foldl Request.serve r₀) ((sinceLook qs).flatMap Request.accesses) := by
  induction qs using List.reverseRecOn with
  | nil => exact h
  | append_singleton qs q ih =>
    rw [List.foldl_append]
    exact ih.serve q

theorem firstFault_eq_none_iff {limit : UInt32} (hlimit : r.limit = some limit)
    (xs : List Access) : r.firstFault xs = none ↔ ∀ x ∈ xs, x.address < limit := by
  simp [firstFault, isUnmapped, hlimit]

/-- The fault of the first of these bytes that is at the limit or above it. -/
def IsFirstRefused (limit : UInt32) (xs : List Access) (f : Fault) : Prop :=
  ∃ before x after, xs = before ++ x :: after ∧ (∀ y ∈ before, y.address < limit) ∧
    limit ≤ x.address ∧ f = ⟨.bus, x.address, 1, x.value.isNone⟩

theorem firstFault_eq_some_iff {limit : UInt32} (hlimit : r.limit = some limit)
    (xs : List Access) (f : Fault) :
    r.firstFault xs = some f ↔ IsFirstRefused limit xs f := by
  simp only [firstFault, isUnmapped, hlimit, Option.map_eq_some_iff, List.find?_eq_some_iff_append]
  constructor
  · rintro ⟨x, ⟨hx, before, after, hxs, hbefore⟩, rfl⟩
    exact ⟨before, x, after, hxs, by simpa using hbefore, by simpa using hx, rfl⟩
  · rintro ⟨before, x, after, hxs, hbefore, hx, rfl⟩
    exact ⟨x, ⟨by simpa using hx, before, after, hxs, by simpa using hbefore⟩, rfl⟩

/-- After any calls on memory with a limit, a look at the latch gives the first fault since the look
before it, and none if there was no fault; and a look that follows gives none. -/
theorem takeFault_first (n : Nat) (limit : UInt32) (qs : List Request) :
    let r := qs.foldl Request.serve ((ofSize n).unmappedFrom limit)
    let xs := (sinceLook qs).flatMap Request.accesses
    ((Bus.takeFault r).1 = none ↔ ∀ x ∈ xs, x.address < limit) ∧
      (∀ f, (Bus.takeFault r).1 = some f ↔ IsFirstRefused limit xs f) ∧
      (Bus.takeFault (Bus.takeFault r).2).1 = none ∧
      (∀ a bs, (Bus.takeFault (r.load a bs)).1 = (Bus.takeFault r).1) ∧
      (∀ a words, (Bus.takeFault (r.loadWords a words)).1 = (Bus.takeFault r).1) ∧
      ∀ a l, (Bus.takeFault (r.pokeLong a l)).1 = (Bus.takeFault r).1 := by
  intro r xs
  have hempty : Reports limit ((ofSize n).unmappedFrom limit) [] := ⟨rfl, rfl⟩
  obtain ⟨hlimit, hlatch⟩ : Reports limit r xs := reports_foldl hempty qs
  have htaken : (Bus.takeFault r).1 = r.firstFault xs := hlatch
  rw [htaken]
  refine ⟨firstFault_eq_none_iff hlimit xs, firstFault_eq_some_iff hlimit xs, rfl, ?_, ?_, ?_⟩
  · intro a bs
    exact (latch_load r a bs).trans hlatch
  · intro a words
    exact (latch_load r a _).trans hlatch
  · intro a l
    exact (latch_load r a _).trans hlatch

-- A long around the end of the addresses: its first byte is there, its second is refused, and the
-- last two are there again.
example : (Bus.takeFault (Request.serve ((ofSize 16).unmappedFrom 0xFFFFFFFF)
    (.readLong 0xFFFFFFFE))).1 = some ⟨.bus, 0xFFFFFFFF, 1, true⟩ := by
  decide +kernel

end Mc68000.Ram
