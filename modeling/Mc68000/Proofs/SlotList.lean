import Mc68000.Hook.SlotList
import Mathlib.Data.List.Nodup
import Mathlib.Data.List.Perm.Subperm

/-!
# Linked slots

The links of a slot list thread the occupied slots on one path, the same in both directions, and the
vacated slots are those that the free list names. Appending adds a slot to the end of the path, and
removing takes one out, at an end or in the middle. Generations tell the registrations of a slot
apart as long as there are fewer registrations than generations.
-/

namespace Mc68000.SlotList
variable {α β : Type} {l : SlotList α} {path : List Nat}

/-- The slots along the links from a cursor on. Every one of them is there, and the way ends. -/
inductive Path (l : SlotList α) : Option Nat → List Nat → Prop
  | done : Path l none []
  | step {i : Nat} {s : Slot α} {rest : List Nat} (hs : l.slots[i]? = some s)
    (hrest : Path l s.next rest) : Path l (some i) (i :: rest)

/-- The slots of `path` are occupied, and linked in this order in both directions. -/
structure Linked (l : SlotList α) (path : List Nat) : Prop where
  nodup : path.Nodup
  head : l.head = path.head?
  tail : l.tail = path.getLast?
  slot : ∀ before i after, path = before ++ i :: after →
    ∃ v g, l.slots[i]? = some ⟨some v, g, before.getLast?, after.head?⟩

/-- Every slot is either on the path or free. -/
structure WellFormed (l : SlotList α) (path : List Nat) : Prop extends Linked l path where
  free_nodup : l.free.Nodup
  mem_free : ∀ i, i ∈ l.free ↔ i < l.slots.size ∧ l.entryAt i = none
  occupied : ∀ i, (l.entryAt i).isSome → i ∈ path
  length : l.length = path.length

theorem wellFormed_empty : WellFormed (empty : SlotList α) [] where
  nodup := List.nodup_nil
  head := rfl
  tail := rfl
  slot before i after h := by simp at h
  free_nodup := List.nodup_nil
  mem_free i := by simp [empty]
  occupied i h := by simp [empty, entryAt] at h
  length := rfl

namespace Linked

theorem entryAt (h : Linked l path) {i : Nat} (hi : i ∈ path) :
    ∃ e, l.entryAt i = some e ∧ e.slot = i := by
  obtain ⟨before, after, rfl⟩ := List.append_of_mem hi
  obtain ⟨v, g, hs⟩ := h.slot before i after rfl
  exact ⟨⟨i, g, v⟩, by simp [SlotList.entryAt, hs], rfl⟩

theorem lt_size (h : Linked l path) {i : Nat} (hi : i ∈ path) : i < l.slots.size := by
  obtain ⟨before, after, rfl⟩ := List.append_of_mem hi
  obtain ⟨v, g, hs⟩ := h.slot before i after rfl
  exact (Array.getElem?_eq_some_iff.mp hs).1

theorem length_le (h : Linked l path) : path.length ≤ l.slots.size := by
  have hsub : path ⊆ List.range l.slots.size := by
    intro i hi
    exact List.mem_range.mpr (h.lt_size hi)
  simpa using (List.subperm_of_subset h.nodup hsub).length_le

theorem path_from (h : Linked l path) (before after : List Nat) (hp : path = before ++ after) :
    l.Path after.head? after := by
  induction after generalizing before with
  | nil => exact .done
  | cons i after ih =>
    obtain ⟨v, g, hs⟩ := h.slot before i after hp
    exact .step hs (ih (before ++ [i]) (by simp [hp]))

theorem path_head (h : Linked l path) : l.Path l.head path := by
  rw [h.head]
  exact h.path_from [] path rfl

end Linked

theorem follow_of_path {cursor : Option Nat} {is : List Nat} (h : l.Path cursor is) {n : Nat}
    (hn : is.length ≤ n) : l.follow n cursor = is.filterMap l.entryAt := by
  induction h generalizing n with
  | done => simp [follow]
  | @step i s rest hs _ ih =>
    cases n with
    | zero => simp at hn
    | succ n =>
      have hrest := ih (Nat.le_of_succ_le_succ hn)
      simp only [follow, hs, hrest]
      cases he : l.entryAt i <;> simp [he]

theorem Linked.entries_eq (h : Linked l path) : l.entries = path.filterMap l.entryAt :=
  follow_of_path h.path_head h.length_le

def Entry.key (e : Entry α) : Nat × UInt32 := (e.slot, e.generation)

theorem slot_of_entryAt {i : Nat} {e : Entry α} (h : l.entryAt i = some e) : e.slot = i := by
  simp only [entryAt, Option.bind_eq_some_iff, Option.map_eq_some_iff] at h
  obtain ⟨s, -, v, -, rfl⟩ := h
  rfl

theorem Linked.slots_entries (h : Linked l path) : l.entries.map Entry.slot = path := by
  rw [h.entries_eq, List.map_filterMap]
  have hself : ∀ i ∈ path, (l.entryAt i).map Entry.slot = some i := by
    intro i hi
    obtain ⟨e, he, hslot⟩ := h.entryAt hi
    simp [he, hslot]
  rw [List.filterMap_congr hself, List.filterMap_some]

theorem getElem?_linkNext (l : SlotList α) (i next : Option Nat) (j : Nat) :
    (l.linkNext i next).slots[j]? =
      l.slots[j]?.map fun s => if i = some j then { s with next := next } else s := by
  cases i with
  | none => simp [linkNext]
  | some i =>
    simp only [linkNext, Array.getElem?_modify, Option.some.injEq]
    by_cases hij : i = j <;> simp [hij]

theorem getElem?_linkPrev (l : SlotList α) (i prev : Option Nat) (j : Nat) :
    (l.linkPrev i prev).slots[j]? =
      l.slots[j]?.map fun s => if i = some j then { s with prev := prev } else s := by
  cases i with
  | none => simp [linkPrev]
  | some i =>
    simp only [linkPrev, Array.getElem?_modify, Option.some.injEq]
    by_cases hij : i = j <;> simp [hij]

@[simp] theorem free_linkNext (l : SlotList α) (i next : Option Nat) :
    (l.linkNext i next).free = l.free := by
  cases i <;> rfl

@[simp] theorem free_linkPrev (l : SlotList α) (i prev : Option Nat) :
    (l.linkPrev i prev).free = l.free := by
  cases i <;> rfl

@[simp] theorem tail_linkNext (l : SlotList α) (i next : Option Nat) :
    (l.linkNext i next).tail = l.tail := by
  cases i <;> rfl

@[simp] theorem head_linkPrev (l : SlotList α) (i prev : Option Nat) :
    (l.linkPrev i prev).head = l.head := by
  cases i <;> rfl

theorem head_linkNext (l : SlotList α) (i next : Option Nat) :
    (l.linkNext i next).head = if i = none then next else l.head := by
  cases i <;> rfl

theorem tail_linkPrev (l : SlotList α) (i prev : Option Nat) :
    (l.linkPrev i prev).tail = if i = none then prev else l.tail := by
  cases i <;> rfl

@[simp] theorem length_linkNext (l : SlotList α) (i next : Option Nat) :
    (l.linkNext i next).length = l.length := by
  cases i <;> rfl

@[simp] theorem length_linkPrev (l : SlotList α) (i prev : Option Nat) :
    (l.linkPrev i prev).length = l.length := by
  cases i <;> rfl

theorem split_append {before after front back : List Nat} {k : Nat}
    (h : before ++ after = front ++ k :: back) :
    (∃ mid, before = front ++ k :: mid ∧ back = mid ++ after) ∨
      ∃ mid, after = mid ++ k :: back ∧ front = before ++ mid := by
  rcases List.append_eq_append_iff.mp h with ⟨mid, hfront, hafter⟩ | ⟨mid, hbefore, hback⟩
  · exact .inr ⟨mid, hafter, hfront⟩
  · cases mid with
    | nil => exact .inr ⟨[], by simpa using hback.symm, by simpa using hbefore.symm⟩
    | cons m mid =>
      simp only [List.cons_append, List.cons.injEq] at hback
      obtain ⟨rfl, rfl⟩ := hback
      exact .inl ⟨mid, hbefore, rfl⟩

theorem getLast?_eq_some_iff_of_nodup {before after : List Nat} {i : Nat}
    (h : (before ++ i :: after).Nodup) : (before ++ i :: after).getLast? = some i ↔ after = [] := by
  constructor
  · intro hlast
    cases after with
    | nil => rfl
    | cons k after =>
      have hmem : i ∈ k :: after := by
        apply List.mem_of_getLast?
        simpa [List.getLast?_append] using hlast
      exact absurd hmem (List.nodup_cons.mp (List.nodup_append.mp h).2.1).1
  · rintro rfl
    simp

theorem head?_eq_some_iff_of_nodup {before after : List Nat} {i : Nat}
    (h : (before ++ i :: after).Nodup) : (before ++ i :: after).head? = some i ↔ before = [] := by
  constructor
  · intro hhead
    cases before with
    | nil => rfl
    | cons k before =>
      simp only [List.cons_append, List.head?_cons, Option.some.injEq] at hhead
      subst hhead
      simp at h
  · rintro rfl
    rfl

theorem free_push (l : SlotList α) (a : α) : (l.push a).2.free = l.free.tail := by
  simp only [push, append, fill, free_linkNext]
  split <;> simp_all

theorem size_push_le (l : SlotList α) (a : α) : (l.push a).2.slots.size ≤ l.slots.size + 1 := by
  have hlink : ∀ l' : SlotList α, (l'.append l.nextSlot).slots.size = l'.slots.size := by
    intro l'
    cases hlast : l'.tail <;> simp [append, linkNext, hlast]
  simp only [push, hlink, fill]
  split <;> simp

theorem ends_push (l : SlotList α) (a : α) :
    (l.push a).2.head = (if l.tail = none then some l.nextSlot else l.head) ∧
      (l.push a).2.tail = some l.nextSlot ∧ (l.push a).2.length = l.length + 1 := by
  simp only [push, append, fill, head_linkNext]
  split <;> simp

namespace WellFormed

theorem nextSlot_cases (h : WellFormed l path) :
    (l.free = [] ∧ l.nextSlot = l.slots.size) ∨
      l.free = l.nextSlot :: l.free.tail ∧ l.nextSlot < l.slots.size ∧
        l.entryAt l.nextSlot = none := by
  cases hfree : l.free with
  | nil => exact .inl ⟨rfl, by simp [nextSlot, hfree]⟩
  | cons i free =>
    have hnext : l.nextSlot = i := by simp [nextSlot, hfree]
    obtain ⟨hlt, hnone⟩ := (h.mem_free i).mp (by simp [hfree])
    rw [hnext]
    exact .inr ⟨rfl, hlt, hnone⟩

theorem nextSlot_notMem (h : WellFormed l path) : l.nextSlot ∉ path := by
  intro hmem
  rcases h.nextSlot_cases with ⟨-, hsize⟩ | ⟨-, -, hnone⟩
  · have hlt := h.lt_size hmem
    omega
  · obtain ⟨e, he, -⟩ := h.entryAt hmem
    simp [hnone] at he

theorem slots_push (h : WellFormed l path) (a : α) (j : Nat) :
    (l.push a).2.slots[j]? =
      if j = l.nextSlot then
        some ⟨some a, l.nextGeneration l.nextSlot, l.tail, none⟩
      else l.slots[j]?.map fun s =>
        if l.tail = some j then { s with next := some l.nextSlot } else s := by
  have htail : l.tail ≠ some l.nextSlot := by
    intro ht
    rw [h.tail] at ht
    exact h.nextSlot_notMem (List.mem_of_getLast? ht)
  have hfill : ((l.fill (l.nextEntry a)).tail = l.tail) ∧
      (l.fill (l.nextEntry a)).slots[j]? =
        if j = l.nextSlot then some ⟨some a, l.nextGeneration l.nextSlot, l.tail, none⟩
        else l.slots[j]? := by
    rcases h.nextSlot_cases with ⟨hfree, hsize⟩ | ⟨hfree, hlt, -⟩
    · simp only [fill, hfree, nextEntry, hsize, Array.getElem?_push]
      simp
    · simp only [fill]
      rw [hfree]
      simp only [nextEntry, Array.getElem?_setIfInBounds, eq_comm, hlt, if_true, true_and]
  simp only [push, append, getElem?_linkNext, hfill]
  by_cases hj : j = l.nextSlot
  · subst hj
    simp [htail]
  · simp [hj]

theorem entryAt_push (h : WellFormed l path) (a : α) (j : Nat) :
    (l.push a).2.entryAt j = if j = l.nextSlot then some (l.push a).1 else l.entryAt j := by
  simp only [SlotList.entryAt, h.slots_push]
  by_cases hj : j = l.nextSlot
  · simp [hj, SlotList.push, nextEntry]
  · cases hs : l.slots[j]? with
    | none => simp [hj]
    | some s =>
      simp only [hj, if_false, Option.map_some, Option.bind_some]
      split <;> rfl

theorem lt_size_push (h : WellFormed l path) (a : α) (j : Nat) :
    j < (l.push a).2.slots.size ↔ j = l.nextSlot ∨ j < l.slots.size := by
  have hslots := h.slots_push a j
  rw [← not_iff_not, Nat.not_lt, ← Array.getElem?_eq_none_iff, hslots]
  by_cases hj : j = l.nextSlot
  · simp [hj]
  · simp [hj]

theorem linked_push (h : WellFormed l path) (a : α) :
    Linked (l.push a).2 (path ++ [l.nextSlot]) := by
  obtain ⟨hhead, htail, -⟩ := ends_push l a
  constructor
  · rw [List.nodup_append_comm]
    exact List.nodup_cons.mpr ⟨h.nextSlot_notMem, h.nodup⟩
  · rw [hhead, h.tail, h.head]
    cases path <;> simp
  · rw [htail]
    simp
  · intro before i after hp
    -- The slot is the new one, or it was there before the new one was linked to the end.
    rcases List.eq_nil_or_concat after with rfl | ⟨after, k, rfl⟩
    · obtain ⟨rfl, hi⟩ := List.append_inj' hp rfl
      cases hi
      exact ⟨a, _, by rw [h.slots_push, if_pos rfl, h.tail]; rfl⟩
    · rw [List.concat_eq_append, ← List.cons_append, ← List.append_assoc] at hp
      obtain ⟨rfl, hk⟩ := List.append_inj' hp rfl
      cases hk
      obtain ⟨v, g, hs⟩ := h.slot before i after rfl
      have hne : i ≠ l.nextSlot := by
        intro hi
        exact h.nextSlot_notMem (by simp [← hi])
      refine ⟨v, g, ?_⟩
      rw [h.slots_push, if_neg hne, hs, Option.map_some, h.tail]
      by_cases hlast : after = []
      · subst hlast
        simp
      · rw [if_neg (mt (getLast?_eq_some_iff_of_nodup h.nodup).mp hlast)]
        cases after with
        | nil => contradiction
        | cons k after => rfl

theorem mem_free_tail (h : WellFormed l path) (i : Nat) :
    i ∈ l.free.tail ↔ i ∈ l.free ∧ i ≠ l.nextSlot := by
  rcases h.nextSlot_cases with ⟨hfree, -⟩ | ⟨hfree, -⟩
  · simp [hfree]
  · have hnodup := h.free_nodup
    rw [hfree, List.nodup_cons] at hnodup
    constructor
    · intro hi
      refine ⟨List.mem_of_mem_tail hi, ?_⟩
      rintro rfl
      exact hnodup.1 hi
    · rintro ⟨hi, hne⟩
      rw [hfree, List.mem_cons] at hi
      exact hi.resolve_left hne

theorem push (h : WellFormed l path) (a : α) :
    WellFormed (l.push a).2 (path ++ [l.nextSlot]) := by
  constructor
  · exact h.linked_push a
  · rw [free_push]
    exact h.free_nodup.tail
  · intro i
    rw [free_push, h.mem_free_tail, h.mem_free, h.lt_size_push, h.entryAt_push]
    by_cases hi : i = l.nextSlot
    · simp [hi]
    · simp [hi]
  · intro i hi
    rw [h.entryAt_push] at hi
    by_cases hnext : i = l.nextSlot
    · simp [hnext]
    · rw [if_neg hnext] at hi
      simp [h.occupied i hi]
  · simp [(ends_push l a).2.2, h.length]

theorem entries_push (h : WellFormed l path) (a : α) :
    (l.push a).2.entries = l.entries ++ [(l.push a).1] := by
  have hold : ∀ i ∈ path, (l.push a).2.entryAt i = l.entryAt i := by
    intro i hi
    rw [h.entryAt_push, if_neg]
    rintro rfl
    exact h.nextSlot_notMem hi
  rw [(h.push a).entries_eq, h.entries_eq, List.filterMap_append, List.filterMap_congr hold]
  simp [h.entryAt_push]

end WellFormed

theorem getElem?_vacate (l : SlotList α) {i : Nat} {s : Slot α} (hi : i < l.slots.size)
    (hprev : s.prev ≠ some i) (hnext : s.next ≠ some i) (j : Nat) :
    (l.vacate i s).slots[j]? =
      if j = i then some ⟨none, s.generation, none, none⟩
      else l.slots[j]?.map fun t =>
        { t with
          next := if s.prev = some j then s.next else t.next
          prev := if s.next = some j then s.prev else t.prev } := by
  simp only [vacate, getElem?_linkPrev, getElem?_linkNext, Array.getElem?_setIfInBounds]
  by_cases hj : j = i
  · subst hj
    simp [hi, hprev, hnext]
  · rw [if_neg (Ne.symm hj), if_neg hj, Option.map_map]
    congr 1
    funext t
    by_cases hp : s.prev = some j <;> by_cases hn : s.next = some j <;> simp [hp, hn]

@[simp] theorem size_vacate (l : SlotList α) (i : Nat) (s : Slot α) :
    (l.vacate i s).slots.size = l.slots.size := by
  cases hp : s.prev <;> cases hn : s.next <;> simp [vacate, linkNext, linkPrev, hp, hn]

theorem ends_vacate (l : SlotList α) (i : Nat) (s : Slot α) :
    (l.vacate i s).head = (if s.prev = none then s.next else l.head) ∧
      (l.vacate i s).tail = (if s.next = none then s.prev else l.tail) ∧
        (l.vacate i s).free = i :: l.free ∧ (l.vacate i s).length = l.length - 1 := by
  simp [vacate, head_linkNext, tail_linkPrev]

theorem remove_of_eq_false {i : Nat} {g : UInt32} (h : (l.remove i g).1 = false) :
    (l.remove i g).2 = l := by
  revert h
  simp only [remove]
  split
  · simp
  · split <;> simp

namespace WellFormed

section
variable {before after : List Nat} {i : Nat}

theorem notMem_sides (h : WellFormed l (before ++ i :: after)) : i ∉ before ∧ i ∉ after := by
  have hnodup := h.nodup
  rw [List.nodup_middle, List.nodup_cons, List.mem_append, not_or] at hnodup
  exact hnodup.1

theorem slots_vacate (h : WellFormed l (before ++ i :: after)) {s : Slot α}
    (hs : l.slots[i]? = some s) (j : Nat) :
    (l.vacate i s).slots[j]? =
      if j = i then some ⟨none, s.generation, none, none⟩
      else l.slots[j]?.map fun t =>
        { t with
          next := if before.getLast? = some j then after.head? else t.next
          prev := if after.head? = some j then before.getLast? else t.prev } := by
  obtain ⟨v, g, hlinks⟩ := h.slot before i after rfl
  rw [hs] at hlinks
  cases hlinks
  apply getElem?_vacate l (Array.getElem?_eq_some_iff.mp hs).1
  · exact fun hlast => h.notMem_sides.1 (List.mem_of_getLast? hlast)
  · exact fun hhead => h.notMem_sides.2 (List.mem_of_head? hhead)

theorem entryAt_vacate (h : WellFormed l (before ++ i :: after)) {s : Slot α}
    (hs : l.slots[i]? = some s) (j : Nat) :
    (l.vacate i s).entryAt j = if j = i then none else l.entryAt j := by
  simp only [SlotList.entryAt, h.slots_vacate hs]
  by_cases hj : j = i
  · simp [hj]
  · cases ht : l.slots[j]? <;> simp [hj]

theorem linked_vacate (h : WellFormed l (before ++ i :: after)) {s : Slot α}
    (hs : l.slots[i]? = some s) : Linked (l.vacate i s) (before ++ after) := by
  obtain ⟨hhead, htail, -⟩ := ends_vacate l i s
  have hnodup := h.nodup
  rw [List.nodup_middle, List.nodup_cons, List.nodup_append] at hnodup
  obtain ⟨hout, hbefore, hafter, hdisjoint⟩ := hnodup
  have hlinks : s.prev = before.getLast? ∧ s.next = after.head? := by
    obtain ⟨v, g, hlinks⟩ := h.slot before i after rfl
    rw [hs] at hlinks
    cases hlinks
    exact ⟨rfl, rfl⟩
  constructor
  · exact List.nodup_append.mpr ⟨hbefore, hafter, hdisjoint⟩
  · rw [hhead, h.head, hlinks.1, hlinks.2]
    cases before <;> simp
  · rw [htail, h.tail, hlinks.1, hlinks.2]
    cases after <;> simp [List.getLast?_append]
  · intro front k back hp
    have hk : k ∈ before ++ after := by simp [hp]
    have hki : k ≠ i := by
      rintro rfl
      exact hout hk
    -- A slot keeps its links, unless its neighbour on one side was taken out.
    rcases split_append hp with ⟨mid, rfl, rfl⟩ | ⟨mid, rfl, rfl⟩
    · obtain ⟨v, g, ht⟩ := h.slot front k (mid ++ i :: after) (by simp)
      have hnext : after.head? ≠ some k := by
        intro hhead
        exact hdisjoint k (by simp) k (List.mem_of_head? hhead) rfl
      refine ⟨v, g, ?_⟩
      rw [h.slots_vacate hs, if_neg hki, ht, Option.map_some, if_neg hnext]
      by_cases hmid : mid = []
      · subst hmid
        simp
      · rw [if_neg (mt (getLast?_eq_some_iff_of_nodup hbefore).mp hmid)]
        cases mid with
        | nil => contradiction
        | cons m mid => rfl
    · obtain ⟨v, g, ht⟩ := h.slot (before ++ i :: mid) k back (by simp)
      have hprev : before.getLast? ≠ some k := by
        intro hlast
        exact hdisjoint k (List.mem_of_getLast? hlast) k (by simp) rfl
      refine ⟨v, g, ?_⟩
      rw [h.slots_vacate hs, if_neg hki, ht, Option.map_some, if_neg hprev]
      by_cases hmid : mid = []
      · subst hmid
        simp
      · rw [if_neg (mt (head?_eq_some_iff_of_nodup hafter).mp hmid)]
        cases mid with
        | nil => contradiction
        | cons m mid => simp [List.getLast?_append]

theorem vacate (h : WellFormed l (before ++ i :: after)) {s : Slot α}
    (hs : l.slots[i]? = some s) : WellFormed (l.vacate i s) (before ++ after) := by
  obtain ⟨-, -, hfree, hlength⟩ := ends_vacate l i s
  have hi : i < l.slots.size := (Array.getElem?_eq_some_iff.mp hs).1
  constructor
  · exact h.linked_vacate hs
  · rw [hfree, List.nodup_cons]
    refine ⟨?_, h.free_nodup⟩
    intro hmem
    obtain ⟨e, he, -⟩ := h.entryAt (i := i) (by simp)
    simp [((h.mem_free i).mp hmem).2] at he
  · intro j
    rw [hfree, List.mem_cons, h.mem_free, size_vacate, h.entryAt_vacate hs]
    by_cases hj : j = i
    · simp [hj, hi]
    · simp [hj]
  · intro j hj
    rw [h.entryAt_vacate hs] at hj
    by_cases hji : j = i
    · simp [hji] at hj
    · rw [if_neg hji] at hj
      have hmem := h.occupied j hj
      simpa [hji] using hmem
  · rw [hlength, h.length]
    simp

theorem entries_vacate (h : WellFormed l (before ++ i :: after)) {s : Slot α}
    (hs : l.slots[i]? = some s) :
    (l.vacate i s).entries = l.entries.filter fun e => e.slot ≠ i := by
  -- On both sides of the slot the filter takes nothing out.
  have hkept : ∀ is : List Nat, i ∉ is → is.filterMap (l.vacate i s).entryAt =
      (is.filterMap l.entryAt).filter fun e => e.slot ≠ i := by
    intro is his
    rw [List.filter_filterMap]
    apply List.filterMap_congr
    intro j hj
    have hji : j ≠ i := by
      rintro rfl
      exact his hj
    rw [h.entryAt_vacate hs, if_neg hji]
    cases he : l.entryAt j with
    | none => rfl
    | some e =>
      have hslot := slot_of_entryAt he
      simp [Option.filter, hslot, hji]
  obtain ⟨e, he, hslot⟩ := h.entryAt (i := i) (by simp)
  obtain ⟨hbefore, hafter⟩ := h.notMem_sides
  rw [(h.vacate hs).entries_eq, h.entries_eq, List.filterMap_append, hkept before hbefore,
    hkept after hafter, List.filterMap_append, List.filterMap_cons_some he]
  simp [hslot]

end

theorem length_entries (h : WellFormed l path) : l.entries.length = l.length := by
  rw [h.length, ← h.slots_entries, List.length_map]

theorem mem_entries_iff (h : WellFormed l path) {e : Entry α} :
    e ∈ l.entries ↔ l.entryAt e.slot = some e := by
  rw [h.entries_eq, List.mem_filterMap]
  constructor
  · rintro ⟨i, -, he⟩
    rwa [slot_of_entryAt he]
  · intro he
    exact ⟨e.slot, h.occupied e.slot (by simp [he]), he⟩

theorem remove_cases (h : WellFormed l path) (i : Nat) (g : UInt32) :
    (l.remove i g = (false, l) ∧ ∀ e ∈ l.entries, e.key ≠ (i, g)) ∨
      ∃ before after s e, path = before ++ i :: after ∧ l.slots[i]? = some s ∧
        l.entryAt i = some e ∧ e.key = (i, g) ∧ l.remove i g = (true, l.vacate i s) := by
  have hkey : ∀ e ∈ l.entries, e.key = (i, g) → l.entryAt i = some e ∧ e.generation = g := by
    intro e he hek
    simp only [Entry.key, Prod.mk.injEq] at hek
    exact ⟨hek.1 ▸ h.mem_entries_iff.mp he, hek.2⟩
  simp only [SlotList.remove]
  cases hs : l.slots[i]? with
  | none =>
    refine .inl ⟨rfl, ?_⟩
    intro e he hek
    have hentry := (hkey e he hek).1
    simp [SlotList.entryAt, hs] at hentry
  | some s =>
    by_cases hlive : s.generation = g ∧ s.value.isSome
    -- A live slot is on the path, which is split there.
    · obtain ⟨v, hv⟩ := Option.isSome_iff_exists.mp hlive.2
      have hentry : l.entryAt i = some ⟨i, s.generation, v⟩ := by
        simp [SlotList.entryAt, hs, hv]
      obtain ⟨before, after, rfl⟩ := List.append_of_mem (h.occupied i (by simp [hentry]))
      refine .inr ⟨before, after, s, _, rfl, rfl, hentry, ?_, by simp [hlive]⟩
      simp [Entry.key, hlive.1]
    · refine .inl ⟨by simp [hlive], ?_⟩
      intro e he hek
      obtain ⟨hentry, hg⟩ := hkey e he hek
      simp only [SlotList.entryAt, hs, Option.bind_some, Option.map_eq_some_iff] at hentry
      obtain ⟨v, hv, rfl⟩ := hentry
      exact hlive ⟨hg, by simp [hv]⟩

theorem remove_eq_true_iff (h : WellFormed l path) (i : Nat) (g : UInt32) :
    (l.remove i g).1 = true ↔ (i, g) ∈ l.entries.map Entry.key := by
  rcases h.remove_cases i g with ⟨hr, hnone⟩ | ⟨before, after, s, e, -, -, he, hkey, hr⟩
  · rw [hr]
    simpa using hnone
  · rw [hr]
    have hslot := slot_of_entryAt he
    simp only [true_iff, List.mem_map]
    exact ⟨e, h.mem_entries_iff.mpr (hslot ▸ he), hkey⟩

theorem remove (h : WellFormed l path) (i : Nat) (g : UInt32) :
    ∃ path', WellFormed (l.remove i g).2 path' := by
  rcases h.remove_cases i g with ⟨hr, -⟩ | ⟨before, after, s, e, rfl, hs, -, -, hr⟩
  · rw [hr]
    exact ⟨path, h⟩
  · rw [hr]
    exact ⟨before ++ after, h.vacate hs⟩

theorem entries_remove (h : WellFormed l path) (i : Nat) (g : UInt32) :
    (l.remove i g).2.entries = l.entries.filter fun e => e.key ≠ (i, g) := by
  rcases h.remove_cases i g with ⟨hr, hnone⟩ | ⟨before, after, s, e, rfl, hs, he, hkey, hr⟩
  · rw [hr, eq_comm, List.filter_eq_self]
    simpa using hnone
  · rw [hr, h.entries_vacate hs]
    apply List.filter_congr
    intro f hf
    have hentry := h.mem_entries_iff.mp hf
    rw [decide_eq_decide, not_iff_not]
    constructor
    · intro hslot
      rw [hslot, he] at hentry
      cases hentry
      exact hkey
    · intro hfk
      exact congrArg Prod.fst hfk

theorem size_remove (h : WellFormed l path) (i : Nat) (g : UInt32) :
    (l.remove i g).2.slots.size = l.slots.size := by
  rcases h.remove_cases i g with ⟨hr, -⟩ | ⟨before, after, s, e, -, -, -, -, hr⟩
  · rw [hr]
  · rw [hr, size_vacate]

theorem generation_remove (h : WellFormed l path) (i : Nat) (g : UInt32) (j : Nat) :
    (l.remove i g).2.slots[j]?.map Slot.generation = l.slots[j]?.map Slot.generation := by
  rcases h.remove_cases i g with ⟨hr, -⟩ | ⟨before, after, s, e, rfl, hs, -, -, hr⟩
  · rw [hr]
  · rw [hr, h.slots_vacate hs]
    by_cases hj : j = i
    · simp [hj, hs]
    · cases ht : l.slots[j]? <;> simp [hj]

end WellFormed

section
variable (f : α → β)

def Slot.map (s : Slot α) : Slot β := ⟨s.value.map f, s.generation, s.prev, s.next⟩

def Entry.map (e : Entry α) : Entry β := ⟨e.slot, e.generation, f e.value⟩

def map (l : SlotList α) : SlotList β :=
  ⟨l.slots.map (Slot.map f), l.free, l.head, l.tail, l.length⟩

theorem map_empty : (empty : SlotList α).map f = empty := by simp [map, empty]

theorem getElem?_map (l : SlotList α) (i : Nat) :
    (l.map f).slots[i]? = l.slots[i]?.map (Slot.map f) :=
  Array.getElem?_map

theorem entryAt_map (l : SlotList α) (i : Nat) :
    (l.map f).entryAt i = (l.entryAt i).map (Entry.map f) := by
  simp only [entryAt, getElem?_map]
  cases l.slots[i]? with
  | none => rfl
  | some s => cases hv : s.value <;> simp [Slot.map, Entry.map, hv]

theorem follow_map (l : SlotList α) (n : Nat) (cursor : Option Nat) :
    (l.map f).follow n cursor = (l.follow n cursor).map (Entry.map f) := by
  induction n generalizing cursor with
  | zero => cases cursor <;> rfl
  | succ n ih =>
    cases cursor with
    | none => rfl
    | some i =>
      simp only [follow, getElem?_map, entryAt_map]
      cases l.slots[i]? with
      | none => rfl
      | some s =>
        have hrest := ih s.next
        simp only [Option.map_some, List.map_append, Slot.map, hrest]
        cases l.entryAt i <;> rfl

theorem entries_map (l : SlotList α) : (l.map f).entries = l.entries.map (Entry.map f) := by
  have hsize : (l.map f).slots.size = l.slots.size := Array.size_map
  rw [entries, entries, hsize]
  exact follow_map f l _ l.head

theorem modify_map (slots : Array (Slot α)) (i : Nat) (g : Slot α → Slot α) (g' : Slot β → Slot β)
    (hg : ∀ s, (g s).map f = g' (s.map f)) :
    (slots.map (Slot.map f)).modify i g' = (slots.modify i g).map (Slot.map f) := by
  apply Array.ext_getElem?
  intro j
  simp only [Array.getElem?_modify, Array.getElem?_map]
  by_cases hij : i = j
  · cases slots[j]? <;> simp [hij, hg]
  · simp [hij]

theorem linkNext_map (l : SlotList α) (i next : Option Nat) :
    (l.map f).linkNext i next = (l.linkNext i next).map f := by
  cases i with
  | none => rfl
  | some i =>
    simp only [linkNext, map]
    congr 1
    exact modify_map f l.slots i _ _ fun _ => rfl

theorem linkPrev_map (l : SlotList α) (i prev : Option Nat) :
    (l.map f).linkPrev i prev = (l.linkPrev i prev).map f := by
  cases i with
  | none => rfl
  | some i =>
    simp only [linkPrev, map]
    congr 1
    exact modify_map f l.slots i _ _ fun _ => rfl

theorem push_map (l : SlotList α) (a : α) :
    (l.map f).push (f a) = ((l.push a).1.map f, (l.push a).2.map f) := by
  have hslot : (l.map f).nextSlot = l.nextSlot := by simp [nextSlot, map]
  have hentry : (l.map f).nextEntry (f a) = (l.nextEntry a).map f := by
    simp only [nextEntry, hslot, nextGeneration, getElem?_map, Entry.map]
    cases l.slots[l.nextSlot]? <;> rfl
  have hfill : ∀ e : Entry α, (l.map f).fill (e.map f) = (l.fill e).map f := by
    intro e
    cases hfree : l.free <;>
      simp [fill, map, hfree, Entry.map, Slot.map, Array.map_push, Array.map_setIfInBounds]
  simp only [push, hslot, hentry, hfill, append]
  rw [show ((l.fill (l.nextEntry a)).map f).tail = (l.fill (l.nextEntry a)).tail from rfl,
    linkNext_map]
  rfl

theorem remove_map (l : SlotList α) (i : Nat) (g : UInt32) :
    (l.map f).remove i g = ((l.remove i g).1, (l.remove i g).2.map f) := by
  have hvacate : ∀ s : Slot α, (l.map f).vacate i (s.map f) = (l.vacate i s).map f := by
    intro s
    have hempty : (l.map f).slots.setIfInBounds i ⟨none, s.generation, none, none⟩ =
        (l.slots.setIfInBounds i ⟨none, s.generation, none, none⟩).map (Slot.map f) := by
      simp [map, Array.map_setIfInBounds, Slot.map]
    simp only [vacate, Slot.map, hempty]
    rw [show ∀ slots : Array (Slot α), { l.map f with slots := slots.map (Slot.map f) } =
      ({ l with slots := slots } : SlotList α).map f from fun _ => rfl, linkNext_map, linkPrev_map]
    rfl
  simp only [remove, getElem?_map]
  cases l.slots[i]? with
  | none => rfl
  | some s =>
    simp only [Option.map_some, hvacate]
    simp only [Slot.map, Option.isSome_map]
    split <;> rfl

end

/-- The list has come about by these registrations, oldest first, and by removals of these slots and
generations. -/
structure Records (l : SlotList α) (issued : List (Entry α)) (removed : List (Nat × UInt32)) :
    Prop where
  wellFormed : ∃ path, WellFormed l path
  size : l.slots.size ≤ issued.length
  generation : ∀ (i : Nat) (s : Slot α), l.slots[i]? = some s → s.generation.toNat < issued.length
  known : ∀ e ∈ issued, ∃ s : Slot α, l.slots[e.slot]? = some s ∧ e.generation ≤ s.generation
  removed_issued : ∀ k ∈ removed, k ∈ issued.map Entry.key
  distinct : (issued.map Entry.key).Nodup
  entries : l.entries = issued.filter fun e => e.key ∉ removed

theorem records_empty : Records (empty : SlotList α) [] [] where
  wellFormed := ⟨[], wellFormed_empty⟩
  size := Nat.le_refl 0
  generation i s h := by simp [empty] at h
  known e h := by simp at h
  removed_issued k h := by simp at h
  distinct := List.nodup_nil
  entries := rfl

namespace Records
variable {issued : List (Entry α)} {removed : List (Nat × UInt32)}

theorem nextGeneration (h : Records l issued removed) (hfew : issued.length + 1 < UInt32.size)
    {s : Slot α} (hs : l.slots[l.nextSlot]? = some s) :
    (l.nextGeneration l.nextSlot).toNat = s.generation.toNat + 1 := by
  have hlt := h.generation _ s hs
  simp only [SlotList.nextGeneration, hs, UInt32.toNat_add]
  rw [show (1 : UInt32).toNat = 1 from rfl, Nat.mod_eq_of_lt]
  simp only [UInt32.size] at hfew
  omega

theorem fresh (h : Records l issued removed) (hfew : issued.length + 1 < UInt32.size) (a : α) :
    (l.push a).1.key ∉ issued.map Entry.key := by
  intro hmem
  obtain ⟨e, he, hkey⟩ := List.mem_map.mp hmem
  simp only [Entry.key, SlotList.push, nextEntry, Prod.mk.injEq] at hkey
  -- Whoever had the slot before had a lower generation.
  obtain ⟨s, hs, hle⟩ := h.known e he
  rw [hkey.1] at hs
  have hnext := h.nextGeneration hfew hs
  rw [hkey.2, UInt32.le_iff_toNat_le] at hle
  omega

theorem push (h : Records l issued removed) (hfew : issued.length + 1 < UInt32.size) (a : α) :
    Records (l.push a).2 (issued ++ [(l.push a).1]) removed := by
  obtain ⟨path, hwell⟩ := h.wellFormed
  have hfresh := h.fresh hfew a
  constructor
  · exact ⟨_, hwell.push a⟩
  · have hsize := size_push_le l a
    have hold := h.size
    rw [List.length_append, List.length_singleton]
    omega
  · -- Every registration raises one generation by one, so none can be ahead of their number.
    intro i s hs
    rw [hwell.slots_push] at hs
    rw [List.length_append, List.length_singleton]
    by_cases hi : i = l.nextSlot
    · rw [if_pos hi] at hs
      cases hs
      dsimp only
      cases ht : l.slots[l.nextSlot]? with
      | none => simp [SlotList.nextGeneration, ht]
      | some t =>
        have hlt := h.generation _ t ht
        rw [h.nextGeneration hfew ht]
        omega
    · rw [if_neg hi, Option.map_eq_some_iff] at hs
      obtain ⟨t, ht, rfl⟩ := hs
      have hlt := h.generation i t ht
      split <;> exact Nat.lt_succ_of_lt hlt
  · intro e he
    rcases List.mem_append.mp he with he | he
    · obtain ⟨s, hs, hle⟩ := h.known e he
      rw [hwell.slots_push, hs]
      by_cases hi : e.slot = l.nextSlot
      · rw [if_pos hi]
        refine ⟨_, rfl, ?_⟩
        rw [hi] at hs
        have hnext := h.nextGeneration hfew hs
        rw [UInt32.le_iff_toNat_le] at hle ⊢
        dsimp only
        omega
      · rw [if_neg hi]
        refine ⟨_, rfl, ?_⟩
        split <;> exact hle
    · rw [List.mem_singleton] at he
      subst he
      refine ⟨_, (hwell.slots_push a _).trans (if_pos rfl), UInt32.le_refl _⟩
  · intro k hk
    rw [List.map_append, List.mem_append]
    exact .inl (h.removed_issued k hk)
  · rw [List.map_append, List.map_singleton, List.nodup_append_comm]
    exact List.nodup_cons.mpr ⟨hfresh, h.distinct⟩
  · have hlive : (l.push a).1.key ∉ removed := fun hk => hfresh (h.removed_issued _ hk)
    rw [hwell.entries_push, h.entries, List.filter_append]
    simp [hlive]

theorem remove (h : Records l issued removed) {i : Nat} {g : UInt32}
    (hissued : (i, g) ∈ issued.map Entry.key) :
    Records (l.remove i g).2 issued ((i, g) :: removed) := by
  obtain ⟨path, hwell⟩ := h.wellFormed
  have hkept : ∀ (j : Nat) (s : Slot α), (l.remove i g).2.slots[j]? = some s →
      ∃ t : Slot α, l.slots[j]? = some t ∧ t.generation = s.generation := by
    intro j s hs
    have hgen := hwell.generation_remove i g j
    rw [hs, Option.map_some, eq_comm, Option.map_eq_some_iff] at hgen
    exact hgen
  constructor
  · exact hwell.remove i g
  · rw [hwell.size_remove]
    exact h.size
  · intro j s hs
    obtain ⟨t, ht, hgen⟩ := hkept j s hs
    rw [← hgen]
    exact h.generation j t ht
  · intro e he
    obtain ⟨t, ht, hle⟩ := h.known e he
    have hgen := hwell.generation_remove i g e.slot
    rw [ht, Option.map_some, Option.map_eq_some_iff] at hgen
    obtain ⟨s, hs, hst⟩ := hgen
    exact ⟨s, hs, hst ▸ hle⟩
  · intro k hk
    rcases List.mem_cons.mp hk with rfl | hk
    · exact hissued
    · exact h.removed_issued k hk
  · exact h.distinct
  · rw [hwell.entries_remove, h.entries, List.filter_filter]
    apply List.filter_congr
    intro e _
    simp [not_or]

end Records
end Mc68000.SlotList
