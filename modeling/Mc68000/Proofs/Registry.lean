import Mc68000.Machine.Basic
import Mc68000.Proofs.SlotList
import Mathlib.Algebra.BigOperators.Group.List.Basic
import Mathlib.Algebra.GroupWithZero.Nat

/-!
# Registrations of hooks

All that a program can see of the hooks are the handles that it got, which of them it gave back, and
who is called when. The registry represents this history: every list has the registrations that were
made for it and not taken back, in the order in which they were made, and a handle names one of them
for good.
-/

namespace Mc68000
variable {β σ : Type}

inductive HookPoint where
  | exception (vector : ExceptionVector)
  | jsr
  | jsrIndirect
  | link
  | rte
  | rts
  | newPc
  | newSp
  deriving DecidableEq

namespace HookPoint

def kind : HookPoint → HookKind
  | .exception _ => .exception
  | .jsr => .jsr
  | .jsrIndirect => .jsrIndirect
  | .link => .link
  | .rte => .rte
  | .rts => .rts
  | .newPc => .newPc
  | .newSp => .newSp

def key : HookPoint → UInt8
  | .exception v => v
  | _ => 0

def handle {α : Type} (p : HookPoint) (e : SlotList.Entry α) : HookHandle :=
  Registry.handle p.kind p.key e

theorem exists_kind (kind : HookKind) : ∃ p : HookPoint, p.kind = kind := by
  cases kind with
  | exception => exact ⟨.exception 0, rfl⟩
  | jsr => exact ⟨.jsr, rfl⟩
  | jsrIndirect => exact ⟨.jsrIndirect, rfl⟩
  | link => exact ⟨.link, rfl⟩
  | rte => exact ⟨.rte, rfl⟩
  | rts => exact ⟨.rts, rfl⟩
  | newPc => exact ⟨.newPc, rfl⟩
  | newSp => exact ⟨.newSp, rfl⟩

theorem kind_eq_iff {p : HookPoint} (hp : p.kind ≠ .exception) (q : HookPoint) :
    q.kind = p.kind ↔ q = p := by
  cases p with
  | exception v => exact absurd rfl hp
  | jsr | jsrIndirect | link | rte | rts | newPc | newSp => cases q <;> simp [kind]

end HookPoint

def HookHandle.point (h : HookHandle) : HookPoint :=
  match h.kind with
  | .exception => .exception h.key
  | .jsr => .jsr
  | .jsrIndirect => .jsrIndirect
  | .link => .link
  | .rte => .rte
  | .rts => .rts
  | .newPc => .newPc
  | .newSp => .newSp

def Hook.point : Hook β σ → HookPoint
  | .exception v _ => .exception v
  | .jsr _ => .jsr
  | .jsrIndirect _ => .jsrIndirect
  | .link _ => .link
  | .rte _ => .rte
  | .rts _ => .rts
  | .newPc _ => .newPc
  | .newSp _ => .newSp

def Hook.respond : Hook β σ → HookCall → Scene β σ → Bool × Scene β σ
  | .exception _ f, .exception v => f v
  | .jsr f, .jsr ret dest => Registry.answering (f ret dest)
  | .jsrIndirect f, .jsrIndirect ret dest => Registry.answering (f ret dest)
  | .link f, .link size => Registry.observing (f size)
  | .rte f, .rte dest => Registry.answering (f dest)
  | .rts f, .rts dest => Registry.answering (f dest)
  | .newPc f, .newPc pc => Registry.observing (f pc)
  | .newSp f, .newSp change => Registry.observing (f change)
  | _, _ => fun s => (false, s)

def HookCall.point : HookCall → HookPoint
  | .exception v => .exception v
  | .jsr .. => .jsr
  | .jsrIndirect .. => .jsrIndirect
  | .link _ => .link
  | .rte _ => .rte
  | .rts _ => .rts
  | .newPc _ => .newPc
  | .newSp _ => .newSp

namespace Registry

def list (r : Registry β σ) : HookPoint → SlotList (Hook β σ)
  | .exception v => (r.exception v).map (.exception v)
  | .jsr => r.jsr.map .jsr
  | .jsrIndirect => r.jsrIndirect.map .jsrIndirect
  | .link => r.link.map .link
  | .rte => r.rte.map .rte
  | .rts => r.rts.map .rts
  | .newPc => r.newPc.map .newPc
  | .newSp => r.newSp.map .newSp

/-- The live registrations of one list, in the order in which they are called. -/
def registrations (r : Registry β σ) (p : HookPoint) : List (HookHandle × Hook β σ) :=
  (r.list p).entries.map fun e => (p.handle e, e.value)

@[simp] theorem point_handle {α : Type} (p : HookPoint) (e : SlotList.Entry α) :
    (p.handle e).point = p := by
  cases p <;> rfl

theorem list_empty (p : HookPoint) : (empty : Registry β σ).list p = .empty := by
  cases p <;> exact SlotList.map_empty _

theorem list_setException (r : Registry β σ) (v : ExceptionVector)
    (l : SlotList (ExceptionHook β σ)) (p : HookPoint) :
    (r.setException v l).list p =
      if p = .exception v then l.map (.exception v) else r.list p := by
  cases p with
  | exception w =>
    by_cases hw : w = v
    · subst hw
      simp [list, setException]
    · simp [list, setException, hw]
  | jsr | jsrIndirect | link | rte | rts | newPc | newSp => simp [list, setException]

theorem handle_install (r : Registry β σ) (hook : Hook β σ) :
    (r.install hook).1 = hook.point.handle ((r.list hook.point).push hook).1 := by
  cases hook <;> simp only [Hook.point, list, SlotList.push_map] <;> rfl

theorem list_install (r : Registry β σ) (hook : Hook β σ) (p : HookPoint) :
    (r.install hook).2.list p =
      if p = hook.point then ((r.list p).push hook).2 else r.list p := by
  cases hook with
  | exception v f =>
    rw [show (r.install (.exception v f)).2 = r.setException v ((r.exception v).push f).2 from rfl,
      list_setException]
    by_cases hp : p = .exception v
    · subst hp
      simp [Hook.point, list, SlotList.push_map]
    · simp [Hook.point, hp]
  | jsr f | jsrIndirect f | link f | rte f | rts f | newPc f | newSp f =>
    cases p <;> simp [Hook.point, list, SlotList.push_map, install]

theorem fst_remove (r : Registry β σ) (h : HookHandle) :
    (r.remove h).1 = ((r.list h.point).remove h.slot h.generation).1 := by
  obtain ⟨kind, key, slot, generation⟩ := h
  cases kind <;> simp only [HookHandle.point, list, SlotList.remove_map] <;> rfl

theorem list_remove (r : Registry β σ) (h : HookHandle) (p : HookPoint) :
    (r.remove h).2.list p =
      if p = h.point then ((r.list p).remove h.slot h.generation).2 else r.list p := by
  obtain ⟨kind, key, slot, generation⟩ := h
  cases kind with
  | exception =>
    rw [show (r.remove ⟨.exception, key, slot, generation⟩).2 =
      r.setException key ((r.exception key).remove slot generation).2 from rfl, list_setException]
    by_cases hp : p = .exception key
    · subst hp
      simp [HookHandle.point, list, SlotList.remove_map]
    · simp [HookHandle.point, hp]
  | jsr | jsrIndirect | link | rte | rts | newPc | newSp =>
    cases p <;> simp [HookHandle.point, list, SlotList.remove_map, remove]

theorem remove_of_not_live (r : Registry β σ) {h : HookHandle} (hr : (r.remove h).1 = false) :
    (r.remove h).2 = r := by
  obtain ⟨kind, key, slot, generation⟩ := h
  cases kind with
  | exception =>
    have hlist := SlotList.remove_of_eq_false (l := r.exception key) hr
    simp only [remove, hlist, setException]
    congr 1
    funext w
    by_cases hw : w = key
    · simp [hw]
    · simp [hw]
  | jsr => simp only [remove, SlotList.remove_of_eq_false (l := r.jsr) hr]
  | jsrIndirect => simp only [remove, SlotList.remove_of_eq_false (l := r.jsrIndirect) hr]
  | link => simp only [remove, SlotList.remove_of_eq_false (l := r.link) hr]
  | rte => simp only [remove, SlotList.remove_of_eq_false (l := r.rte) hr]
  | rts => simp only [remove, SlotList.remove_of_eq_false (l := r.rts) hr]
  | newPc => simp only [remove, SlotList.remove_of_eq_false (l := r.newPc) hr]
  | newSp => simp only [remove, SlotList.remove_of_eq_false (l := r.newSp) hr]

theorem listeners_eq (r : Registry β σ) (call : HookCall) :
    r.listeners call = (r.registrations call.point).map fun x => ⟨x.1, x.2.respond call⟩ := by
  cases call <;>
    simp only [listeners, listenersOf, registrations, HookCall.point, list, SlotList.entries_map,
      List.map_map] <;> rfl

theorem vectors_nodup : vectors.Nodup := by
  apply List.Nodup.map_on ?_ List.nodup_range
  intro a ha b hb hab
  rw [List.mem_range] at ha hb
  have htoNat := congrArg UInt8.toNat hab
  simp only [Nat.toUInt8_eq, UInt8.toNat_ofNat'] at htoNat
  omega

theorem mem_vectors (v : ExceptionVector) : v ∈ vectors := by
  refine List.mem_map.mpr ⟨v.toNat, List.mem_range.mpr v.toNat_lt, ?_⟩
  simp

theorem sum_indicator (w : ExceptionVector) (vs : List ExceptionVector) :
    (vs.map fun v => if w = v then 1 else 0).sum = vs.count w := by
  induction vs with
  | nil => rfl
  | cons v vs ih =>
    rw [List.map_cons, List.sum_cons, ih, List.count_cons]
    by_cases hv : w = v
    · simp [hv, Nat.add_comm]
    · simp [hv, Ne.symm hv]

theorem sum_vectors {γ : Type} (point : γ → HookPoint) (xs : List γ) :
    (vectors.map fun v => (xs.filter fun x => point x = .exception v).length).sum =
      (xs.filter fun x => (point x).kind = .exception).length := by
  induction xs with
  | nil => simp
  | cons x xs ih =>
    have hcons : ∀ (p : γ → Prop) [DecidablePred p],
        ((x :: xs).filter fun x => p x).length =
          (if p x then 1 else 0) + (xs.filter fun x => p x).length := by
      intro p _
      by_cases hp : p x <;> simp [hp, Nat.add_comm]
    have hone : (vectors.map fun v => if point x = .exception v then 1 else 0).sum =
        if (point x).kind = .exception then 1 else 0 := by
      cases point x with
      | exception w =>
        have hcount := List.count_eq_one_of_mem vectors_nodup (mem_vectors w)
        simpa only [HookPoint.exception.injEq, HookPoint.kind, if_true, hcount]
          using sum_indicator w vectors
      | jsr | jsrIndirect | link | rte | rts | newPc | newSp => simp [HookPoint.kind]
    rw [List.map_congr_left fun v _ => hcons fun x => point x = .exception v, List.sum_map_add,
      hone, ih, hcons]

theorem count_exception (r : Registry β σ) :
    r.count .exception = (vectors.map fun v => (r.list (.exception v)).length).sum := by
  rw [List.sum_eq_foldl, List.foldl_map]
  rfl

theorem count_kind (r : Registry β σ) {p : HookPoint} (hp : p.kind ≠ .exception) :
    r.count p.kind = (r.list p).length := by
  cases p with
  | exception v => exact absurd rfl hp
  | jsr | jsrIndirect | link | rte | rts | newPc | newSp => rfl

/-- These hooks have been registered, oldest first, and these handles given back. A handle may be
given back more than once. -/
inductive Run : Registry β σ → List (HookHandle × Hook β σ) → List HookHandle → Prop
  | empty : Run empty [] []
  | install {r issued removed} (h : Run r issued removed) (hook : Hook β σ) :
    Run (r.install hook).2 (issued ++ [((r.install hook).1, hook)]) removed
  | remove {r issued removed} (h : Run r issued removed) {x : HookHandle × Hook β σ}
    (hx : x ∈ issued) : Run (r.remove x.1).2 issued (x.1 :: removed)

def entriesAt (p : HookPoint) (issued : List (HookHandle × Hook β σ)) :
    List (SlotList.Entry (Hook β σ)) :=
  (issued.filter fun x => x.2.point = p).map fun x => ⟨x.1.slot, x.1.generation, x.2⟩

def keysAt (p : HookPoint) (removed : List HookHandle) : List (Nat × UInt32) :=
  (removed.filter fun h => h.point = p).map fun h => (h.slot, h.generation)

/-- Every list has had fewer registrations than there are generations. -/
def Few (issued : List (HookHandle × Hook β σ)) : Prop :=
  ∀ p, (issued.filter fun x => x.2.point = p).length < UInt32.size

structure Tracked (r : Registry β σ) (issued : List (HookHandle × Hook β σ))
    (removed : List HookHandle) : Prop where
  records : ∀ p, (r.list p).Records (entriesAt p issued) (keysAt p removed)
  handle : ∀ x ∈ issued, x.1 = x.2.point.handle (⟨x.1.slot, x.1.generation, x.2⟩ : SlotList.Entry _)
  removed : ∀ h ∈ removed, h ∈ issued.map Prod.fst
  nodup : (issued.map Prod.fst).Nodup

namespace Tracked
variable {r : Registry β σ} {issued : List (HookHandle × Hook β σ)} {removed : List HookHandle}

theorem point (h : Tracked r issued removed) {x : HookHandle × Hook β σ} (hx : x ∈ issued) :
    x.1.point = x.2.point := by
  rw [h.handle x hx, point_handle]

theorem mem_keysAt_iff (h : Tracked r issued removed) {x : HookHandle × Hook β σ}
    (hx : x ∈ issued) :
    (x.1.slot, x.1.generation) ∈ keysAt x.2.point removed ↔ x.1 ∈ removed := by
  simp only [keysAt, List.mem_map, List.mem_filter, decide_eq_true_eq, Prod.mk.injEq]
  constructor
  · rintro ⟨k, ⟨hk, hpoint⟩, hslot, hgeneration⟩
    obtain ⟨y, hy, rfl⟩ := List.mem_map.mp (h.removed k hk)
    have heq : x.1 = y.1 := by
      rw [h.handle x hx, h.handle y hy, ← h.point hy, hpoint, hslot, hgeneration]
      rfl
    rwa [heq]
  · intro hx'
    exact ⟨x.1, ⟨hx', h.point hx⟩, rfl, rfl⟩

theorem mem_entriesAt {x : HookHandle × Hook β σ} (hx : x ∈ issued) :
    (x.1.slot, x.1.generation) ∈ (entriesAt x.2.point issued).map SlotList.Entry.key := by
  simp only [entriesAt, List.map_map, List.mem_map, List.mem_filter, decide_eq_true_eq]
  exact ⟨x, ⟨hx, rfl⟩, rfl⟩

theorem empty : Tracked (.empty : Registry β σ) [] [] where
  records p := by
    rw [list_empty]
    exact SlotList.records_empty
  handle x hx := by simp at hx
  removed h hh := by simp at hh
  nodup := List.nodup_nil

theorem install (h : Tracked r issued removed) (hook : Hook β σ)
    (hfew : Few (issued ++ [((r.install hook).1, hook)])) :
    Tracked (r.install hook).2 (issued ++ [((r.install hook).1, hook)]) removed := by
  have hroom : (entriesAt hook.point issued).length + 1 < UInt32.size := by
    simpa [entriesAt] using hfew hook.point
  have hhandle := r.handle_install hook
  have hfresh := (h.records hook.point).fresh hroom hook
  constructor
  · intro p
    rw [list_install]
    by_cases hp : p = hook.point
    · subst hp
      have hpush := (h.records hook.point).push hroom hook
      have hentries : entriesAt hook.point (issued ++ [((r.install hook).1, hook)]) =
          entriesAt hook.point issued ++ [((r.list hook.point).push hook).1] := by
        simp only [entriesAt, List.filter_append, List.map_append, hhandle]
        simp
        rfl
      rwa [if_pos rfl, hentries]
    · simpa [entriesAt, hp, Ne.symm hp] using h.records p
  · intro x hx
    rcases List.mem_append.mp hx with hx | hx
    · exact h.handle x hx
    · rw [List.mem_singleton] at hx
      subst hx
      rw [hhandle]
      rfl
  · intro k hk
    rw [List.map_append, List.mem_append]
    exact .inl (h.removed k hk)
  · rw [List.map_append, List.map_singleton, List.nodup_append_comm]
    refine List.nodup_cons.mpr ⟨?_, h.nodup⟩
    intro hmem
    obtain ⟨x, hx, heq⟩ := List.mem_map.mp hmem
    have hpoint : x.2.point = hook.point := by
      rw [← h.point hx, heq, hhandle, point_handle]
    apply hfresh
    have hold := mem_entriesAt hx
    rwa [hpoint, heq, hhandle] at hold

theorem remove (h : Tracked r issued removed) {x : HookHandle × Hook β σ} (hx : x ∈ issued) :
    Tracked (r.remove x.1).2 issued (x.1 :: removed) := by
  constructor
  · intro p
    rw [list_remove]
    by_cases hp : p = x.1.point
    · subst hp
      have hremove := (h.records x.1.point).remove (h.point hx ▸ mem_entriesAt hx)
      rw [if_pos rfl]
      simpa [keysAt] using hremove
    · simpa [keysAt, hp, Ne.symm hp] using h.records p
  · exact h.handle
  · intro k hk
    rcases List.mem_cons.mp hk with rfl | hk
    · exact List.mem_map_of_mem hx
    · exact h.removed k hk
  · exact h.nodup

end Tracked

theorem Run.tracked {r : Registry β σ} {issued : List (HookHandle × Hook β σ)}
    {removed : List HookHandle} (h : Run r issued removed) (hfew : Few issued) :
    Tracked r issued removed := by
  induction h with
  | empty => exact .empty
  | install _ hook ih =>
    refine (ih ?_).install hook hfew
    · intro p
      have hp := hfew p
      rw [List.filter_append, List.length_append] at hp
      exact Nat.lt_of_le_of_lt (Nat.le_add_right _ _) hp
  | remove _ hx ih => exact (ih hfew).remove hx

def live (issued : List (HookHandle × Hook β σ)) (removed : List HookHandle) :
    List (HookHandle × Hook β σ) :=
  issued.filter fun x => x.1 ∉ removed

/-- The registry shows what is left of its history, and nothing else. -/
structure Represents (r : Registry β σ) (issued : List (HookHandle × Hook β σ))
    (removed : List HookHandle) : Prop where
  handles_differ : (issued.map Prod.fst).Nodup
  slot_lt : ∀ x ∈ issued, x.1.slot < UInt32.size
  registrations : ∀ p, r.registrations p = (live issued removed).filter fun x => x.2.point = p
  removes_iff : ∀ x ∈ issued, (r.remove x.1).1 = true ↔ x.1 ∉ removed
  removes_one : ∀ x ∈ issued, ∀ p,
    (r.remove x.1).2.registrations p = (r.registrations p).filter fun y => y.1 ≠ x.1
  other_lists : ∀ x ∈ issued, ∀ p, p ≠ x.2.point → (r.remove x.1).2.list p = r.list p
  removes_none : ∀ h ∈ removed, (r.remove h).2 = r
  links : ∀ p, (r.list p).Path (r.list p).head ((r.registrations p).map fun x => x.1.slot)
  calls : ∀ (m : Machine β σ) (call : HookCall), m.hooks = r →
    m.callHooks call = (r.registrations call.point).foldl
      (fun before x => Machine.callHook call before ⟨x.1, x.2.respond call⟩) (false, m)
  called : ∀ (m : Machine β σ) (call : HookCall), m.hooks = r →
    (m.callHooks call).2.journal =
      ((r.registrations call.point).map fun x => Event.hook x.1 call).reverse ++ m.journal
  count : ∀ kind,
    r.count kind = ((live issued removed).filter fun x => x.2.point.kind = kind).length

theorem journal_foldl_callHook (call : HookCall) (ls : List (Listener β σ))
    (before : Bool × Machine β σ) :
    (ls.foldl (Machine.callHook call) before).2.journal =
      (ls.map fun l => Event.hook l.handle call).reverse ++ before.2.journal := by
  induction ls generalizing before with
  | nil => rfl
  | cons l ls ih =>
    rw [List.foldl_cons, ih, List.map_cons, List.reverse_cons, List.append_assoc]
    rfl

namespace Tracked
variable {r : Registry β σ} {issued : List (HookHandle × Hook β σ)} {removed : List HookHandle}

theorem registrations (h : Tracked r issued removed) (p : HookPoint) :
    r.registrations p = (live issued removed).filter fun x => x.2.point = p := by
  have hback : ∀ x ∈ issued, x.2.point = p →
      (p.handle (⟨x.1.slot, x.1.generation, x.2⟩ : SlotList.Entry (Hook β σ)), x.2) = x := by
    rintro x hx rfl
    rw [← h.handle x hx]
  have hlive : (r.list p).entries = ((live issued removed).filter fun x => x.2.point = p).map
      fun x => ⟨x.1.slot, x.1.generation, x.2⟩ := by
    rw [(h.records p).entries, entriesAt, List.filter_map, live, List.filter_filter,
      List.filter_filter]
    congr 1
    apply List.filter_congr
    intro x hx
    by_cases hp : x.2.point = p
    · subst hp
      have hmem := h.mem_keysAt_iff hx
      simp [SlotList.Entry.key, hmem]
    · simp [hp]
  rw [Registry.registrations, hlive, List.map_map]
  refine (List.map_congr_left ?_).trans (List.map_id _)
  intro x hx
  rw [List.mem_filter, live, List.mem_filter, decide_eq_true_eq] at hx
  exact hback x hx.1.1 (of_decide_eq_true hx.2)

theorem remove_iff (h : Tracked r issued removed) {x : HookHandle × Hook β σ} (hx : x ∈ issued) :
    (r.remove x.1).1 = true ↔ x.1 ∉ removed := by
  obtain ⟨path, hwell⟩ := (h.records x.2.point).wellFormed
  rw [fst_remove, h.point hx, hwell.remove_eq_true_iff, (h.records x.2.point).entries,
    ← h.mem_keysAt_iff hx]
  constructor
  · intro hmem
    obtain ⟨e, he, hkey⟩ := List.mem_map.mp hmem
    rw [← hkey]
    simpa using (List.mem_filter.mp he).2
  · intro hkey
    obtain ⟨e, he, hek⟩ := List.mem_map.mp (mem_entriesAt hx)
    refine List.mem_map.mpr ⟨e, List.mem_filter.mpr ⟨he, ?_⟩, hek⟩
    simpa [hek] using hkey

theorem length_list (h : Tracked r issued removed) (p : HookPoint) :
    (r.list p).length = ((live issued removed).filter fun x => x.2.point = p).length := by
  obtain ⟨path, hwell⟩ := (h.records p).wellFormed
  rw [← hwell.length_entries, ← h.registrations, Registry.registrations, List.length_map]

theorem count (h : Tracked r issued removed) (kind : HookKind) :
    r.count kind = ((live issued removed).filter fun x => x.2.point.kind = kind).length := by
  by_cases hkind : kind = .exception
  · subst hkind
    simp only [count_exception, h.length_list]
    rw [sum_vectors]
  · obtain ⟨p, rfl⟩ := HookPoint.exists_kind kind
    simp only [count_kind r hkind, h.length_list, HookPoint.kind_eq_iff hkind]

theorem slot_lt (h : Tracked r issued removed) (hfew : Few issued) {x : HookHandle × Hook β σ}
    (hx : x ∈ issued) : x.1.slot < UInt32.size := by
  have hrecords := h.records x.2.point
  have hmem : (⟨x.1.slot, x.1.generation, x.2⟩ : SlotList.Entry _) ∈
      entriesAt x.2.point issued := by
    simp only [entriesAt, List.mem_map, List.mem_filter, decide_eq_true_eq]
    exact ⟨x, ⟨hx, rfl⟩, rfl⟩
  obtain ⟨s, hs, -⟩ := hrecords.known _ hmem
  have hslot := (Array.getElem?_eq_some_iff.mp hs).1
  have hsize := hrecords.size
  have hroom := hfew x.2.point
  rw [entriesAt, List.length_map] at hsize
  dsimp only at hslot
  omega

theorem links (h : Tracked r issued removed) (p : HookPoint) :
    (r.list p).Path (r.list p).head ((r.registrations p).map fun x => x.1.slot) := by
  obtain ⟨path, hwell⟩ := (h.records p).wellFormed
  have hslots : ((r.registrations p).map fun x => x.1.slot) = path := by
    rw [← hwell.slots_entries, Registry.registrations, List.map_map]
    rfl
  rw [hslots]
  exact hwell.path_head

end Tracked

theorem Run.represents {r : Registry β σ} {issued : List (HookHandle × Hook β σ)}
    {removed : List HookHandle} (hrun : Run r issued removed) (hfew : Few issued) :
    Represents r issued removed := by
  have h := hrun.tracked hfew
  constructor
  case handles_differ => exact h.nodup
  case slot_lt =>
    intro x hx
    exact h.slot_lt hfew hx
  case registrations => exact h.registrations
  case removes_iff =>
    intro x hx
    exact h.remove_iff hx
  case removes_one =>
    intro x hx p
    rw [h.registrations, (h.remove hx).registrations, live, live, List.filter_filter,
      List.filter_filter, List.filter_filter]
    apply List.filter_congr
    intro y _
    by_cases hy : y.1 = x.1 <;> simp [hy]
  case other_lists =>
    intro x hx p hp
    rw [list_remove, h.point hx, if_neg hp]
  case removes_none =>
    intro k hk
    obtain ⟨x, hx, rfl⟩ := List.mem_map.mp (h.removed k hk)
    apply remove_of_not_live
    rw [Bool.eq_false_iff, ne_eq, h.remove_iff hx, not_not]
    exact hk
  case links => exact h.links
  case calls =>
    rintro m call rfl
    rw [Machine.callHooks, listeners_eq, List.foldl_map]
  case called =>
    rintro m call rfl
    rw [Machine.callHooks, listeners_eq, journal_foldl_callHook, List.map_map]
    rfl
  case count => exact h.count

theorem few_of_length {issued : List (HookHandle × Hook β σ)} (h : issued.length < UInt32.size) :
    Few issued := by
  intro p
  exact Nat.lt_of_le_of_lt (List.length_filter_le ..) h

def counter : Hook Unit Nat := .newPc fun _ n => n + 1

def once : HookHandle × Registry Unit Nat := empty.install counter

def twice : HookHandle × Registry Unit Nat := (once.2.remove once.1).2.install counter

theorem represents_reused_slot :
    Run (twice.2.remove once.1).2 [(once.1, counter), (twice.1, counter)] [once.1, once.1] ∧
      Few [(once.1, counter), (twice.1, counter)] ∧ once.1.slot = twice.1.slot ∧
      Represents (twice.2.remove once.1).2 [(once.1, counter), (twice.1, counter)]
        [once.1, once.1] := by
  have hrun : Run (twice.2.remove once.1).2 [(once.1, counter), (twice.1, counter)]
      [once.1, once.1] := by
    have hone : Run once.2 [(once.1, counter)] [] := .install .empty counter
    have htwo := (hone.remove (List.mem_singleton_self _)).install counter
    exact htwo.remove (List.mem_cons_self ..)
  have hfew : Few [(once.1, counter), (twice.1, counter)] := few_of_length (by simp [UInt32.size])
  exact ⟨hrun, hfew, rfl, hrun.represents hfew⟩

end Registry
end Mc68000
