import Mc68000.ControlInstructions
import Mc68000.Proofs.StackedStatus
import Mathlib.Data.Set.Card

/-!
# How a table is built

A table is built by assignments, one after the other. Each covers some words, and a word has the
handler of the last assignment that covers it. A word that none covers is illegal: its exception is
taken with the program counter back at the word.
-/

namespace Mc68000
variable {β σ : Type}

structure Encoding (β σ : Type) where
  mask : UInt16
  pattern : UInt16
  handler : Handler β σ

def Encoding.covers (e : Encoding β σ) (w : UInt16) : Bool := w &&& e.mask == e.pattern

def ControlInstructions.encodings [Bus β] : List (Encoding β σ) :=
  [⟨0xFFFF, 0x4E71, nop⟩, ⟨0xFFFF, 0x4E72, stop⟩, ⟨0xFFFF, 0x4E73, rte⟩, ⟨0xFFFF, 0x4E75, rts⟩,
    ⟨0xFFF0, 0x4E40, trap⟩, ⟨0xFFFF, 0x4AFC, OpcodeTable.illegalOpcode⟩,
    ⟨0xFFFF, 0x4EB9, jsrAbsolute⟩, ⟨0xFFF8, 0x4E90, jsrIndirect⟩, ⟨0xFFF8, 0x4E50, link⟩,
    ⟨0xFFFF, 0x46FC, moveToSr⟩]

inductive Assignment (β σ : Type) where
  | one (opcode : UInt16) (h : Handler β σ)
  | matching (mask pattern : UInt16) (h : Handler β σ)
  | control

namespace Assignment
variable [Bus β]

def perform (t : OpcodeTable β σ) : Assignment β σ → OpcodeTable β σ
  | .one w h => t.assign w h
  | .matching mask pattern h => t.assignMatching mask pattern h
  | .control => ControlInstructions.install t

/-- The handler that an assignment has for a word, if it covers the word. -/
def handler? (c : Assignment β σ) (w : UInt16) : Option (Handler β σ) :=
  match c with
  | .one opcode h => if w = opcode then some h else none
  | .matching mask pattern h => if w &&& mask = pattern then some h else none
  | .control => (ControlInstructions.encodings.find? fun e => e.covers w).map Encoding.handler

def Covers (c : Assignment β σ) (w : UInt16) : Prop := (c.handler? w).isSome

end Assignment

namespace OpcodeTable

def encode (t : OpcodeTable β σ) (e : Encoding β σ) : OpcodeTable β σ :=
  t.assignMatching e.mask e.pattern e.handler

theorem assign_eq_encode (t : OpcodeTable β σ) (w : UInt16) (h : Handler β σ) :
    t.assign w h = t.encode ⟨0xFFFF, w, h⟩ := by
  have hmask : ∀ x : UInt16, x &&& 0xFFFF = x := fun _ => UInt16.and_neg_one
  simp only [assign, encode, assignMatching, hmask]

theorem assignment_encode (t : OpcodeTable β σ) (e : Encoding β σ) (w : UInt16) :
    (t.encode e).assignment w = if e.covers w then some e.handler else t.assignment w := by
  simp [encode, assignMatching, Encoding.covers]

theorem assignment_foldl_encode {es : List (Encoding β σ)} {w : UInt16}
    (h : es.Pairwise fun e e' => ¬(e.covers w ∧ e'.covers w)) (t : OpcodeTable β σ) :
    (es.foldl encode t).assignment w =
      ((es.find? fun e => e.covers w).map Encoding.handler).or (t.assignment w) := by
  induction es generalizing t with
  | nil => rfl
  | cons e es ih =>
    obtain ⟨hfirst, hrest⟩ := List.pairwise_cons.mp h
    rw [List.foldl_cons, ih hrest, assignment_encode]
    cases hcovers : e.covers w with
    | true =>
      have hnone : (es.find? fun e => e.covers w) = none := by
        rw [List.find?_eq_none]
        intro e' he'
        exact fun hc => hfirst e' he' ⟨hcovers, hc⟩
      rw [hnone, List.find?_cons, hcovers]
      rfl
    | false =>
      rw [List.find?_cons, hcovers]
      rfl

end OpcodeTable

namespace ControlInstructions

theorem not_covers_of_ne {e e' : Encoding β σ}
    (h : e.pattern &&& e'.mask ≠ e'.pattern &&& e.mask) (w : UInt16) :
    ¬(e.covers w ∧ e'.covers w) := by
  rintro ⟨he, he'⟩
  rw [Encoding.covers, beq_iff_eq] at he he'
  apply h
  rw [← he, ← he', UInt16.and_assoc, UInt16.and_assoc, UInt16.and_comm e.mask]

variable [Bus β]

theorem pairwise_encodings (w : UInt16) :
    (encodings (β := β) (σ := σ)).Pairwise fun e e' => ¬(e.covers w ∧ e'.covers w) := by
  have hshapes : (encodings (β := β) (σ := σ)).map (fun e => (e.mask, e.pattern)) =
      [(0xFFFF, 0x4E71), (0xFFFF, 0x4E72), (0xFFFF, 0x4E73), (0xFFFF, 0x4E75), (0xFFF0, 0x4E40),
        (0xFFFF, 0x4AFC), (0xFFFF, 0x4EB9), (0xFFF8, 0x4E90), (0xFFF8, 0x4E50),
        (0xFFFF, 0x46FC)] := rfl
  have hapart : ((encodings (β := β) (σ := σ)).map fun e => (e.mask, e.pattern)).Pairwise
      fun x y => x.2 &&& y.1 ≠ y.2 &&& x.1 := by
    rw [hshapes]
    decide
  exact (List.pairwise_map.mp hapart).imp fun h => not_covers_of_ne h w

theorem install_eq_foldl (t : OpcodeTable β σ) :
    install t = encodings.foldl OpcodeTable.encode t := by
  simp only [install, OpcodeTable.assign_eq_encode]
  rfl

end ControlInstructions

namespace OpcodeTable
variable [Bus β]

def build (calls : List (Assignment β σ)) : OpcodeTable β σ :=
  calls.foldl Assignment.perform .empty

theorem assignment_perform (t : OpcodeTable β σ) (c : Assignment β σ) (w : UInt16) :
    (c.perform t).assignment w = (c.handler? w).or (t.assignment w) := by
  cases c with
  | one opcode h =>
    simp only [Assignment.perform, assign, Assignment.handler?]
    split <;> rfl
  | matching mask pattern h =>
    simp only [Assignment.perform, assignMatching, Assignment.handler?]
    split <;> rfl
  | control =>
    rw [Assignment.perform, ControlInstructions.install_eq_foldl]
    exact assignment_foldl_encode (ControlInstructions.pairwise_encodings w) t

theorem assignment_build (calls : List (Assignment β σ)) (w : UInt16) :
    (build calls).assignment w = calls.reverse.findSome? fun c => c.handler? w := by
  induction calls using List.reverseRecOn with
  | nil => rfl
  | append_singleton calls c ih =>
    have hbuild : build (calls ++ [c]) = c.perform (build calls) := List.foldl_append ..
    rw [hbuild, assignment_perform, ih, List.reverse_append, List.findSome?_append]
    simp

theorem assignment_build_eq_none_iff {calls : List (Assignment β σ)} {w : UInt16} :
    (build calls).assignment w = none ↔ ∀ c ∈ calls, ¬c.Covers w := by
  rw [assignment_build, List.findSome?_eq_none_iff]
  simp [Assignment.Covers]

theorem assignment_build_eq_some_iff {calls : List (Assignment β σ)} {w : UInt16}
    {h : Handler β σ} :
    (build calls).assignment w = some h ↔ ∃ before c after, calls = before ++ c :: after ∧
      c.handler? w = some h ∧ ∀ c' ∈ after, ¬c'.Covers w := by
  rw [assignment_build, List.findSome?_eq_some_iff]
  constructor
  · rintro ⟨after, c, before, hcalls, hc, hafter⟩
    refine ⟨before.reverse, c, after.reverse, ?_, hc, ?_⟩
    · rw [← List.reverse_reverse calls, hcalls]
      simp
    · simpa [Assignment.Covers] using hafter
  · rintro ⟨before, c, after, rfl, hc, hafter⟩
    refine ⟨after.reverse, c, before.reverse, by simp, hc, ?_⟩
    simpa [Assignment.Covers] using hafter

omit [Bus β] in
theorem assigned_eq_ncard (t : OpcodeTable β σ) :
    t.assigned = {w | (t.assignment w).isSome}.ncard := by
  let covered := (List.range 0x10000).filter fun n => (t.assignment n.toUInt16).isSome
  have himage : UInt16.toNat '' {w | (t.assignment w).isSome} = (covered.toFinset : Set Nat) := by
    ext n
    simp only [covered, Set.mem_image, Set.mem_ofPred_eq, List.coe_toFinset, List.mem_filter,
      List.mem_range]
    constructor
    · rintro ⟨w, hw, rfl⟩
      refine ⟨w.toNat_lt, ?_⟩
      rwa [show w.toNat.toUInt16 = w from UInt16.ofNat_toNat]
    · rintro ⟨hn, hw⟩
      exact ⟨n.toUInt16, hw, UInt16.toNat_ofNat_of_lt' hn⟩
  have hinjective : Function.Injective UInt16.toNat := fun _ _ => UInt16.toNat_inj.mp
  rw [← Set.ncard_image_of_injective _ hinjective, himage, Set.ncard_coe_finset,
    List.toFinset_card_of_nodup (List.nodup_range.filter _), assigned, List.countP_eq_length_filter]

end OpcodeTable

namespace Machine

def lineVector (w : UInt16) : ExceptionVector :=
  if w.toNat / 0x1000 = 0xA then ExceptionVector.lineA
  else if w.toNat / 0x1000 = 0xF then ExceptionVector.lineF
  else ExceptionVector.illegalInstruction

theorem toNat_and_highDigit (w : UInt16) :
    (w &&& 0xF000).toNat = 0x1000 * (w.toNat / 0x1000) := by
  have hlt := w.toNat_lt
  have hdigit : (w.toNat &&& 0xF000) / 2 ^ 12 = w.toNat / 2 ^ 12 := by
    rw [Nat.and_div_two_pow, show 0xF000 / 2 ^ 12 = 2 ^ 4 - 1 from rfl,
      Nat.and_two_pow_sub_one_eq_mod]
    omega
  have hrest : (w.toNat &&& 0xF000) % 2 ^ 12 = 0 := by
    rw [Nat.and_mod_two_pow, show 0xF000 % 2 ^ 12 = 0 from rfl, Nat.and_zero]
  rw [UInt16.toNat_and]
  change w.toNat &&& 0xF000 = _
  omega

theorem illegalVector_eq_lineVector (w : UInt16) : illegalVector w = lineVector w := by
  have hdigit : ∀ d : UInt16, w &&& 0xF000 = d ↔ 0x1000 * (w.toNat / 0x1000) = d.toNat := by
    intro d
    rw [← toNat_and_highDigit, UInt16.toNat_inj]
  have hlineA : w &&& 0xF000 = 0xA000 ↔ w.toNat / 0x1000 = 0xA := by
    rw [hdigit, show (0xA000 : UInt16).toNat = 0x1000 * 0xA from rfl]
    omega
  have hlineF : w &&& 0xF000 = 0xF000 ↔ w.toNat / 0x1000 = 0xF := by
    rw [hdigit, show (0xF000 : UInt16).toNat = 0x1000 * 0xF from rfl]
    omega
  simp only [illegalVector, hlineA, hlineF, lineVector]

variable [Bus β] {m : Machine β σ} {v : ExceptionVector} {answers : List Bool} {left : Scene β σ}

theorem exceptionHistory_of_intercepts
    (h : Intercepts v ((m.hooks.interceptors v).map Prod.snd) m.packedScene answers left) :
    (m.takeException v).exceptionHistory =
      m.exceptionHistory.push ⟨v, m.regs.pc, m.regs.sp⟩ := by
  by_cases hanswers : true ∈ answers
  · rw [takeException_of_handled h hanswers]
    rfl
  · rw [takeException_of_not_handled h hanswers, exceptionHistory_enterException]
    rfl

omit [Bus β] in
theorem pc_of_intercepts
    (h : Intercepts v ((m.hooks.interceptors v).map Prod.snd) m.packedScene answers left)
    (hpc : ∀ x ∈ m.hooks.interceptors v, ∀ s, (x.2 v s).2.registers.pc = s.registers.pc) :
    left.registers.pc = m.regs.pc := by
  refine h.keeps (P := fun s => s.registers.pc = m.regs.pc) ?_ rfl
  intro f hf s hs
  obtain ⟨x, hx, rfl⟩ := List.mem_map.mp hf
  exact (hpc x hx s).trans hs

/-- What is done for an illegal word that ends at the program counter, with the answers of the hooks
on its vector and the scene they left. -/
structure TakesIllegal (m : Machine β σ) (w : UInt16) (answers : List Bool) (left : Scene β σ)
    (result : UInt32 × Machine β σ) : Prop where
  cost : result.1 = 34
  taken : result.2 = (m.setPc (m.regs.pc - 2)).takeException (lineVector w)
  runs : Intercepts (lineVector w) ((m.hooks.interceptors (lineVector w)).map Prod.snd)
    (m.setPc (m.regs.pc - 2)).packedScene answers left
  record : result.2.exceptionHistory =
    m.exceptionHistory.push ⟨lineVector w, m.regs.pc - 2, m.regs.sp⟩
  frame : true ∉ answers →
    result.2.bus = (leftEntry (lineVector w) left).entered left.registers.vbr ∧
      result.2.regs.pc = (leftEntry (lineVector w) left).handler left.registers.vbr
  /-- The frame is for the word, unless a hook went somewhere else. -/
  returnAddress : (∀ x ∈ m.hooks.interceptors (lineVector w),
      ∀ s, (x.2 (lineVector w) s).2.registers.pc = s.registers.pc) →
    (leftEntry (lineVector w) left).returnAddress = m.regs.pc - 2
  stacked : true ∉ answers →
    (leftEntry (lineVector w) left).ReadsBack left.registers.vbr →
      result.2.stackedPc (lineVector w) = (leftEntry (lineVector w) left).returnAddress

theorem illegalOpcode_takesIllegal (m : Machine β σ) (w : UInt16) :
    ∃ answers left, m.TakesIllegal w answers left (OpcodeTable.illegalOpcode w m) := by
  let n := m.setPc (m.regs.pc - 2)
  obtain ⟨answers, left, h⟩ := Intercepts.exists_left (lineVector w)
    ((n.hooks.interceptors (lineVector w)).map Prod.snd) n.packedScene
  have htaken : (OpcodeTable.illegalOpcode w m).2 = n.takeException (lineVector w) := by
    rw [OpcodeTable.illegalOpcode, takeIllegal, illegalVector_eq_lineVector]
  refine ⟨answers, left, ?_⟩
  constructor
  case cost => rfl
  case taken => exact htaken
  case runs => exact h
  case record =>
    rw [htaken]
    exact exceptionHistory_of_intercepts h
  case frame =>
    intro hanswers
    rw [htaken, takeException_of_not_handled h hanswers, regs_enterException]
    exact ⟨bus_enterException _ _, rfl⟩
  case returnAddress =>
    intro hpc
    exact pc_of_intercepts h hpc
  case stacked =>
    intro hanswers hreads
    rw [htaken, takeException_of_not_handled h hanswers]
    exact (stacked_enterException (m := n.intercepted (lineVector w) left) hreads).2

end Machine

namespace OpcodeTable
variable [Bus β]

/-- A table after any assignments: what a word has, how many words have something, and what becomes
of a word that has nothing. -/
theorem build_decides (calls : List (Assignment β σ)) :
    (∀ w,
      (∃ before c after h, calls = before ++ c :: after ∧ c.handler? w = some h ∧
        (∀ c' ∈ after, ¬c'.Covers w) ∧ (build calls).handler w = h) ∨
      ((∀ c ∈ calls, ¬c.Covers w) ∧ (build calls).handler w = illegalOpcode ∧
        ∀ m : Machine β σ, ∃ answers left,
          m.TakesIllegal w answers left ((build calls).dispatch w m))) ∧
    (build calls).assigned = {w | ∃ c ∈ calls, c.Covers w}.ncard ∧
    ∀ (mask pattern : UInt16) (h : Handler β σ) (w : UInt16),
      (Assignment.matching mask pattern h).Covers w → pattern &&& ~~~mask = 0 := by
  refine ⟨fun w => ?_, ?_, fun mask pattern h w hcovers => ?_⟩
  · cases hw : (build calls).assignment w with
    | some h =>
      obtain ⟨before, c, after, hcalls, hc, hafter⟩ := assignment_build_eq_some_iff.mp hw
      exact .inl ⟨before, c, after, h, hcalls, hc, hafter, by rw [handler, hw]; rfl⟩
    | none =>
      have hillegal : (build calls).handler w = illegalOpcode := by
        rw [handler, hw]
        rfl
      refine .inr ⟨assignment_build_eq_none_iff.mp hw, hillegal, fun m => ?_⟩
      rw [dispatch, hillegal]
      exact m.illegalOpcode_takesIllegal w
  · have hcovered : ∀ w, ((build calls).assignment w).isSome ↔ ∃ c ∈ calls, c.Covers w := by
      intro w
      rw [← not_iff_not, Bool.not_eq_true, Option.isSome_eq_false_iff, Option.isNone_iff_eq_none,
        assignment_build_eq_none_iff]
      simp
    simp only [assigned_eq_ncard, hcovered]
  · simp only [Assignment.Covers, Assignment.handler?, Option.isSome_ite] at hcovers
    rw [← hcovers, UInt16.and_assoc, UInt16.and_not_self, UInt16.and_zero]

-- The last word of the trap instructions, assigned once more.
example (four eight : Handler β σ) :
    (build [.matching 0xFFF0 0x4E40 four, .one 0x4E4F eight]).handler 0x4E4F = eight := rfl

-- A word of line A at 0x40, in a table of the control instructions.
example :
    let m : Machine Ram Unit := Machine.ofSettings Settings.default (Ram.ofSize 256) ()
    let dispatched := (build [.control]).dispatch 0xA123 ((m.setRegister .sp 0x100).setPc 0x42)
    dispatched.1 = 34 ∧ dispatched.2.stackedPc ExceptionVector.lineA = 0x40 := by
  decide +kernel

end OpcodeTable
end Mc68000
