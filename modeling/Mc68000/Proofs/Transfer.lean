import Mc68000.Memory.Ram
import Mc68000.Proofs.Exception
import Mc68000.Proofs.Image
import Mc68000.Session.Transfer

/-!
# Saving and loading registers

A register file that was saved comes back in any machine, whatever the machine was doing: the image
has every field but the status, which SR stands for, and the pending conditions, of which a load
raises those that follow from the rest. A load either finds a whole register file or does nothing.
-/

namespace Mc68000

namespace Registers

theorem unpackStatus_of_packed {r : Registers} (h : Status.ofWord r.sr = r.status) :
    r.unpackStatus = r.followStatus := by
  simp only [unpackStatus, h, if_pos]

end Registers

def Pending.loaded (stop traces : Bool) : Pending :=
  { Pending.none with stop := stop, interruptCheck := true, traceArmed := traces }

namespace Registers

def transferred (r : Registers) : Registers :=
  { r.packStatus with pending := Pending.loaded r.stopped r.status.traces }

theorem followStatus_stop (r : Registers) (stop : Bool) :
    { r with pending := { Pending.none with stop := stop } }.followStatus =
      { r with pending := Pending.loaded stop r.status.traces } := by
  simp only [followStatus, Pending.loaded]
  cases r.status.traces <;> rfl

theorem unpackStatus_saved {r : Registers} (hmask : r.status.mask ≤ 7) :
    { r.packStatus with
        status := Status.ofWord r.packStatus.sr
        pending := { Pending.none with stop := r.stopped } }.unpackStatus = r.transferred := by
  have hstatus : Status.ofWord r.packStatus.sr = r.status := Status.ofWord_toWord_of_mask hmask
  let read : Registers :=
    { r.packStatus with pending := { Pending.none with stop := r.stopped } }
  have hread : read.unpackStatus = read.followStatus := unpackStatus_of_packed hstatus
  rw [hstatus]
  exact hread.trans (followStatus_stop r.packStatus r.stopped)

end Registers

namespace Machine
variable {β σ α : Type}

def callEvents (l : SlotList α) (kind : HookKind) (call : HookCall) : List Event :=
  (l.entries.map fun e => Event.hook (Registry.handle kind 0 e) call).reverse

def told (l : SlotList α) (kind : HookKind) (call : HookCall) (f : α → σ → σ) (m : Machine β σ) :
    Machine β σ :=
  { m with
    observers := l.entries.foldl (fun o e => f e.value o) m.observers
    journal := callEvents l kind call ++ m.journal }

theorem foldl_observing (kind : HookKind) (call : HookCall) (f : α → σ → σ)
    (es : List (SlotList.Entry α)) (before : Bool × Machine β σ) :
    ((es.map fun e => (⟨Registry.handle kind 0 e, Registry.observing (f e.value)⟩ :
        Registry.Listener β σ)).foldl (callHook call) before).2 =
      { before.2 with
        observers := es.foldl (fun o e => f e.value o) before.2.observers
        journal := (es.map fun e => .hook (Registry.handle kind 0 e) call).reverse ++
          before.2.journal } := by
  induction es generalizing before with
  | nil => rfl
  | cons e es ih =>
    rw [List.map_cons, List.foldl_cons, ih, List.map_cons, List.reverse_cons, List.append_assoc]
    rfl

theorem notify_newPc (m : Machine β σ) (pc : UInt32) :
    m.notify (.newPc pc) = m.told m.hooks.newPc .newPc (.newPc pc) fun f => f pc :=
  foldl_observing .newPc (.newPc pc) (fun f : PcHook σ => f pc) m.hooks.newPc.entries (false, m)

theorem notify_newSp (m : Machine β σ) (change : StackChange) :
    m.notify (.newSp change) = m.told m.hooks.newSp .newSp (.newSp change) fun f => f change :=
  foldl_observing .newSp (.newSp change) (fun f : SpHook σ => f change) m.hooks.newSp.entries
    (false, m)

variable [Bus β]

/-- The machine with this register file, when its hooks and its memory have been told the program
counter, and its hooks that the stack pointer is another. -/
def installed (r : Registers) (m : Machine β σ) : Machine β σ :=
  let told := { m with regs := r }.told m.hooks.newPc .newPc (.newPc r.pc) fun f => f r.pc
  let told := { told with bus := Bus.checkNewPc m.bus r.pc }.log (.newPc r.pc)
  told.told m.hooks.newSp .newSp (.newSp .changed) fun f => f .changed

theorem setRegisters_eq (m : Machine β σ) (r : Registers) :
    m.setRegisters r = (m.installed r.unpackStatus).deliverFault := by
  simp only [setRegisters, announcePc, announcePcToBus, notify_newPc, notify_newSp]
  rfl

theorem deliverFault_of_none {m : Machine β σ} (h : (Bus.takeFault m.bus).1 = none) :
    m.deliverFault = { m with bus := (Bus.takeFault m.bus).2 } := by
  have hnone : m.takeFault.1 = none := h
  rw [deliverFault_eq, hnone]
  rfl

end Machine

def SessionFile.ReadsBack (φ : Type) [SessionFile φ] : Prop :=
  ∀ (file file' : φ) (tag : ChunkTag) (bytes : List UInt8),
    SessionFile.writeChunk file tag bytes = .ok file' →
      SessionFile.readChunk file' tag = .ok (some bytes)

theorem ChunkStore.readsBack : SessionFile.ReadsBack ChunkStore := by
  rintro file _ tag bytes ⟨⟩
  exact congrArg Except.ok List.lookup_cons_self

/-- Why there is no register file to be read. -/
inductive SessionFile.Unreadable {φ : Type} [SessionFile φ] (file : φ) : SessionError → Prop
  | storage {e} (h : readChunk file ChunkTag.registers = .error e) : Unreadable file e
  | missingChunk (h : readChunk file ChunkTag.registers = .ok none) :
    Unreadable file .missingChunk
  | badLength {bytes} (h : readChunk file ChunkTag.registers = .ok (some bytes))
    (hlength : bytes.length ≠ 104) : Unreadable file (.badLength bytes.length)

namespace Machine
variable {β σ γ τ φ : Type} [SessionFile φ] [Bus γ]

abbrev Attempt (γ τ φ : Type) := ExceptT SessionError (StateM (Machine γ τ × φ))

def Attempt.runOn {α : Type} (x : Attempt γ τ φ α) (m : Machine γ τ) (file : φ) :
    Except SessionError α × Machine γ τ × φ :=
  Id.run (StateT.run (ExceptT.run x) (m, file))

omit [SessionFile φ] [Bus γ] in
theorem Attempt.runOn_ofExcept {α δ : Type} (x : Except SessionError α) (f : α → Attempt γ τ φ δ)
    (m : Machine γ τ) (file : φ) :
    Attempt.runOn (MonadExcept.ofExcept x >>= f) m file =
      match x with
      | .error e => (.error e, m, file)
      | .ok a => Attempt.runOn (f a) m file := by
  cases x <;> rfl

def loadRegisters (r : Registers) : Attempt γ τ φ Unit := do
  modify fun (m, file) => (m.log (.registersLoaded r.pc r.sr r.stopped), file)
  modify fun (m, file) => (m.setRegisters r, file)

def loadChunk : Option (List UInt8) → Attempt γ τ φ Unit
  | none => throw .missingChunk
  | some bytes => do loadRegisters (← MonadExcept.ofExcept (Registers.ofImage bytes))

/-- Loading one step after the other. What a step has done to the machine and to the file stays when
a later one fails. -/
def loadSteps : Attempt γ τ φ Unit := do
  let (_, file) ← get
  loadChunk (← MonadExcept.ofExcept (SessionFile.readChunk file ChunkTag.registers))

theorem loadSteps_runOn (m : Machine γ τ) (file : φ) :
    loadSteps.runOn m file =
      match m.load file with
      | .error e => (.error e, m, file)
      | .ok m' => (.ok (), m', file) := by
  have hread : loadSteps.runOn m file = _ := Attempt.runOn_ofExcept _ loadChunk m file
  rw [hread, load, readRegisters]
  cases SessionFile.readChunk file ChunkTag.registers with
  | error e => rfl
  | ok chunk =>
    cases chunk with
    | none => rfl
    | some bytes =>
      have hchunk : (loadChunk (some bytes)).runOn m file = _ :=
        Attempt.runOn_ofExcept _ loadRegisters m file
      dsimp only
      rw [hchunk]
      cases Registers.ofImage bytes <;> rfl

theorem load_eq_error_iff (t : Machine γ τ) (file : φ) (e : SessionError) :
    t.load file = .error e ↔ SessionFile.Unreadable file e := by
  have hload : t.load file = .error e ↔ readRegisters file = .error e := by
    rw [load]
    cases readRegisters file <;> simp [Except.map]
  rw [hload, readRegisters]
  constructor
  · intro h
    cases hread : SessionFile.readChunk file ChunkTag.registers with
    | error e' =>
      rw [hread] at h
      cases h
      exact .storage hread
    | ok chunk =>
      rw [hread] at h
      cases chunk with
      | none =>
        cases h
        exact .missingChunk hread
      | some bytes =>
        obtain ⟨hlength, rfl⟩ := (Registers.ofImage_eq_error_iff bytes e).mp h
        exact .badLength hread hlength
  · intro h
    cases h with
    | storage hread => rw [hread]
    | missingChunk hread => rw [hread]
    | badLength hread hlength =>
      rw [hread]
      exact (Registers.ofImage_eq_error_iff _ _).mpr ⟨hlength, rfl⟩

/-- What `t` has become by loading the registers that were saved from `m`. -/
structure TakesOver (m : Machine β σ) (t t' : Machine γ τ) : Prop where
  regs : t'.regs = { m.getRegisters.1 with
    pending := { Pending.none with
      interruptCheck := true
      stop := m.regs.stopped
      traceArmed := m.regs.status.t1 || m.regs.status.t0 } }
  userSp : (t'.getRegister .usp).1 = (m.getRegister .usp).1
  supervisorSp : (t'.getRegister .ssp).1 = (m.getRegister .ssp).1
  memory : t'.bus = (Bus.takeFault (Bus.checkNewPc t.bus m.regs.pc)).2
  observers : t'.observers = t.hooks.newSp.entries.foldl (fun o e => e.value .changed o)
    (t.hooks.newPc.entries.foldl (fun o e => e.value m.regs.pc o) t.observers)
  journal : t'.journal = callEvents t.hooks.newSp .newSp (.newSp .changed) ++
    .newPc m.regs.pc :: (callEvents t.hooks.newPc .newPc (.newPc m.regs.pc) ++
      .registersLoaded m.regs.pc m.regs.status.toWord m.regs.stopped :: t.journal)
  rest : t' = { t with
    regs := t'.regs
    bus := t'.bus
    observers := t'.observers
    journal := t'.journal }

theorem load_saved (hφ : SessionFile.ReadsBack φ) {m : Machine β σ} {t : Machine γ τ}
    {file file' : φ} (hmask : m.regs.status.mask ≤ 7) (hsave : (m.save file).1 = .ok file')
    (hquiet : (Bus.takeFault (Bus.checkNewPc t.bus m.regs.pc)).1 = none) :
    ∃ t', t.load file' = .ok t' ∧ TakesOver m t t' := by
  have hread := hφ file file' ChunkTag.registers m.regs.packStatus.image hsave
  let told := t.log (.registersLoaded m.regs.pc m.regs.status.toWord m.regs.stopped)
  have hload : t.load file' = .ok (told.installed m.regs.transferred).deliverFault := by
    rw [load, readRegisters, hread]
    dsimp only
    rw [Registers.ofImage_image, Except.map, setRegisters_eq]
    exact congrArg (fun r => Except.ok (told.installed r).deliverFault)
      (Registers.unpackStatus_saved hmask)
  have hdelivered : (told.installed m.regs.transferred).deliverFault = _ :=
    deliverFault_of_none hquiet
  rw [hdelivered] at hload
  exact ⟨_, hload, rfl, rfl, rfl, rfl, rfl, rfl, rfl⟩

/-- A register file that was saved is taken over by whichever machine it is loaded into. A load that
fails finds no register file, and leaves the machine and the file as they were. -/
theorem save_load (hφ : SessionFile.ReadsBack φ) :
    (∀ (m : Machine β σ) (t : Machine γ τ) (file file' : φ), m.regs.status.mask ≤ 7 →
        (m.save file).1 = .ok file' →
        (Bus.takeFault (Bus.checkNewPc t.bus m.regs.pc)).1 = none →
        ∃ t', t.load file' = .ok t' ∧ TakesOver m t t') ∧
      ∀ (t : Machine γ τ) (file : φ) (e : SessionError),
        (t.load file = .error e ↔ SessionFile.Unreadable file e) ∧
          (t.load file = .error e → loadSteps.runOn t file = (.error e, t, file)) := by
  refine ⟨fun m t file file' hmask hsave hquiet => load_saved hφ hmask hsave hquiet,
    fun t file e => ⟨load_eq_error_iff t file e, fun hload => ?_⟩⟩
  rw [loadSteps_runOn, hload]

def saver : Machine Ram Unit :=
  (ofSettings Settings.default (Ram.ofSize 16) ()).mapRegs fun r =>
    { r with status := Status.ofWord 0x8300, stopped := true, pc := 0x8 }

def counting : Machine Ram Nat :=
  ((ofSettings Settings.default (Ram.ofSize 16) 0).installHook (.newPc fun _ n => n + 1)).2

theorem save_load_counting :
    SessionFile.ReadsBack ChunkStore ∧ saver.regs.status.mask ≤ 7 ∧
      ∃ file, (saver.save ChunkStore.empty).1 = .ok file ∧
        (Bus.takeFault (Bus.checkNewPc counting.bus saver.regs.pc)).1 = none ∧
        (∃ t', counting.load file = .ok t' ∧ TakesOver saver counting t') ∧
        loadSteps.runOn counting ChunkStore.empty =
          (.error .missingChunk, counting, ChunkStore.empty) := by
  have hmask : saver.regs.status.mask ≤ 7 := by decide
  have hquiet : (Bus.takeFault (Bus.checkNewPc counting.bus saver.regs.pc)).1 = none := rfl
  obtain ⟨hsuccess, hfailure⟩ := save_load (β := Ram) (σ := Unit) (γ := Ram) (τ := Nat)
    ChunkStore.readsBack
  exact ⟨ChunkStore.readsBack, hmask, _, rfl, hquiet,
    hsuccess saver counting ChunkStore.empty _ hmask rfl hquiet,
    (hfailure counting ChunkStore.empty .missingChunk).2 rfl⟩

end Machine
end Mc68000
