import Mc68000.Machine.Control
import Mc68000.Proofs.Entry
import Mc68000.Proofs.Loop

/-!
# Relations of machines that runs keep

What is to be accounted for in a run happens in few places: where an opcode is fetched, where its
cost is charged, where the processor idles, where an exception is recorded and where its frame is
pushed. A relation of machines that holds across these, and across whatever touches none of the
accounts, holds across every instruction, every exception and every call.
-/

namespace Mc68000

def Event.isNotable : Event → Bool
  | .fetch _ | .dispatch .. | .exception _ | .frame _ | .host .delay => true
  | _ => false

theorem Event.not_isNotable_of_ofHost {e : Event} (h : e.ofHost) : e.isNotable = false := by
  cases e with
  | host call =>
    cases call with
    | delay => cases h
    | _ => rfl
  | overdue | stopMasked | powerPressed => rfl
  | _ => cases h

def StackGuard.afterFrame (g : StackGuard) (sp : UInt32) : StackGuard :=
  { g with
    overflowed := g.overflowed || g.overflowsAt sp
    warned := g.warned || g.warnsAt sp }

namespace Machine
variable {β σ : Type} {R : Machine β σ → Machine β σ → Prop} {m m₁ : Machine β σ}

def afterFrame (m : Machine β σ) : Machine β σ :=
  { m with guard := m.guard.afterFrame m.regs.sp }.log (.frame m.regs.sp)

theorem checkStack_logs (m : Machine β σ) :
    Logs (fun e => e.isNotable = false) m.afterFrame m.checkStack := by
  -- What follows the frame in the journal are the reports that the stack is low.
  rw [checkStack_eq]
  refine ⟨_, rfl, fun e he => ?_⟩
  rcases List.mem_append.mp he with he | he
  · obtain ⟨-, he⟩ := List.mem_ite_nil_right.mp he
    rw [List.mem_singleton.mp he]
    rfl
  · obtain ⟨-, he⟩ := List.mem_ite_nil_right.mp he
    rw [List.mem_singleton.mp he]
    rfl

/-- The relation holds across whatever hooks, registers and memory go through. -/
structure KeptByHooks (R : Machine β σ → Machine β σ → Prop) : Prop where
  refl : ∀ m, R m m
  trans : ∀ {m m₁ m₂}, R m m₁ → R m₁ m₂ → R m m₂
  scene : ∀ m s, R m (m.withScene s)
  log : ∀ m {e : Event}, e.isNotable = false → R m (m.log e)

structure KeptByInstructions (R : Machine β σ → Machine β σ → Prop) : Prop extends
    KeptByHooks R where
  lastFault : ∀ (m : Machine β σ) f, R m { m with lastFault := f }
  record : ∀ m v, R m (m.recordException v)
  frame : ∀ m, R m m.afterFrame

/-- It also holds across the rest of what the loop does, handlers apart. -/
structure KeptByLoop (R : Machine β σ → Machine β σ → Prop) : Prop extends
    KeptByInstructions R where
  traceAddress : ∀ (m : Machine β σ) a, R m { m with lastTraceAddress := a }
  slowCounter : ∀ (m : Machine β σ) n, R m { m with slowCounter := n }
  fetch : ∀ {m m'}, Logs (fun e => e.ofHost) m.recordRegisters m' → R m (m'.log (.fetch m'.regs))
  dispatch : ∀ m w cost, R m ((m.charge cost).log (.dispatch w cost))
  idle : ∀ m, R m ((m.log (.host .delay)).charge m.settings.idleTickCycles)

theorem KeptByLoop.mono {S : Machine β σ → Machine β σ → Prop} (hR : KeptByLoop R)
    (hS : ∀ {m m₁}, R m m₁ → S m m₁) (htrans : ∀ {m m₁ m₂}, S m m₁ → S m₁ m₂ → S m m₂) :
    KeptByLoop S where
  refl m := hS (hR.refl m)
  trans := htrans
  scene m s := hS (hR.scene m s)
  log m _ he := hS (hR.log m he)
  lastFault m f := hS (hR.lastFault m f)
  record m v := hS (hR.record m v)
  frame m := hS (hR.frame m)
  traceAddress m a := hS (hR.traceAddress m a)
  slowCounter m n := hS (hR.slowCounter m n)
  fetch h := hS (hR.fetch h)
  dispatch m w cost := hS (hR.dispatch m w cost)
  idle m := hS (hR.idle m)

namespace KeptByHooks

theorem of_scene (hR : KeptByHooks R) (h : m₁ = m.withScene m₁.scene) : R m m₁ := by
  rw [h]
  exact hR.scene m _

theorem logs (hR : KeptByHooks R) (h : Logs (fun e => e.isNotable = false) m m₁) : R m m₁ := by
  obtain ⟨es, rfl, hes⟩ := h
  induction es with
  | nil => exact hR.refl m
  | cons e es ih =>
    have hlater := ih fun d hd => hes d (List.mem_cons_of_mem _ hd)
    have hlog := hR.log { m with journal := es ++ m.journal } (hes e (List.mem_cons_self ..))
    exact hR.trans hlater hlog

theorem logs_host (hR : KeptByHooks R) (h : Logs (fun e => e.ofHost) m m₁) : R m m₁ := by
  obtain ⟨es, hm, hes⟩ := h
  exact hR.logs ⟨es, hm, fun e he => Event.not_isNotable_of_ofHost (hes e he)⟩

theorem foldl_callHook (hR : KeptByHooks R) (call : HookCall)
    (ls : List (Registry.Listener β σ)) (before : Bool × Machine β σ) :
    R before.2 (ls.foldl (callHook call) before).2 := by
  induction ls generalizing before with
  | nil => exact hR.refl _
  | cons l ls ih =>
    have hlog : R before.2 (before.2.log (.hook l.handle call)) := hR.log _ rfl
    have hcalled : R before.2 (callHook call before l).2 := hR.trans hlog (hR.of_scene rfl)
    exact hR.trans hcalled (ih _)

theorem notify (hR : KeptByHooks R) (m : Machine β σ) (call : HookCall) :
    R m (m.notify call) :=
  hR.foldl_callHook call _ (false, m)

variable [Bus β]

theorem announcePcToBus (hR : KeptByHooks R) (m : Machine β σ) (pc : UInt32) :
    R m (m.announcePcToBus pc) := by
  have htold : R m { m with bus := Bus.checkNewPc m.bus pc } := hR.of_scene rfl
  exact hR.trans htold (hR.log _ rfl)

theorem announcePc (hR : KeptByHooks R) (m : Machine β σ) (pc : UInt32) :
    R m (m.announcePc pc) :=
  hR.trans (hR.notify m _) (hR.announcePcToBus _ pc)

theorem jump (hR : KeptByHooks R) (m : Machine β σ) (pc : UInt32) : R m (m.jump pc) :=
  hR.trans (hR.announcePc m pc) (hR.of_scene rfl)

theorem pushFrame (hR : KeptByHooks R) (m : Machine β σ) (v : ExceptionVector) (sr : UInt16)
    (pc : UInt32) : R m (m.pushFrame v sr pc) := by
  simp only [Machine.pushFrame]
  split <;> exact hR.of_scene rfl

theorem enterHandler (hR : KeptByHooks R) (m : Machine β σ) (v : ExceptionVector) :
    R m (m.enterHandler v) := by
  have hread : R m (m.readVector (ExceptionVector.entryAddress m.regs.vbr v)).2 :=
    hR.of_scene rfl
  have hdrop : ∀ n : Machine β σ, R n (n.mapRegs dropTrace) := fun _ => hR.of_scene rfl
  exact hR.trans (hR.trans hread (hR.jump _ _)) (hdrop _)

theorem pushEntry (hR : KeptByHooks R) (m : Machine β σ) (v : ExceptionVector) :
    R m (((m.log (.exceptionTaken v m.regs.pc)).mapRegs Registers.enterSupervisor).pushFrame v
      m.regs.sr m.regs.pc) := by
  have htaken : R m (m.log (.exceptionTaken v m.regs.pc)) := hR.log _ rfl
  exact hR.trans (hR.trans htaken (hR.of_scene rfl)) (hR.pushFrame _ v _ _)

end KeptByHooks

namespace KeptByInstructions

theorem checkStack (hR : KeptByInstructions R) (m : Machine β σ) : R m m.checkStack :=
  hR.trans (hR.frame m) (hR.logs m.checkStack_logs)

variable [Bus β]

theorem enterException (hR : KeptByInstructions R) (m : Machine β σ) (v : ExceptionVector) :
    R m (m.enterException v) := by
  have hframe : R m (m.withFrame v) := hR.trans (hR.pushEntry m v) (hR.checkStack _)
  exact hR.trans hframe (hR.enterHandler _ v)

theorem takeException (hR : KeptByInstructions R) (m : Machine β σ) (v : ExceptionVector) :
    R m (m.takeException v) := by
  have hpacked : R m (m.mapRegs Registers.packStatus) := hR.of_scene rfl
  have hrecorded := hR.trans hpacked (hR.record _ v)
  have hintercepted : R m (m.interceptException v).2 :=
    hR.trans hrecorded (hR.foldl_callHook (.exception v) _ (false, _))
  rw [takeException_eq]
  split
  · exact hR.trans hintercepted (hR.log _ rfl)
  · exact hR.trans hintercepted (hR.enterException _ v)

theorem raiseFault (hR : KeptByInstructions R) (m : Machine β σ) (f : Fault) :
    R m (m.raiseFault f) := by
  let noted : Machine β σ := { m.takeFault.2 with lastFault := some f }
  have hdrained : R m m.takeFault.2 := hR.of_scene rfl
  have hnoted : R m noted := hR.trans hdrained (hR.lastFault _ _)
  have hreported : R noted (noted.log (.fault f)) := hR.log _ rfl
  have hentered : R m (m.enterFault f) :=
    hR.trans (hR.trans hnoted hreported) (hR.takeException _ _)
  have htaken : R m (m.enterFault f).takeFault.2 := hR.trans hentered (hR.of_scene rfl)
  rw [raiseFault_eq]
  split
  · exact htaken
  · exact hR.trans (hR.trans htaken (hR.log _ rfl)) (hR.of_scene rfl)

theorem deliverFault (hR : KeptByInstructions R) (m : Machine β σ) : R m m.deliverFault := by
  have htaken : R m m.takeFault.2 := hR.of_scene rfl
  rw [deliverFault_eq]
  split
  · exact htaken
  · exact hR.trans htaken (hR.raiseFault _ _)

theorem reset (hR : KeptByInstructions R) (m : Machine β σ) (hardware : Bool) :
    R m.clearBookkeeping (m.reset hardware) := by
  have hannounced : ∀ n : Machine β σ, R n (n.announcePcToBus n.regs.pc).deliverFault :=
    fun n => hR.trans (hR.announcePcToBus n _) (hR.deliverFault _)
  have hloaded : ∀ n : Machine β σ, R n n.loadReset := fun n => by
    let read := (n.readLong n.settings.romBase).2.readLong (n.settings.romBase + 4)
    have hread : R n { read.2 with regs := n.loadReset.regs } := hR.of_scene rfl
    exact hR.trans hread (hR.log _ rfl)
  cases hardware with
  | false => exact hannounced _
  | true => exact hR.trans (hloaded _) (hannounced _)

theorem setRegisters (hR : KeptByInstructions R) (m : Machine β σ) (r : Registers) :
    R m (m.setRegisters r) := by
  have hloaded : R m { m with regs := r.unpackStatus } := hR.of_scene rfl
  have hannounced := hR.trans hloaded (hR.announcePc _ r.unpackStatus.pc)
  exact hR.trans (hR.trans hannounced (hR.notify _ (.newSp .changed))) (hR.deliverFault _)

theorem takeInterrupt (hR : KeptByInstructions R) (m : Machine β σ) (base level : UInt8) :
    R m (m.takeInterrupt base level) := by
  simp only [Machine.takeInterrupt]
  split
  · have hlog : R m (m.log (.interrupt base level m.regs.status.mask)) := hR.log m rfl
    have htaken := hR.trans hlog (hR.takeException _ (base + level))
    exact hR.trans htaken (hR.of_scene rfl)
  · exact hR.log m rfl

end KeptByInstructions
end Machine

namespace ControlInstructions
variable {β σ : Type} [Bus β] {R : Machine β σ → Machine β σ → Prop}
open Machine (KeptByHooks KeptByInstructions)

theorem fetchWord_kept (hR : KeptByHooks R) (m : Machine β σ) : R m m.fetchWord.2 := by
  let logged := m.advance 2
  have hmoved : R m (m.setPc (m.regs.pc + 2)) := hR.of_scene rfl
  have hlogged : R m logged := hR.trans hmoved (hR.log _ rfl)
  exact hR.trans hlogged (hR.of_scene rfl)

theorem fetchLong_kept (hR : KeptByHooks R) (m : Machine β σ) : R m m.fetchLong.2 := by
  let logged := m.advance 4
  have hmoved : R m (m.setPc (m.regs.pc + 4)) := hR.of_scene rfl
  have hlogged : R m logged := hR.trans hmoved (hR.log _ rfl)
  exact hR.trans hlogged (hR.of_scene rfl)

theorem refuse_kept (hR : KeptByInstructions R) (m : Machine β σ) (v : ExceptionVector) :
    R m ((m.setPc (m.regs.pc - 2)).takeException v) := by
  have hback : R m (m.setPc (m.regs.pc - 2)) := hR.of_scene rfl
  exact hR.trans hback (hR.takeException _ v)

theorem privileged_kept (hR : KeptByInstructions R) {h : Handler β σ} {w : UInt16}
    {m : Machine β σ} (hh : R m (h w m).2) : R m (privileged h w m).2 := by
  simp only [privileged]
  split
  · exact hh
  · exact refuse_kept hR m _

theorem stop_kept (hR : KeptByInstructions R) (m : Machine β σ) (w : UInt16) :
    R m (stop w m).2 := by
  refine privileged_kept hR ?_
  exact hR.trans (fetchWord_kept hR.toKeptByHooks m) (hR.of_scene rfl)

theorem moveToSr_kept (hR : KeptByInstructions R) (m : Machine β σ) (w : UInt16) :
    R m (moveToSr w m).2 := by
  refine privileged_kept hR ?_
  exact hR.trans (fetchWord_kept hR.toKeptByHooks m) (hR.of_scene rfl)

theorem rte_kept_of_supervisor (hR : KeptByHooks R) {m : Machine β σ}
    (hs : m.regs.status.s = true) (w : UInt16) : R m (rte w m).2 := by
  simp only [rte, privileged, if_pos hs]
  have hword : R m m.popWord.2 := hR.of_scene rfl
  generalize m.popWord = p at hword ⊢
  obtain ⟨sr, m₁⟩ := p
  have hpop : R m m₁.popLong.2 := hR.trans hword (hR.of_scene rfl)
  dsimp only
  generalize m₁.popLong = q at hpop ⊢
  obtain ⟨dest, n⟩ := q
  have hload : R m (n.mapRegs fun r => r.loadStatus sr) := hR.trans hpop (hR.of_scene rfl)
  have hsp := hR.trans hload (hR.notify _ (.newSp .incremented))
  exact hR.trans (hR.trans hsp (hR.notify _ (.rte dest))) (hR.jump _ dest)

theorem rte_kept (hR : KeptByInstructions R) (m : Machine β σ) (w : UInt16) :
    R m (rte w m).2 := by
  by_cases hs : m.regs.status.s = true
  · exact rte_kept_of_supervisor hR.toKeptByHooks hs w
  · simp only [rte, privileged, if_neg hs]
    exact refuse_kept hR m _

theorem rts_kept (hR : KeptByHooks R) (m : Machine β σ) (w : UInt16) :
    R m (rts w m).2 := by
  have hpop : R m m.popLong.2 := hR.of_scene rfl
  simp only [rts]
  generalize m.popLong = p at hpop ⊢
  obtain ⟨dest, n⟩ := p
  have hsp := hR.trans hpop (hR.notify n (.newSp .incremented))
  exact hR.trans (hR.trans hsp (hR.notify _ (.rts dest))) (hR.jump _ dest)

theorem call_kept (hR : KeptByHooks R) (m : Machine β σ) (ret dest : UInt32) :
    R m (call m ret dest) := by
  have hpush : R m (m.pushLong ret) := hR.of_scene rfl
  exact hR.trans (hR.trans hpush (hR.notify _ (.newSp .decremented))) (hR.jump _ dest)

theorem jsrAbsolute_kept (hR : KeptByHooks R) (m : Machine β σ) (w : UInt16) :
    R m (jsrAbsolute w m).2 := by
  have hfetch := fetchLong_kept hR m
  simp only [jsrAbsolute]
  generalize m.fetchLong = p at hfetch ⊢
  obtain ⟨dest, n⟩ := p
  exact hR.trans (hR.trans hfetch (hR.notify n (.jsr n.regs.pc dest))) (call_kept hR _ _ _)

theorem jsrIndirect_kept (hR : KeptByHooks R) (m : Machine β σ) (w : UInt16) :
    R m (jsrIndirect w m).2 :=
  hR.trans (hR.notify m _) (call_kept hR _ _ _)

theorem link_kept (hR : KeptByHooks R) (m : Machine β σ) (w : UInt16) :
    R m (link w m).2 := by
  have hfetch := fetchWord_kept hR m
  simp only [link]
  generalize m.fetchWord = p at hfetch ⊢
  obtain ⟨d, n⟩ := p
  have hroom : R m (n.mapRegs fun r => r.reserve 4) := hR.trans hfetch (hR.of_scene rfl)
  have hframe : ∀ k : Machine β σ, R k
      ((k.writeLong k.regs.sp k.regs.a[Register.place w.toUInt8]).mapRegs fun r =>
        linkFrame r (Register.place w.toUInt8) d.toInt16.toInt32) := fun _ => hR.of_scene rfl
  have hlink := hR.trans (hR.trans hroom (hframe _)) (hR.notify _ (.link d.toInt16.toInt32))
  exact hR.trans hlink (hR.notify _ (.newSp .decremented))

theorem dispatch_kept (hR : KeptByInstructions R) (w : UInt16) (m : Machine β σ) :
    R m (table.dispatch w m).2 := by
  have hR₀ := hR.toKeptByHooks
  simp only [OpcodeTable.dispatch]
  apply handler_cases w fun h => R m (h w m).2
  case hnop => exact hR.refl m
  case hstop => exact fun _ => stop_kept hR m w
  case hrte => exact fun _ => rte_kept hR m w
  case hrts => exact rts_kept hR₀ m w
  case htrap => exact hR.takeException m _
  case hillegal => exact refuse_kept hR m _
  case habsolute => exact jsrAbsolute_kept hR₀ m w
  case hindirect => exact jsrIndirect_kept hR₀ m w
  case hlink => exact link_kept hR₀ m w
  case hmove => exact fun _ => moveToSr_kept hR m w

end ControlInstructions

namespace Machine.KeptByLoop
variable {β σ : Type} {R : Machine β σ → Machine β σ → Prop} {m m₁ : Machine β σ}

theorem armTrace (hR : KeptByLoop R) (m : Machine β σ) : R m m.armTrace := by
  simp only [Machine.armTrace]
  split
  · have hlog := hR.trans (hR.traceAddress m m.regs.pc)
      (hR.log _ (e := .traceArmed m.regs.pc) rfl)
    exact hR.trans hlog (hR.of_scene rfl)
  · exact hR.refl m

theorem promoteInterrupt (hR : KeptByLoop R) (m : Machine β σ) : R m m.promoteInterrupt := by
  simp only [Machine.promoteInterrupt]
  split
  · exact hR.of_scene rfl
  · exact hR.refl m

variable [Bus β]

theorem traceIfDue (hR : KeptByLoop R) (m : Machine β σ) : R m m.traceIfDue := by
  simp only [Machine.traceIfDue]
  split
  · have hlog := hR.log m (e := .trace) rfl
    exact hR.trans (hR.trans hlog (hR.takeException _ _)) (hR.deliverFault _)
  · exact hR.refl m

theorem executeOpcode (hR : KeptByLoop R) {table : OpcodeTable β σ}
    (hT : ∀ w n, R n (table.dispatch w n).2)
    (h : Logs (fun e => e.ofHost) m.recordRegisters m₁) : R m (m₁.executeOpcode table) := by
  have hword := hR.trans (hR.fetch h)
    (ControlInstructions.fetchWord_kept hR.toKeptByHooks _)
  have hfetched : R m m₁.fetchOpcode.2.takeFault.2 := hR.trans hword (hR.of_scene rfl)
  rw [executeOpcode_eq]
  generalize m₁.fetchOpcode.2.takeFault.2 = n at hfetched ⊢
  split
  · exact hR.trans (hR.trans hfetched (hR.of_scene rfl)) (hR.raiseFault _ _)
  · have hhandled := hR.trans hfetched (hT m₁.fetchOpcode.1 n)
    exact hR.trans (hR.trans hhandled (hR.dispatch _ _ _)) (hR.deliverFault _)

end Machine.KeptByLoop

namespace Hosted
variable {β σ η : Type} [Host η] {R : Machine β σ → Machine β σ → Prop}
open Machine (KeptByLoop)

theorem Talks.kept {s s₁ : Hosted β σ η} (hR : KeptByLoop R)
    (h : Talks (fun e => e.ofHost) s s₁) : R s.machine s₁.machine :=
  hR.logs_host h.1

theorem checkForBreak_kept (hR : KeptByLoop R) (s : Hosted β σ η) :
    R s.machine s.checkForBreak.2.machine := by
  rw [checkForBreak_eq]
  split
  · exact hR.of_scene rfl
  · exact hR.log _ rfl

theorem lateEndOfCycle_kept (hR : KeptByLoop R) (s : Hosted β σ η) :
    R s.machine s.lateEndOfCycle.2.machine := by
  simp only [lateEndOfCycle]
  split
  · exact hR.trans (hR.of_scene rfl) (hR.log _ rfl)
  · exact hR.refl _

theorem pollInterrupts_kept (hR : KeptByLoop R) (s : Hosted β σ η) :
    R s.machine s.pollInterrupts.machine := by
  have hpolled : R s.machine
      (s.consult Host.takeInterruptChange .takeInterruptChange).2.machine := hR.log _ rfl
  simp only [pollInterrupts]
  split
  · exact hR.trans hpolled (hR.of_scene rfl)
  · exact hpolled

theorem cycleSlowly_kept (hR : KeptByLoop R) (s : Hosted β σ η) (sleeping : Bool) :
    R s.machine (s.cycleSlowly sleeping).machine := by
  let slow := s.request (fun h => Host.cycleSlowly h sleeping) (.cycleSlowly sleeping)
  have hslow : R s.machine slow.machine := hR.log _ rfl
  have hasked : R s.machine (slow.ask Host.suspendRequested .suspendRequested).2.machine :=
    hR.trans hslow (hR.log _ rfl)
  rw [cycleSlowly_eq]
  dsimp only
  split
  · exact hR.trans hasked (hR.of_scene rfl)
  · exact hasked

theorem cycle_kept (hR : KeptByLoop R) (s : Hosted β σ η) (sleeping : Bool) :
    R s.machine (s.cycle sleeping).machine := by
  let ticked := s.isNested.2.request (fun h => Host.cycle h sleeping) (.cycle sleeping)
  have hnested : R s.machine s.isNested.2.machine := hR.log _ rfl
  have hticked : R s.machine ticked.machine := hR.trans hnested (hR.log _ rfl)
  have hcounted : R s.machine ticked.pollInterrupts.countTick.machine :=
    hR.trans (hR.trans hticked (pollInterrupts_kept hR ticked)) (hR.slowCounter _ _)
  rw [cycle_eq]
  dsimp only
  split
  · exact hnested
  split
  · exact hR.trans hcounted (cycleSlowly_kept hR _ sleeping)
  · exact hcounted

theorem tick_kept (hR : KeptByLoop R) (s : Hosted β σ η) : R s.machine s.tick.machine :=
  hR.trans (hR.idle s.machine) (cycle_kept hR
    ((s.request Host.delay .delay).map fun m => m.charge m.settings.idleTickCycles) true)

variable [Bus β]

theorem acceptInterrupt_kept (hR : KeptByLoop R) (wake : Registers → Registers)
    (base level : UInt8) (m : Machine β σ) : R m (acceptInterrupt wake base level m) :=
  hR.trans (hR.trans (hR.takeInterrupt m base level) (hR.of_scene rfl)) (hR.deliverFault _)

theorem answerInterrupt_kept (hR : KeptByLoop R) (s : Hosted β σ η) (use : Pending → Pending)
    (wake : Registers → Registers) : R s.machine (s.answerInterrupt use wake).machine := by
  have hlevel : R s.machine s.pendingLevel.2.machine := hR.log _ rfl
  have hused : R s.machine (s.pendingLevel.2.map fun m => m.mapPending use).machine :=
    hR.trans hlevel (hR.of_scene rfl)
  by_cases habove : s.AboveMask
  · obtain ⟨level, hl, hm⟩ := habove
    have hasked : R s.machine (s.askBase use).2.machine := hR.trans hused (hR.log _ rfl)
    rw [answerInterrupt_of_above hl hm]
    exact hR.trans hasked (acceptInterrupt_kept hR wake _ level _)
  · rw [answerInterrupt_of_not_above habove]
    exact hused

theorem dueInterrupt_kept (hR : KeptByLoop R) (s : Hosted β σ η) :
    R s.machine s.dueInterrupt.machine := by
  rw [dueInterrupt_eq]
  split
  · exact answerInterrupt_kept hR s _ _
  · exact hR.refl _

theorem idleInterrupt_kept (hR : KeptByLoop R) (s : Hosted β σ η) :
    R s.machine s.idleInterrupt.machine := by
  rw [idleInterrupt_eq]
  split
  · exact answerInterrupt_kept hR s _ _
  · exact hR.refl _

theorem finishPass_kept (hR : KeptByLoop R) (s : Hosted β σ η) :
    R s.machine s.finishPass.2.machine := by
  have hdue := hR.trans (hR.armTrace s.machine) (dueInterrupt_kept hR (s.map Machine.armTrace))
  have hinterrupted : R s.machine s.interrupted.machine :=
    hR.trans hdue (hR.promoteInterrupt _)
  have hlate := hR.trans hinterrupted (lateEndOfCycle_kept hR _)
  rw [finishPass_eq]
  split
  · exact hlate
  · exact hR.trans hlate (checkForBreak_kept hR _)

end Hosted

namespace Execution
variable {β σ η : Type} [Host η] [Bus β] {R : Machine β σ → Machine β σ → Prop}
  {e : Execution β σ η}
open Machine (KeptByLoop)

theorem opcodeStep_kept (hR : KeptByLoop R) {table : OpcodeTable β σ}
    (hT : ∀ w n, R n (table.dispatch w n).2) (e : Execution β σ η) :
    R e.state.machine (e.opcodeStep table).state.machine := by
  have hbreakpoint := (Hosted.breakpoint_talks
    (Event.of_chat fun _ => Event.ofHost_of_ofTalk) e.state).kept hR
  have hchecked := Hosted.watchdog_check_talks (fun _ => Event.ofHost_of_ofAside) e.watch
    (e.state.breakpoint.map Machine.recordRegisters)
  have hexecuted := hR.trans hbreakpoint (hR.executeOpcode hT hchecked.1)
  rw [opcodeStep_eq]
  exact hR.trans hexecuted
    (Hosted.cycle_kept hR (e.ready.2.map (Machine.executeOpcode table)) false)

theorem specialStep_kept (hR : KeptByLoop R) (e : Execution β σ η) :
    R e.state.machine e.specialStep.state.machine := by
  have hasked : R e.state.machine e.state.isNested.2.machine := hR.log _ rfl
  have hprobed := (probed_talks (fun _ => Event.ofHost_of_ofTalk) e).kept hR
  have htraced : R e.state.machine e.traced.machine := hR.trans hprobed (hR.traceIfDue _)
  rw [specialStep_eq]
  split
  · exact hR.trans hasked (Hosted.checkForBreak_kept hR _)
  split
  · exact hprobed
  split
  · exact hR.trans htraced
      ((Hosted.enterIdle_talks (fun _ => Event.ofHost_of_ofAside) e.traced).kept hR)
  · exact hR.trans htraced (Hosted.finishPass_kept hR e.traced)

theorem idleStep_kept (hR : KeptByLoop R) (watch : Watchdog) (e : Execution β σ η) :
    R e.state.machine (e.idleStep watch).state.machine := by
  have hchecked :=
    (Hosted.watchdog_check_talks (fun _ => Event.ofHost_of_ofAside) watch e.state).kept hR
  have hticked : R e.state.machine (e.ticked watch).2.machine :=
    hR.trans hchecked (Hosted.tick_kept hR _)
  have hwoken := hR.trans (hR.trans hticked (Hosted.idleInterrupt_kept hR _))
    (Hosted.checkForBreak_kept hR _)
  rw [idleStep_eq]
  dsimp only
  split
  · exact hR.trans hwoken (hR.of_scene rfl)
  split
  · exact hwoken
  · exact hR.trans hwoken (Hosted.finishPass_kept hR _)

theorem step_kept (hR : KeptByLoop R) {table : OpcodeTable β σ}
    (hT : ∀ w n, R n (table.dispatch w n).2) (e : Execution β σ η) :
    R e.state.machine (e.step table).state.machine := by
  simp only [step]
  split
  · exact opcodeStep_kept hR hT e
  · exact specialStep_kept hR e
  · exact idleStep_kept hR _ e
  · exact hR.refl _

/-- What every part of the loop keeps holds across a call, however far it has come. -/
theorem execute_kept (hR : KeptByLoop R) {table : OpcodeTable β σ}
    (hT : ∀ w n, R n (table.dispatch w n).2) (s : Hosted β σ η) (n : Nat) :
    R s.machine (execute table n s).state.machine := by
  refine run_keeps table (I := fun e => R s.machine e.state.machine) ?_ ?_ n
  · exact fun e he => hR.trans he (step_kept hR hT e)
  · exact (start_talks (fun _ h => h) s).kept hR

end Execution
end Mc68000
