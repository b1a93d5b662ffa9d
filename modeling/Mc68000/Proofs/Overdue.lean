import Mathlib.Data.List.Chain
import Mc68000.Machine.Control
import Mc68000.Memory.Ram
import Mc68000.Proofs.Loop

/-!
# How often the dead man's switch reports

A switch waits for the timeout after each of its reports. The loop has one switch, and every STOP
arms another when the processor begins to idle. That one starts later than all reports before it.
But the switch of the loop never hears of the reports that are made while the processor idles, so
the first opcode after a wake-up may report again at once.
-/

namespace Mc68000
variable {β σ η : Type}

namespace Event

def reading? : Event → Option UInt64
  | .host (.nowMillis now) => some now
  | _ => none

def warning? : Event → Option UInt64
  | .overdue now _ _ => some now
  | _ => none

def Untimed (e : Event) : Prop := e.reading? = none ∧ e.warning? = none

theorem untimed_of_ofTalk {e : Event} (h : e.ofTalk) : e.Untimed := by
  unfold ofTalk at h
  split at h
  any_goals cases h
  cases e <;> simp_all [ofHost, Untimed, reading?, warning?]

theorem untimed_of_ofOpcode {e : Event} (h : e.ofOpcode) : e.Untimed := by
  cases e <;> simp_all [ofOpcode, ofInstruction, ofException, ofFault, Untimed, reading?, warning?]

theorem untimed_of_ofInterrupt {e : Event} (h : e.ofInterrupt) : e.Untimed := by
  cases e <;> simp_all [ofInterrupt, ofException, ofFault, Untimed, reading?, warning?]

end Event

namespace Machine
variable {m m₁ m₂ : Machine β σ} {ts us ws xs : List UInt64}

/-- The clock was read to say `ts`, and reports were made at `ws`. -/
structure Clocks (m m' : Machine β σ) (ts ws : List UInt64) : Prop where
  readings : m.Shows Event.reading? m' ts
  warnings : m.Shows Event.warning? m' ws

abbrev Untimed (m m' : Machine β σ) : Prop := Evolves Event.Untimed (fun _ _ => True) m m'

theorem Clocks.trans (h : Clocks m m₁ ts ws) (h₁ : Clocks m₁ m₂ us xs) :
    Clocks m m₂ (ts ++ us) (ws ++ xs) :=
  ⟨h.readings.trans h₁.readings, h.warnings.trans h₁.warnings⟩

namespace Untimed

theorem refl (m : Machine β σ) : Untimed m m := Evolves.refl Registers.kept_true m

theorem log (m : Machine β σ) {e : Event} (he : e.Untimed) : Untimed m (m.log e) :=
  Evolves.log Registers.kept_true m he

theorem trans (h : Untimed m m₁) (h₁ : Untimed m₁ m₂) : Untimed m m₂ :=
  Evolves.trans Registers.kept_true h h₁

theorem clocks (h : Untimed m m₁) : Clocks m m₁ [] [] :=
  ⟨.of_evolves (h.mono fun _ he => he.1), .of_evolves (h.mono fun _ he => he.2)⟩

theorem trans_clocks (h : Untimed m m₁) (h₁ : Clocks m₁ m₂ ts ws) : Clocks m m₂ ts ws :=
  h.clocks.trans h₁

end Untimed

theorem Clocks.trans_untimed (h : Clocks m m₁ ts ws) (h₁ : Untimed m₁ m₂) :
    Clocks m m₂ ts ws := by
  have hdone := h.trans h₁.clocks
  rwa [List.append_nil, List.append_nil] at hdone

end Machine

namespace Hosted
variable [Host η]

theorem Talks.untimed {s t : Hosted β σ η} (h : Talks (fun e => e.ofTalk) s t) :
    s.machine.Untimed t.machine :=
  (h.1.evolves Registers.kept_true).mono fun _ => Event.untimed_of_ofTalk

theorem checkForBreak_untimed (s : Hosted β σ η) :
    s.machine.Untimed s.checkForBreak.2.machine :=
  checkForBreak_evolves Registers.kept_true (fun _ => Event.untimed_of_ofTalk)
    (fun _ => trivial) s

variable [Bus β]

theorem finishPass_untimed (s : Hosted β σ η) : s.machine.Untimed s.finishPass.2.machine :=
  finishPass_evolves Registers.kept_true (fun _ => Event.untimed_of_ofTalk)
    (fun _ => ⟨rfl, rfl⟩) (fun _ => trivial) (fun _ => trivial) fun _ _ =>
      dueInterrupt_evolves Registers.kept_true (fun _ => Event.untimed_of_ofTalk)
        (fun _ => Event.untimed_of_ofInterrupt) (fun _ => trivial) (fun _ => trivial)
        (Registry.respects_true _)

theorem woken_untimed (s : Hosted β σ η) :
    s.machine.Untimed s.tick.idleInterrupt.checkForBreak.2.machine := by
  have hticked : s.machine.Untimed s.tick.machine :=
    tick_evolves Registers.kept_true (fun _ => Event.untimed_of_ofTalk) ⟨rfl, rfl⟩ s
  have hinterrupted : s.tick.machine.Untimed s.tick.idleInterrupt.machine :=
    idleInterrupt_evolves Registers.kept_true (fun _ => Event.untimed_of_ofTalk)
      (fun _ => Event.untimed_of_ofInterrupt) (fun _ => trivial) (fun _ => trivial)
      (Registry.respects_true _)
  exact (hticked.trans hinterrupted).trans (checkForBreak_untimed _)

end Hosted

namespace Watchdog
variable [Host η] {T t : UInt64} {s : Hosted β σ η}

def next (T : UInt64) (w : Watchdog) (t : UInt64) : Watchdog := if T < w.elapsed t then ⟨t⟩ else w

def reports (T : UInt64) (w : Watchdog) (t : UInt64) : List UInt64 :=
  if T < w.elapsed t then [t] else []

theorem lt_elapsed {w : Watchdog} (h : T < w.elapsed t) :
    w.start.toNat + T.toNat < t.toNat := by
  simp only [elapsed] at h
  split at h
  · rename_i hle
    rw [UInt64.lt_iff_toNat_lt, UInt64.toNat_sub_of_le _ _ hle] at h
    omega
  · simp [UInt64.lt_iff_toNat_lt] at h

theorem next_cases (T : UInt64) (w : Watchdog) (t : UInt64) :
    (w.reports T t = [t] ∧ w.next T t = ⟨t⟩ ∧ w.start.toNat + T.toNat < t.toNat) ∨
      (w.reports T t = [] ∧ w.next T t = w) := by
  by_cases h : T < w.elapsed t
  · exact .inl ⟨if_pos h, if_pos h, lt_elapsed h⟩
  · exact .inr ⟨if_neg h, if_neg h⟩

theorem arm_clocks (hT : s.machine.settings.deadManTimeoutMs = some T) :
    ∃ t, (arm s).1 = ⟨t⟩ ∧ s.machine.Clocks (arm s).2.machine [t] [] := by
  refine ⟨(Host.nowMillis s.host).1, ?_⟩
  simp only [arm, hT]
  exact ⟨rfl, ⟨[_], rfl, rfl⟩, ⟨[_], rfl, rfl⟩⟩

theorem check_clocks (w : Watchdog) (hT : s.machine.settings.deadManTimeoutMs = some T) :
    ∃ t, (w.check s).1 = w.next T t ∧
      s.machine.Clocks (w.check s).2.machine [t] (w.reports T t) := by
  let read := s.consult Host.nowMillis .nowMillis
  have hread : s.machine.Clocks read.2.machine [read.1] [] := ⟨⟨[_], rfl, rfl⟩, ⟨[_], rfl, rfl⟩⟩
  have hreport : ∀ elapsed pc, read.2.machine.Clocks
      (read.2.machine.log (.overdue read.1 elapsed pc)) [] [read.1] :=
    fun elapsed pc => ⟨.of_event (.overdue read.1 elapsed pc) rfl,
      .of_event (.overdue read.1 elapsed pc) rfl⟩
  refine ⟨read.1, ?_⟩
  rw [Hosted.watchdog_check_eq]
  simp only [hT, next, reports]
  split
  · exact ⟨rfl, hread.trans (hreport _ _)⟩
  · exact ⟨rfl, hread⟩

end Watchdog

namespace Execution
open Machine (Clocks)
variable [Host η] [Bus β] {T : UInt64} {e : Execution β σ η}

inductive Beat (T : UInt64) (e e' : Execution β σ η) : Prop
  | blind (h : e.state.machine.Clocks e'.state.machine [] []) (hwatch : e'.watch = e.watch)
    (hphase : ∀ watch, e'.phase ≠ .idle watch)
  | arm (t : UInt64) (h : e.state.machine.Clocks e'.state.machine [t] [])
    (hwatch : e'.watch = e.watch) (hphase : e'.phase = .idle ⟨t⟩)
  | opcode (t : UInt64) (h : e.state.machine.Clocks e'.state.machine [t] (e.watch.reports T t))
    (hran : e.phase = .opcode) (hwatch : e'.watch = e.watch.next T t)
    (hphase : ∀ watch, e'.phase ≠ .idle watch)
  | idle (watch : Watchdog) (t : UInt64)
    (h : e.state.machine.Clocks e'.state.machine [t] (watch.reports T t))
    (hidled : e.phase = .idle watch) (hwatch : e'.watch = e.watch)
    (hphase : ∀ watch', e'.phase = .idle watch' → watch' = watch.next T t)

omit [Host η] [Bus β] in
theorem endPass_ne_idle (w : Watchdog) (outcome : Bool × Hosted β σ η) (watch : Watchdog) :
    (endPass w outcome).phase ≠ .idle watch := by
  simp only [endPass]
  split <;> nofun

theorem opcodeStep_beat (hT : e.state.machine.settings.deadManTimeoutMs = some T)
    (hran : e.phase = .opcode) : Beat T e (e.opcodeStep ControlInstructions.table) := by
  let s := e.state.breakpoint.map Machine.recordRegisters
  have hbefore : e.state.machine.Untimed s.machine :=
    (Hosted.breakpoint_talks (fun _ => Event.ofTalk_of_ofChat) _).untimed.trans
      (Machine.recordRegisters_evolves Registers.kept_true _)
  obtain ⟨t, hnext, hclocks⟩ :=
    Watchdog.check_clocks (s := s) e.watch (by rw [hbefore.settings, hT])
  have hexecuted : e.ready.2.machine.Untimed
      (e.ready.2.map (Machine.executeOpcode ControlInstructions.table)).machine :=
    Machine.executeOpcode_evolves Registers.kept_true (fun _ => Event.untimed_of_ofOpcode)
      (Registry.respects_true _) fun _ _ => trivial
  have hafter := hexecuted.trans (Hosted.cycle_evolves Registers.kept_true
    (fun _ => Event.untimed_of_ofTalk)
    (e.ready.2.map (Machine.executeOpcode ControlInstructions.table)) false)
  refine .opcode t ?_ hran hnext fun watch => ?_
  · rw [opcodeStep_eq]
    exact hbefore.trans_clocks (hclocks.trans_untimed hafter)
  · rw [opcodeStep_phase]
    split <;> nofun

theorem specialStep_beat (hT : e.state.machine.settings.deadManTimeoutMs = some T) :
    Beat T e e.specialStep := by
  have hnested : e.state.machine.Untimed e.state.isNested.2.machine := .log _ ⟨rfl, rfl⟩
  have hprobed : e.state.machine.Untimed e.probed.2.machine :=
    (probed_talks (fun _ he => he) e).untimed
  have htraced : e.state.machine.Untimed e.traced.machine :=
    hprobed.trans (Machine.traceIfDue_evolves Registers.kept_true ⟨rfl, rfl⟩
      (fun _ he => Event.untimed_of_ofOpcode (Event.ofOpcode_of_ofFault he))
      (Registry.respects_true _))
  rw [specialStep_eq]
  split
  · exact .blind (hnested.trans (Hosted.checkForBreak_untimed _)).clocks rfl (endPass_ne_idle _ _)
  split
  · exact .blind hprobed.clocks rfl nofun
  split
  · have hbefore := htraced.trans
      (Hosted.beforeIdle_talks (fun _ => Event.ofTalk_of_ofChat) e.traced).untimed
    rw [Hosted.enterIdle_eq_arm]
    obtain ⟨t, harm, hclocks⟩ :=
      Watchdog.arm_clocks (s := e.traced.beforeIdle) (by rw [hbefore.settings, hT])
    exact .arm t (hbefore.trans_clocks hclocks) rfl (congrArg Phase.idle harm)
  · exact .blind (htraced.trans (Hosted.finishPass_untimed _)).clocks rfl (endPass_ne_idle _ _)

theorem idleStep_beat (hT : e.state.machine.settings.deadManTimeoutMs = some T)
    {watch : Watchdog} (hidled : e.phase = .idle watch) : Beat T e (e.idleStep watch) := by
  obtain ⟨t, hnext, hclocks⟩ := Watchdog.check_clocks watch hT
  -- The switch is looked at first. The tick, the interrupt and the break leave the clock alone.
  have hwoken := hclocks.trans_untimed (Hosted.woken_untimed _)
  rw [idleStep_eq]
  dsimp only
  split
  · exact .idle watch t (hwoken.trans_untimed (.mapPending _ trivial)) hidled rfl
      fun watch' hphase => absurd hphase (by simp)
  split
  · refine .idle watch t hwoken hidled rfl fun watch' hphase => ?_
    cases hphase
    exact hnext
  · exact .idle watch t (hwoken.trans_untimed (Hosted.finishPass_untimed _)) hidled rfl
      fun watch' hphase => absurd hphase (endPass_ne_idle _ _ watch')

theorem step_beat (hT : e.state.machine.settings.deadManTimeoutMs = some T) :
    Beat T e (e.step ControlInstructions.table) := by
  cases hphase : e.phase with
  | opcode => rw [step_opcode _ hphase]; exact opcodeStep_beat hT hphase
  | special => rw [step_special _ hphase]; exact specialStep_beat hT
  | idle watch => rw [step_idle _ hphase]; exact idleStep_beat hT hphase
  | returned =>
    rw [step_of_returned _ hphase]
    exact .blind (Machine.Untimed.refl _).clocks rfl fun watch => by rw [hphase]; nofun

def Spaced (T : UInt64) (ws : List UInt64) : Prop :=
  ws.IsChain fun a b => a.toNat + T.toNat < b.toNat

def Ordered (m m' : Machine β σ) : Prop :=
  ∃ ts, m.Shows Event.reading? m' ts ∧ ts.Pairwise (· ≤ ·)

def machineAt (s : Hosted β σ η) (n : Nat) : Machine β σ :=
  (execute ControlInstructions.table n s).state.machine

/-- The last report before step `n` was made at `a`, in step `j`, by a processor that idles. -/
structure IdleReport (s : Hosted β σ η) (j n : Nat) (a : UInt64) : Prop where
  before : j < n
  idled : ∃ watch, (execute ControlInstructions.table j s).phase = .idle watch
  report : (machineAt s j).Shows Event.warning? (machineAt s (j + 1)) [a]
  quiet : (machineAt s (j + 1)).Shows Event.warning? (machineAt s n) []

/-- In step `k` an opcode is reported to be overdue although the timeout has not passed since a
report that was made while the processor idled. -/
def Premature (T : UInt64) (s : Hosted β σ η) (k : Nat) : Prop :=
  (execute ControlInstructions.table k s).phase = .opcode ∧
    ∃ j a b, IdleReport s j k a ∧
      (machineAt s k).Shows Event.warning? (machineAt s (k + 1)) [b] ∧
      b.toNat ≤ a.toNat + T.toNat

variable {s : Hosted β σ η} {j k n : Nat} {a t : UInt64} {ts us ws : List UInt64}

theorem IdleReport.extend (h : IdleReport s j n a)
    (hquiet : (machineAt s n).Shows Event.warning? (machineAt s (n + 1)) []) :
    IdleReport s j (n + 1) a :=
  ⟨Nat.lt_succ_of_lt h.before, h.idled, h.report, h.quiet.trans hquiet⟩

theorem machineAt_grows (h : j ≤ n) : (machineAt s j).Grows (machineAt s n) := by
  induction h with
  | refl => exact ⟨[], rfl⟩
  | step _ ih => exact ih.trans (execute_succ_continues s _).grows

/-- Reports are no later than what was read last. A processor that idles has a switch that knows of
all of them; the switch of the loop does not know of the last one only if the processor idled. -/
structure Vigil (T : UInt64) (s : Hosted β σ η) (n : Nat) (ts ws : List UInt64) : Prop where
  clocks : s.machine.Clocks (machineAt s n) ts ws
  read : ∀ a ∈ ws, a ∈ ts
  idle : ∀ watch, (execute ControlInstructions.table n s).phase = .idle watch →
    ∀ a ∈ ws, a ≤ watch.start
  last : ∀ a ∈ ws.getLast?, a ≤ (execute ControlInstructions.table n s).watch.start ∨
    ∃ j, IdleReport s j n a
  spaced : (∀ k < n, ¬ Premature T s k) → Spaced T ws

namespace Vigil

theorem start (hT : s.machine.settings.deadManTimeoutMs = some T) :
    ∃ t, Vigil T s 0 [t] [] := by
  obtain ⟨t, -, hclocks⟩ := Watchdog.arm_clocks hT
  exact ⟨t, hclocks, nofun, fun _ _ => nofun, nofun, fun _ => .nil⟩

theorem quiet (v : Vigil T s n ts ws)
    (h : (machineAt s n).Clocks (machineAt s (n + 1)) us [])
    (hwatch : (execute ControlInstructions.table (n + 1) s).watch =
      (execute ControlInstructions.table n s).watch)
    (hidle : ∀ watch, (execute ControlInstructions.table (n + 1) s).phase = .idle watch →
      ∀ a ∈ ws, a ≤ watch.start) : Vigil T s (n + 1) (ts ++ us) ws where
  clocks := by simpa using v.clocks.trans h
  read a ha := List.mem_append_left us (v.read a ha)
  idle := hidle
  last a ha := by
    rw [hwatch]
    exact (v.last a ha).imp_right fun ⟨j, hj⟩ => ⟨j, hj.extend h.warnings⟩
  spaced hnone := v.spaced fun k hk => hnone k (Nat.lt_succ_of_lt hk)

theorem report (v : Vigil T s n ts ws)
    (h : (machineAt s n).Clocks (machineAt s (n + 1)) [t] [t]) (hts : ∀ a ∈ ts, a ≤ t)
    (hidle : ∀ watch, (execute ControlInstructions.table (n + 1) s).phase = .idle watch →
      watch = ⟨t⟩)
    (hlast : (execute ControlInstructions.table (n + 1) s).watch = ⟨t⟩ ∨
      ∃ watch, (execute ControlInstructions.table n s).phase = .idle watch)
    (hgap : ¬ Premature T s n → ∀ a ∈ ws.getLast?, a.toNat + T.toNat < t.toNat) :
    Vigil T s (n + 1) (ts ++ [t]) (ws ++ [t]) where
  clocks := v.clocks.trans h
  read a ha := by
    rcases List.mem_append.mp ha with ha | ha
    · exact List.mem_append_left _ (v.read a ha)
    · exact List.mem_append_right _ ha
  idle watch hphase a ha := by
    rw [hidle watch hphase]
    rcases List.mem_append.mp ha with ha | ha
    · exact hts a (v.read a ha)
    · exact UInt64.le_of_eq (List.mem_singleton.mp ha)
  last a ha := by
    obtain rfl : t = a := by simpa using ha
    refine hlast.imp (fun hwatch => ?_) fun hidled => ?_
    · rw [hwatch]
      exact UInt64.le_refl _
    · exact ⟨n, Nat.lt_succ_self n, hidled, h.warnings, ⟨[], rfl, rfl⟩⟩
  spaced hnone := by
    refine (v.spaced fun k hk => hnone k (Nat.lt_succ_of_lt hk)).append (.singleton t) ?_
    intro a ha b hb
    obtain rfl : t = b := by simpa using hb
    exact hgap (hnone n (Nat.lt_succ_self n)) a ha

theorem opcode (v : Vigil T s n ts ws) (hts : ∀ a ∈ ts, a ≤ t)
    (hran : (execute ControlInstructions.table n s).phase = .opcode)
    (h : (machineAt s n).Clocks (machineAt s (n + 1)) [t]
      ((execute ControlInstructions.table n s).watch.reports T t))
    (hwatch : (execute ControlInstructions.table (n + 1) s).watch =
      (execute ControlInstructions.table n s).watch.next T t)
    (hphase : ∀ watch, (execute ControlInstructions.table (n + 1) s).phase ≠ .idle watch) :
    ∃ xs, Vigil T s (n + 1) (ts ++ [t]) xs := by
  rcases Watchdog.next_cases T (execute ControlInstructions.table n s).watch t with
    ⟨hreports, hnext, hlate⟩ | ⟨hreports, hnext⟩ <;> rw [hreports] at h
  · refine ⟨_, v.report h hts (fun watch hidle => absurd hidle (hphase watch))
      (.inl (hwatch.trans hnext)) fun hmild a ha => ?_⟩
    -- A report that the switch does not know of is from a processor that idled.
    rcases v.last a ha with hle | ⟨j, hj⟩
    · rw [UInt64.le_iff_toNat_le] at hle
      omega
    · exact Nat.lt_of_not_le fun hnear => hmild ⟨hran, j, a, t, hj, h.warnings, hnear⟩
  · exact ⟨_, v.quiet h (hwatch.trans hnext) fun watch hidle => absurd hidle (hphase watch)⟩

theorem idling (v : Vigil T s n ts ws) (hts : ∀ a ∈ ts, a ≤ t) {watch : Watchdog}
    (hidled : (execute ControlInstructions.table n s).phase = .idle watch)
    (h : (machineAt s n).Clocks (machineAt s (n + 1)) [t] (watch.reports T t))
    (hwatch : (execute ControlInstructions.table (n + 1) s).watch =
      (execute ControlInstructions.table n s).watch)
    (hphase : ∀ watch', (execute ControlInstructions.table (n + 1) s).phase = .idle watch' →
      watch' = watch.next T t) :
    ∃ xs, Vigil T s (n + 1) (ts ++ [t]) xs := by
  have hknown := v.idle watch hidled
  rcases Watchdog.next_cases T watch t with ⟨hreports, hnext, hlate⟩ | ⟨hreports, hnext⟩ <;>
    rw [hreports] at h <;> rw [hnext] at hphase
  · refine ⟨_, v.report h hts hphase (.inr ⟨watch, hidled⟩) fun _ a ha => ?_⟩
    have hle := hknown a (List.mem_of_getLast? ha)
    rw [UInt64.le_iff_toNat_le] at hle
    omega
  · refine ⟨_, v.quiet h hwatch fun watch' hidle => ?_⟩
    rw [hphase watch' hidle]
    exact hknown

theorem step (v : Vigil T s n ts ws) (hT : s.machine.settings.deadManTimeoutMs = some T)
    (hread : (machineAt s n).Shows Event.reading? (machineAt s (n + 1)) us)
    (hts : (ts ++ us).Pairwise (· ≤ ·)) : ∃ xs, Vigil T s (n + 1) (ts ++ us) xs := by
  have hlater : ∀ t ∈ us, ∀ a ∈ ts, a ≤ t := fun t ht a ha =>
    (List.pairwise_append.mp hts).2.2 a ha t ht
  have hbeat := step_beat (e := execute ControlInstructions.table n s)
    (by rw [(execute_continues s n).settings, hT])
  rw [← execute_succ] at hbeat
  cases hbeat with
  | blind h hwatch hphase =>
    obtain rfl : us = [] := hread.unique h.readings
    exact ⟨_, v.quiet h hwatch fun watch hidle => absurd hidle (hphase watch)⟩
  | arm t h hwatch hphase =>
    obtain rfl : us = [t] := hread.unique h.readings
    refine ⟨_, v.quiet h hwatch fun watch hidle a ha => ?_⟩
    rw [hphase] at hidle
    cases hidle
    exact hlater t (List.mem_singleton_self t) a (v.read a ha)
  | opcode t h hran hwatch hphase =>
    obtain rfl : us = [t] := hread.unique h.readings
    exact v.opcode (hlater t (List.mem_singleton_self t)) hran h hwatch hphase
  | idle watch t h hidled hwatch hphase =>
    obtain rfl : us = [t] := hread.unique h.readings
    exact v.idling (hlater t (List.mem_singleton_self t)) hidled h hwatch hphase

end Vigil

theorem execute_vigil (hT : s.machine.settings.deadManTimeoutMs = some T)
    (hread : s.machine.Shows Event.reading? (machineAt s n) ts) (hts : ts.Pairwise (· ≤ ·)) :
    ∃ ws, Vigil T s n ts ws := by
  induction n generalizing ts with
  | zero =>
    obtain ⟨t, hstart⟩ := Vigil.start hT
    obtain rfl : ts = [t] := hread.unique hstart.clocks.readings
    exact ⟨[], hstart⟩
  | succ n ih =>
    -- The clock was in order up to the last step, since what was read by then comes first.
    have hbefore := Machine.Shows.of_take Event.reading? (execute_continues s n).grows
    have hstep := Machine.Shows.of_take Event.reading?
      (machineAt_grows (s := s) (Nat.le_succ n))
    obtain rfl := hread.unique (hbefore.trans hstep)
    obtain ⟨ws, v⟩ := ih hbefore (List.pairwise_append.mp hts).1
    exact v.step hT hstep hts

theorem Premature.not_spaced (h : Premature T s k) (hk : k < n)
    (hws : s.machine.Shows Event.warning? (machineAt s n) ws) : ¬ Spaced T ws := by
  obtain ⟨-, j, a, b, hidle, hreport, hnear⟩ := h
  have hbefore := Machine.Shows.of_take Event.warning? (execute_continues s j).grows
  have hafter := Machine.Shows.of_take Event.warning? (machineAt_grows (s := s) hk)
  have hboth : (machineAt s j).Shows Event.warning? (machineAt s (k + 1)) [a, b] :=
    (hidle.report.trans hidle.quiet).trans hreport
  obtain rfl := hws.unique ((hbefore.trans hboth).trans hafter)
  intro hspaced
  rw [Spaced, List.append_assoc] at hspaced
  exact Nat.not_lt_of_le hnear (List.isChain_append_cons_cons.mp hspaced).2.1

/-- With a clock that does not go back, the reports of a call are more than the timeout apart,
unless the first report after a wake-up comes too early after the last one of a STOP. -/
theorem execute_spaced_iff (hT : s.machine.settings.deadManTimeoutMs = some T)
    (hclock : Ordered s.machine (machineAt s n)) :
    ∃ ws, s.machine.Shows Event.warning? (machineAt s n) ws ∧
      (Spaced T ws ↔ ∀ k < n, ¬ Premature T s k) := by
  obtain ⟨ts, hread, hts⟩ := hclock
  obtain ⟨ws, v⟩ := execute_vigil hT hread hts
  refine ⟨ws, v.clocks.warnings, fun hspaced k hk hearly => ?_, v.spaced⟩
  exact hearly.not_spaced hk v.clocks.warnings hspaced

end Execution

/-- A host whose clock goes on with every delay and every cycle. In the fourth cycle its interrupt
line rises, and after the fifth it asks for a break. -/
structure Host.Ticking where
  now : UInt64 := 0
  ticks : Nat := 0

instance : Host Host.Ticking where
  nowMillis h := (h.now, h)
  delay h := { h with now := h.now + 4 }
  checkForBreak h := (5 ≤ h.ticks, h)
  interruptLevel h := (if 4 ≤ h.ticks then some 6 else none, h)
  takeInterruptChange h := (4 ≤ h.ticks, h)
  cycle h _ := { now := h.now + 4, ticks := h.ticks + 1 }

namespace Execution

def overslept : Hosted Ram Unit Host.Ticking :=
  let ram := ((Ram.ofSize 256).pokeLong 0x78 0xB0).loadWords 0xA0 [0x4E72, 0x2000]
  let m := Machine.ofSettings { Settings.default with deadManTimeoutMs := some 10 }
    (ram.loadWords 0xB0 [0x4E71]) ()
  ⟨(m.setRegister .sp 0x100).setRegister .pc 0xA0, {}⟩

theorem overslept_ordered : Ordered overslept.machine (machineAt overslept 6) := by
  have hread := Machine.Shows.of_take Event.reading? (execute_continues overslept 6).grows
  exact ⟨_, hread, by decide +kernel⟩

theorem execute_spaced_iff_overslept :
    overslept.machine.settings.deadManTimeoutMs = some 10 ∧
      Ordered overslept.machine (machineAt overslept 6) ∧
        ∃ ws, overslept.machine.Shows Event.warning? (machineAt overslept 6) ws ∧
          (Spaced 10 ws ↔ ∀ k < 6, ¬ Premature 10 overslept k) :=
  ⟨rfl, overslept_ordered, execute_spaced_iff rfl overslept_ordered⟩

theorem execute_not_spaced :
    overslept.machine.settings.deadManTimeoutMs = some 10 ∧
      Ordered overslept.machine (machineAt overslept 6) ∧
        overslept.machine.Shows Event.warning? (machineAt overslept 6) [20, 28] ∧
          ¬ Spaced 10 [20, 28] := by
  have hjournal : let before := overslept.machine.journal
      let after := (machineAt overslept 6).journal
      (after.take (after.length - before.length)).reverse.filterMap Event.warning? = [20, 28] := by
    decide +kernel
  refine ⟨rfl, overslept_ordered, ?_, fun hspaced => absurd hspaced.rel (by decide)⟩
  exact hjournal ▸ .of_take Event.warning? (execute_continues overslept 6).grows

end Execution
end Mc68000
