import ReverbFPGA.Hardware.SampleModel

namespace Reverb

/-!
# What a tick reads of its inputs

The processor rewrites the parameter registers at any edge, and the sample bus need not be held.
Still a tick reads each input at few edges only (`Channel.TickReads`), with `p` the predelay at the
edge of the tick:

* at the edge of the tick, the dry sample and the mix, the predelay, and the damping that the
  low-pass filters latch with;
* `p + 1` edges later, the sample that the first line of the main echo pushes;
* `nLFCF j / 2 + 1` edges later, the decay and the damping with which comb `j` pushes.

`Sample.step` is one tick with these readings.  `restart_refines` says that a channel, from any
state that a reset hits, makes one such step for each tick, and `reads_decide_output` that nothing
else of the inputs, and nothing of the state but the words in the memories and at the outputs,
reaches the sound.
-/

open Clocked DelayLine ShiftMemory

namespace Channel

/-! ### One tick -/

/-- The readings of one tick. -/
structure TickReads where
  dataIn : BitVec 24
  mixValue : BitVec 24
  preDelayValue : BitVec 10
  dampingLatched : BitVec 25
  dataPushed : BitVec 24
  decayPushed : Fin 8 → BitVec 25
  dampingPushed : Fin 8 → BitVec 25

/-- The readings of a tick at edge `t`. -/
def tickReads (inp : ℕ → In) (t : ℕ) : TickReads where
  dataIn := (inp t).dataIn
  mixValue := (inp t).mixValue
  preDelayValue := (inp t).preDelayValue
  dampingLatched := (inp t).dampingValue
  dataPushed := (inp (t + (inp t).preDelayValue.toNat + 1)).dataIn
  decayPushed := fun j => (inp (t + nLFCF j / 2 + 1)).decayValue
  dampingPushed := fun j => (inp (t + nLFCF j / 2 + 1)).dampingValue

/-- The inputs at the edge of the tick.  Nothing reads the decay there. -/
def TickReads.atTick (o : TickReads) : In where
  rst := true
  dataSampledValid := true
  dataIn := o.dataIn
  mixValue := o.mixValue
  preDelayValue := o.preDelayValue
  decayValue := 0
  dampingValue := o.dampingLatched

/-- The inputs that matter at the push of a line. -/
def TickReads.atPush (o : TickReads) : Line → In
  | .lfcf1 j =>
    { o.atTick with decayValue := o.decayPushed j, dampingValue := o.dampingPushed j }
  | _ => { o.atTick with dataIn := o.dataPushed }

/-- One pass of all lines with the readings `o`, when the filters have latched `lp`. -/
def Sample.pass (a : Sample) (o : TickReads) (lp : Fin 8 → BitVec 25) : Sample :=
  let out := fun l => a.mem l (l.currentN o.preDelayValue.toNat - 2)
  { mem := fun l =>
      shiftIn (l.currentN o.preDelayValue.toNat - 1) (pushed out lp (o.atPush l) l) (a.mem l)
    out := out
    lp := lp }

/-- One tick with the readings `o`. -/
def Sample.step (a : Sample) (o : TickReads) : Sample := a.pass o (latched a.out a.lp o.atTick)

/-- The state after `n` ticks with the readings `o 0`, `o 1`, …. -/
def Sample.steps (a : Sample) (o : ℕ → TickReads) : ℕ → Sample
  | 0 => a
  | n + 1 => (a.steps o n).step (o n)

/-- The steps depend on the readings alone. -/
theorem Sample.steps_congr (a : Sample) {o o' : ℕ → TickReads} (h : ∀ n, o n = o' n) (n : ℕ) :
    a.steps o n = a.steps o' n := by
  rw [funext h]

/-! ### The signals at a push -/

/-- A comb pushes what the sample bus, the decay and the damping of the moment make of it. -/
theorem pushed_lfcf1_congr {out : (l : Line) → BitVec l.width} {lp : Fin 8 → BitVec 25}
    {i i' : In} (j : Fin 8) (hdecay : i.decayValue = i'.decayValue)
    (hdamping : i.dampingValue = i'.dampingValue) :
    pushed out lp i (.lfcf1 j) = pushed out lp i' (.lfcf1 j) := by
  show LFCF.outputAdder _ _ = LFCF.outputAdder _ _
  unfold LFCF.outputAdder LFCF.secondInputAdder LFCF.outLPFilter LPF.outputAdder
    LPF.firstInputAdder LPF.secondInputAdder
  simp only [LateReverb.lfcfIn, lateReverbIn, LFCF.firstInputAdder, LFCF.lpFilterIn, hdecay,
    hdamping]

/-- The other lines push a word that another line puts out. -/
theorem pushed_congr_of_inner {out : (l : Line) → BitVec l.width} {lp : Fin 8 → BitVec 25}
    {i i' : In} (hx : i.dataIn = i'.dataIn) {l : Line} (hl : ∀ j, l ≠ .lfcf1 j) :
    pushed out lp i l = pushed out lp i' l := by
  cases l with
  | lfcf1 j => exact absurd rfl (hl j)
  | mainEcho j =>
    show Chain.lineDataIn _ _ j = Chain.lineDataIn _ _ j
    simp only [Chain.lineDataIn, EarlyReverb.delayLinesIn, earlyReverbIn, hx]
  | nearEcho j | lfcf2 j | apf j => rfl

/-! ### Passes -/

/-- Every line makes its passes at the ticks `T 0 < T 1 < …`, on ports with the words of the channel
    at them, and when the first line pushes the filters hold `lp n`. -/
structure Passing (s : ℕ → Channel) (inp : ℕ → In) (T : ℕ → ℕ) (lp : ℕ → Fin 8 → BitVec 25) :
    Prop where
  line : ∀ l, ∃ ports, VarTicked (fun t => (s t).line l) ports T
    (fun n => l.currentN (inp (T n)).preDelayValue.toNat) ∧
      ∀ t, (ports t).dataIn = ((s t).lineIn (inp t) l).dataIn
  lp_eq : ∀ n t, T n + 3 ≤ t → t ≤ T (n + 1) → (s t).sample.lp = lp n

namespace Passing

variable {s : ℕ → Channel} {inp : ℕ → In} {T : ℕ → ℕ} {lp : ℕ → Fin 8 → BitVec 25}

/-- From edge 2 of a tick to edge 2 of the next one, the output words are those of the pass. -/
theorem out_eq (h : Passing s inp T lp) {n t : ℕ} (h1 : T n + 3 ≤ t) (h2 : t ≤ T (n + 1) + 2) :
    (s t).sample.out = ((s (T n)).sample.pass (tickReads inp (T n)) (lp n)).out := by
  funext l
  obtain ⟨_, hline, -⟩ := h.line l
  exact hline.dataOut_eq h1 h2

/-- Up to edge 2 of the first tick the output words stay. -/
theorem out_before (h : Passing s inp T lp) {t : ℕ} (ht : t ≤ T 0 + 2) :
    (s t).sample.out = (s 0).sample.out := by
  funext l
  obtain ⟨_, hline, -⟩ := h.line l
  exact hline.dataOut_before ht

/-- A line pushes what the readings of the tick say. -/
theorem pushed_eq (h : Passing s inp T lp) (n : ℕ) {l : Line}
    (h5 : 5 ≤ l.currentN (inp (T n)).preDelayValue.toNat)
    (hpass : T n + l.currentN (inp (T n)).preDelayValue.toNat + 2 ≤ T (n + 1)) :
    ((s (T n + l.currentN (inp (T n)).preDelayValue.toNat + 1)).lineIn
        (inp (T n + l.currentN (inp (T n)).preDelayValue.toNat + 1)) l).dataIn =
      pushed ((s (T n)).sample.pass (tickReads inp (T n)) (lp n)).out (lp n)
        ((tickReads inp (T n)).atPush l) l := by
  rw [lineIn_dataIn, h.out_eq (n := n) (by omega) (by omega), h.lp_eq n _ (by omega) (by omega)]
  cases l with
  | lfcf1 j => exact pushed_lfcf1_congr j rfl rfl
  | mainEcho j => exact pushed_congr_of_inner rfl (by simp)
  -- these read other lines only
  | nearEcho j | lfcf2 j | apf j => rfl

/-- **From tick to tick** the state makes one pass. -/
theorem sample_succ (h : Passing s inp T lp) (n : ℕ) :
    (s (T (n + 1))).sample = (s (T n)).sample.pass (tickReads inp (T n)) (lp n) := by
  -- each line shifts, and pushes what the readings of its push edge give
  have hmem : (s (T (n + 1))).sample.mem =
      ((s (T n)).sample.pass (tickReads inp (T n)) (lp n)).mem := by
    funext l
    obtain ⟨ports, hline, hports⟩ := h.line l
    show ((s (T (n + 1))).line l).content = _
    rw [hline.content_succ, hports, h.pushed_eq n (hline.five_le n) (hline.room n)]
    rfl
  obtain ⟨_, hline, -⟩ := h.line (.mainEcho 0)
  have hroom := hline.room n
  have h5 := hline.five_le n
  have hout := h.out_eq (n := n) (t := T (n + 1)) (by omega) (by omega)
  have hlp := h.lp_eq n (T (n + 1)) (by omega) le_rfl
  calc (s (T (n + 1))).sample
      = ⟨(s (T (n + 1))).sample.mem, (s (T (n + 1))).sample.out, (s (T (n + 1))).sample.lp⟩ := rfl
    _ = (s (T n)).sample.pass (tickReads inp (T n)) (lp n) := by rw [hmem, hout, hlp]; rfl

/-- Before the first tick the words stay. -/
theorem words_before (h : Passing s inp T lp) :
    (s (T 0)).sample.mem = (s 0).sample.mem ∧ (s (T 0)).sample.out = (s 0).sample.out := by
  refine ⟨funext fun l => ?_, h.out_before (by omega)⟩
  obtain ⟨_, hline, -⟩ := h.line l
  exact (hline.before le_rfl).2.1

end Passing

/-! ### Runs -/

/-- The run of a channel in which all delay lines are idle at the start and the ticks are at least
    1002 edges apart.  The predelay is within 5 and 983 when a tick comes; the inputs may change
    at every edge. -/
structure Driven (s : ℕ → Channel) (inp : ℕ → In) (T : ℕ → ℕ) : Prop where
  run : IsRun edge s inp
  idle : ∀ l, ((s 0).line l).shiftState = .idle
  rst : ∀ t, (inp t).rst = true
  five_le : ∀ n, 5 ≤ (inp (T n)).preDelayValue.toNat
  le_983 : ∀ n, (inp (T n)).preDelayValue.toNat ≤ 983
  pulses : Pulses (fun t => (inp t).dataSampledValid) T 1002

namespace Driven

variable {s : ℕ → Channel} {inp : ℕ → In} {T : ℕ → ℕ}

/-- Every line is long enough for its FSM, and done before the next tick. -/
theorem currentN_bounds (h : Driven s inp T) (l : Line) (n : ℕ) :
    5 ≤ l.currentN (inp (T n)).preDelayValue.toNat ∧
      l.currentN (inp (T n)).preDelayValue.toNat + 2 ≤ 1002 :=
  l.currentN_bounds (h.five_le n) (h.le_983 n)

/-- Each line of the channel is a delay line under these ticks, with a delay that may change. -/
theorem varTicked (h : Driven s inp T) (l : Line) :
    VarTicked (fun t => (s t).line l) (fun t => (s t).lineIn (inp t) l) T
      (fun n => l.currentN (inp (T n)).preDelayValue.toNat) where
  run := isRun_line h.run l
  idle := h.idle l
  rst := fun t => by rw [lineIn_rst, h.rst]
  five_le := fun n => (h.currentN_bounds l n).1
  pulses := by
    simp only [lineIn_dataSampledValid]
    exact h.pulses.mono_gap (by decide)
  room := fun n => by
    have hgap := h.pulses.spaced n
    have hpass := (h.currentN_bounds l n).2
    omega
  currentN := fun n => by rw [lineIn_currentN]

/-- From edge 0 of a tick to the next one, the filter registers are those of `step`. -/
theorem lp_eq (h : Driven s inp T) {n t : ℕ} (h1 : T n + 1 ≤ t) (h2 : t ≤ T (n + 1)) :
    (s t).sample.lp = ((s (T n)).sample.step (tickReads inp (T n))).lp := by
  funext j
  -- the tick is the only edge at which the filter latches
  have hload := LPF.run_after (isRun_lpFilter h.run j) h.rst h.pulses h1 h2
  show ((s t).lpFilter j).prevOutputAdder = latched _ _ _ j
  rw [hload, lpFilter_outputAdder]
  exact latched_congr rfl j

/-- A driven channel makes the passes of the sample machine, with the filters that it latches. -/
theorem passing (h : Driven s inp T) :
    Passing s inp T fun n => ((s (T n)).sample.step (tickReads inp (T n))).lp where
  line := fun l => ⟨_, h.varTicked l, fun _ => rfl⟩
  lp_eq := fun _ _ h1 h2 => h.lp_eq (by omega) h2

/-- **One step for each tick**, at whatever edges the inputs change. -/
theorem sample_succ (h : Driven s inp T) (n : ℕ) :
    (s (T (n + 1))).sample = (s (T n)).sample.step (tickReads inp (T n)) :=
  h.passing.sample_succ n

/-- Before the first tick the state stays. -/
theorem sample_before (h : Driven s inp T) : (s (T 0)).sample = (s 0).sample := by
  obtain ⟨hmem, hout⟩ := h.passing.words_before
  have hlp : (s (T 0)).sample.lp = (s 0).sample.lp := by
    funext j
    show ((s (T 0)).lpFilter j).prevOutputAdder = _
    rw [LPF.run_before (isRun_lpFilter h.run j) h.rst h.pulses le_rfl]
    rfl
  calc (s (T 0)).sample
      = ⟨(s (T 0)).sample.mem, (s (T 0)).sample.out, (s (T 0)).sample.lp⟩ := rfl
    _ = (s 0).sample := by rw [hmem, hout, hlp]

/-- **Run of ticks.** At tick `n` the memories, outputs and filters are those of the sample
    machine. -/
theorem sample_eq (h : Driven s inp T) (n : ℕ) :
    (s (T n)).sample = (s 0).sample.steps (fun k => tickReads inp (T k)) n := by
  induction n with
  | zero => exact h.sample_before
  | succ n ih => rw [h.sample_succ, ih, Sample.steps]

end Driven

/-! ### From a reset -/

/-- The run of a channel that is reset up to edge `r`, whatever it was doing.  From then on the
    ticks are at least 1002 edges apart, and the predelay is within 5 and 983 when one comes. -/
structure Restarted (s : ℕ → Channel) (inp : ℕ → In) (T : ℕ → ℕ) (r : ℕ) : Prop where
  run : IsRun edge s inp
  reset : 0 < r
  rst_low : ∀ t, t < r → (inp t).rst = false
  rst_high : ∀ t, r ≤ t → (inp t).rst = true
  five_le : ∀ n, 5 ≤ (inp (T n)).preDelayValue.toNat
  le_983 : ∀ n, (inp (T n)).preDelayValue.toNat ≤ 983
  pulses : Pulses (fun t => decide (r ≤ t) && (inp t).dataSampledValid) T 1002

/-- What a reset makes of the state: the filters are cleared, and nothing else is. -/
def Sample.restart (a : Sample) : Sample := { a with lp := fun _ => 0 }

namespace Restarted

variable {s : ℕ → Channel} {inp : ℕ → In} {T : ℕ → ℕ} {r : ℕ}

/-- The reset leaves the words in the memories and at the outputs alone; a write in flight is
    carried out. -/
theorem words_reset (h : Restarted s inp T r) {t : ℕ} (ht : t ≤ r) (l : Line) :
    ((s t).line l).content = ((s 0).line l).content ∧
      ((s t).line l).dataOut = ((s 0).line l).dataOut := by
  induction t with
  | zero => exact ⟨rfl, rfl⟩
  | succ t ih =>
    obtain ⟨hcontent, hout⟩ := ih (by omega)
    have hlow : ((s t).lineIn (inp t) l).rst = false := by
      rw [lineIn_rst]
      exact h.rst_low t (by omega)
    -- the content counts a write in flight as made, so that the edge that makes it changes nothing
    have hedge : (s (t + 1)).line l = ((s t).line l).edge ((s t).lineIn (inp t) l) :=
      isRun_line h.run l t
    rw [hedge]
    constructor
    · rw [content_edge_of_not_we (by rw [edge_reset hlow]), hcontent]
    · rw [dataOut_edge (fun hr => absurd hr (by rw [hlow]; decide)), hout]

/-- The state that the reset leaves. -/
theorem sample_reset (h : Restarted s inp T r) : (s r).sample = (s 0).sample.restart := by
  have hmem : (s r).sample.mem = (s 0).sample.mem := funext fun l => (h.words_reset le_rfl l).1
  have hout : (s r).sample.out = (s 0).sample.out := funext fun l => (h.words_reset le_rfl l).2
  have hlp : (s r).sample.lp = fun _ => 0 := by
    funext j
    have hr := h.reset
    -- the last edge of the reset is enough
    have hlast := isRun_lpFilter h.run j (r - 1)
    rw [show r - 1 + 1 = r by omega, LPF.edge_reset (h.rst_low _ (by omega))] at hlast
    exact congrArg LPF.prevOutputAdder hlast
  calc (s r).sample
      = ⟨(s r).sample.mem, (s r).sample.out, (s r).sample.lp⟩ := rfl
    _ = (s 0).sample.restart := by rw [hmem, hout, hlp]; rfl

/-- No tick comes before the reset is over. -/
theorem le_tick (h : Restarted s inp T r) (n : ℕ) : r ≤ T n := by
  have htick := h.pulses.tick_at n
  simp only [Bool.and_eq_true, decide_eq_true_eq] at htick
  exact htick.1

/-- From the end of the reset on, all delay lines are idle at the start. -/
theorem driven (h : Restarted s inp T r) :
    Driven (fun t => s (r + t)) (fun t => inp (r + t)) (fun n => T n - r) where
  run := fun t => h.run (r + t)
  idle := fun l => by
    have hr := h.reset
    have hlow : ((s (r - 1)).lineIn (inp (r - 1)) l).rst = false := by
      rw [lineIn_rst]
      exact h.rst_low _ (by omega)
    have hlast := isRun_line h.run l (r - 1)
    rw [show r - 1 + 1 = r by omega, edge_reset hlow] at hlast
    exact congrArg DelayLine.shiftState hlast
  rst := fun t => h.rst_high _ (by omega)
  five_le := fun n => by
    rw [Nat.add_sub_cancel' (h.le_tick n)]
    exact h.five_le n
  le_983 := fun n => by
    rw [Nat.add_sub_cancel' (h.le_tick n)]
    exact h.le_983 n
  pulses :=
    { spaced := fun n => by
        have hsp := h.pulses.spaced n
        have hle := h.le_tick n
        omega
      pulse_iff := fun t => by
        have hiff := h.pulses.pulse_iff (r + t)
        simp only [Nat.le_add_right, decide_true, Bool.true_and] at hiff
        rw [hiff]
        constructor
        · rintro ⟨n, hn⟩
          exact ⟨n, by omega⟩
        · rintro ⟨n, hn⟩
          have hle := h.le_tick n
          exact ⟨n, by omega⟩ }

/-- One step for each tick from the state that the reset leaves. -/
theorem sample_eq (h : Restarted s inp T r) (n : ℕ) :
    (s (T n)).sample = (s 0).sample.restart.steps (fun k => tickReads inp (T k)) n := by
  -- the driven run starts its time at the end of the reset
  have hreads : ∀ k, tickReads (fun t => inp (r + t)) (T k - r) = tickReads inp (T k) := by
    intro k
    have hle := h.le_tick k
    have hshift : ∀ c, r + (T k - r + c + 1) = T k + c + 1 := fun c => by omega
    simp only [tickReads, Nat.add_sub_cancel' hle, hshift]
  have hsteps := h.driven.sample_eq n
  simp only [Nat.add_sub_cancel' (h.le_tick n), Nat.add_zero, h.sample_reset] at hsteps
  rw [hsteps]
  exact Sample.steps_congr _ hreads n

/-- The output at a tick is computed from the words of the sample machine. -/
theorem dataOut_eq (h : Restarted s inp T r) (n : ℕ) :
    (s (T n)).dataOut (inp (T n)) =
      wiresDataOut ((s 0).sample.restart.steps (fun k => tickReads inp (T k)) n).out
        (tickReads inp (T n)).atTick := by
  rw [dataOut_eq_wires, h.sample_eq]
  exact wiresDataOut_congr rfl rfl

end Restarted

/-- **A channel refines the sample machine from a reset on.**  Whatever a reset hits, and at
    whatever edges the inputs change after it: at tick `n` the channel is in the state that `n`
    steps make of the words that it held before the reset, each step with the readings of its
    tick, and the output word is what these words and the readings of tick `n` give. -/
theorem restart_refines {s : ℕ → Channel} {inp : ℕ → In} {T : ℕ → ℕ} {r : ℕ}
    (h : Restarted s inp T r) (n : ℕ) :
    (s (T n)).sample = (s 0).sample.restart.steps (fun k => tickReads inp (T k)) n ∧
    (s (T n)).dataOut (inp (T n)) =
      wiresDataOut ((s 0).sample.restart.steps (fun k => tickReads inp (T k)) n).out
        (tickReads inp (T n)).atTick :=
  ⟨h.sample_eq n, h.dataOut_eq n⟩

/-- A reset at edge 0, then a tick every 1002 edges.  The sample bus, the mix, the decay and the
    damping change at every edge, and the word `v` is on the bus 500 edges after each tick. -/
def restless (v : BitVec 24) (t : ℕ) : In where
  rst := t != 0
  dataSampledValid := every 1 1002 t
  dataIn := if (t - 1) % 1002 = 500 then v else BitVec.ofNat 24 t
  mixValue := BitVec.ofNat 24 (3 * t)
  preDelayValue := 5
  decayValue := BitVec.ofNat 25 (5 * t)
  dampingValue := BitVec.ofNat 25 (7 * t)

/-- Inputs that change all the time make a restarted channel too. -/
theorem restarted_restless (s₀ : Channel) (v : BitVec 24) :
    Restarted (run edge s₀ (restless v)) (restless v) (fun n => 1 + 1002 * n) 1 where
  run := isRun_run _ _
  reset := Nat.one_pos
  rst_low := fun t ht => by rw [Nat.lt_one_iff.mp ht]; rfl
  rst_high := fun t ht => by
    have hne : t ≠ 0 := by omega
    simp [restless, hne]
  five_le := fun _ => le_rfl
  le_983 := fun _ => show 5 ≤ 983 by decide
  pulses := by
    have hticks : (fun t => decide (1 ≤ t) && (restless v t).dataSampledValid) = every 1 1002 := by
      ext t
      simp [restless, every]
    rw [hticks]
    exact pulses_every 1 1002

/-- At tick 3 the first line of the main echo holds the sample that it pushed, six edges after
    tick 2. -/
theorem restart_refines_restless :
    (run edge powerUp (restless 0) (1 + 1002 * 3)).sample.mem (.mainEcho 0) 0 = 2011#24 := by
  have hsample := (restart_refines (restarted_restless powerUp 0) 3).1
  rw [hsample, Sample.steps]
  show (restless 0 (1 + 1002 * 2 + 5 + 1)).dataIn = 2011#24
  decide

/-- **Only the readings of the ticks reach the sound.**  Two runs of a channel, reset in any states
    with the same words in the memories and at the outputs, for any number of edges, with ticks
    that are spaced differently and inputs that agree in the readings of the ticks and nowhere
    else: the output words at tick `n` are the same. -/
theorem reads_decide_output {s s' : ℕ → Channel} {inp inp' : ℕ → In} {T T' : ℕ → ℕ} {r r' : ℕ}
    (h : Restarted s inp T r) (h' : Restarted s' inp' T' r')
    (hmem : (s 0).sample.mem = (s' 0).sample.mem) (hout : (s 0).sample.out = (s' 0).sample.out)
    (hreads : ∀ n, tickReads inp (T n) = tickReads inp' (T' n)) (n : ℕ) :
    (s (T n)).dataOut (inp (T n)) = (s' (T' n)).dataOut (inp' (T' n)) := by
  have hstart : (s 0).sample.restart = (s' 0).sample.restart := by
    unfold Sample.restart
    rw [hmem, hout]
  rw [h.dataOut_eq, h'.dataOut_eq, hstart, hreads n, Sample.steps_congr _ hreads n]

/-- A channel with empty delay lines, those of the early reverb about to push. -/
def pushing : Channel where
  earlyReverb :=
    { delayLines := fun _ => { DelayLine.powerUp 24 with shiftState := .push }
      nearEchoes := fun _ => { DelayLine.powerUp 24 with shiftState := .push } }
  lateReverb := powerUp.lateReverb

/-- The word on the bus 500 edges after each tick is not heard, nor is the push that the reset
    cancels. -/
theorem reads_decide_output_restless :
    (run edge powerUp (restless 0x123456) (1 + 1002 * 3)).dataOut
        (restless 0x123456 (1 + 1002 * 3)) =
      (run edge pushing (restless 0) (1 + 1002 * 3)).dataOut (restless 0 (1 + 1002 * 3)) := by
  refine reads_decide_output (restarted_restless powerUp 0x123456) (restarted_restless pushing 0)
    ?_ ?_ ?_ 3
  · funext l
    cases l <;> rfl
  · funext l
    cases l <;> rfl
  · intro n
    have htick : (1 + 1002 * n - 1) % 1002 ≠ 500 := by omega
    have hpush : (1 + 1002 * n + 5 + 1 - 1) % 1002 ≠ 500 := by omega
    have h5 : (5 : BitVec 10).toNat = 5 := rfl
    simp only [tickReads, restless, h5, htick, hpush, if_false]

end Channel

end Reverb
