import ReverbFPGA.Hardware.Channel

namespace Reverb

/-!
# A channel, one sample at a time

Between two ticks all that a channel keeps is the content of each delay line, its output word
and the registers of the low-pass filters.  `Sample` is that state, and `Sample.tick` what one
tick does to it, with no clock in it:

1. each low-pass filter latches its sum;
2. each delay line puts out the word of its last cell;
3. each delay line shifts, and takes what its input is *then*.

`Paced.sample_eq` says that the channel refines this machine whatever the spacing of the ticks:
all lines put out their words at edge 2 and the shortest pass pushes at edge 6, so no line ever
samples a word that still changes.  `dataOut_timing_independent` follows.
-/

open Clocked DelayLine ShiftMemory

/-! ### The delays -/

/-- With a predelay of 5 to 983, every line of a channel has a delay for which it is built, and
    a pass of at most 1002 edges. -/
theorem Line.currentN_bounds {p : ℕ} (h5 : 5 ≤ p) (h983 : p ≤ 983) (l : Line) :
    5 ≤ l.currentN p ∧ l.currentN p + 2 ≤ 1002 := by
  cases l with
  | mainEcho j => simp only [currentN]; omega
  | nearEcho j =>
    simp only [currentN, nearEchoCurrentN, nbrDelayLinesInitEcho, ratioInitEchoEarlyEchoes]
    omega
  | lfcf1 j | lfcf2 j =>
    show 5 ≤ nLFCF j / 2 ∧ nLFCF j / 2 + 2 ≤ 1002
    revert j; decide
  | apf j =>
    show 5 ≤ nAPF j ∧ nAPF j + 2 ≤ 1002
    revert j; decide

namespace Channel

/-! ### The state between two ticks -/

/-- What a channel keeps between two ticks. -/
structure Sample where
  mem : (l : Line) → ℤ → BitVec l.width
  out : (l : Line) → BitVec l.width
  lp : Fin 8 → BitVec 25

/-- What the channel keeps, read off its registers. -/
def sample (s : Channel) : Sample where
  mem := fun l => (s.line l).content
  out := fun l => (s.line l).dataOut
  lp := fun j => (s.lpFilter j).prevOutputAdder

/-- A channel with the output words and the filter registers given: enough for every signal
    between the registers. -/
def ofWires (out : (l : Line) → BitVec l.width) (lp : Fin 8 → BitVec 25) : Channel where
  earlyReverb :=
    { delayLines := fun j => { powerUp 24 with dataOut := out (.mainEcho j) }
      nearEchoes := fun j => { powerUp 24 with dataOut := out (.nearEcho j) } }
  lateReverb :=
    { lfcf := fun j =>
        { lpFilter := ⟨lp j⟩
          delayLineOperator1 := { powerUp 25 with dataOut := out (.lfcf1 j) }
          delayLineOperator2 := { powerUp 25 with dataOut := out (.lfcf2 j) } }
      apf := fun j =>
        { delayLineOperator := { powerUp 26 with dataOut := out (.apf j) } } }

/-- The words that the delay lines push, from the words that they put out, the registers of the
    filters, the input sample and the parameters. -/
def pushed (out : (l : Line) → BitVec l.width) (lp : Fin 8 → BitVec 25) (i : In) (l : Line) :
    BitVec l.width := ((ofWires out lp).lineIn i l).dataIn

/-- What the low-pass filter of comb `j` latches at a tick. -/
def latched (out : (l : Line) → BitVec l.width) (lp : Fin 8 → BitVec 25) (i : In) (j : Fin 8) :
    BitVec 25 := ((ofWires out lp).lpFilter j).outputAdder ((ofWires out lp).lpFilterIn i j)

/-- One tick with the inputs `i`. -/
def Sample.tick (a : Sample) (i : In) : Sample :=
  -- the filters latch before the lines move, the lines push after all have moved
  let lp := latched a.out a.lp i
  let out := fun l => a.mem l (l.currentN i.preDelayValue.toNat - 2)
  { mem := fun l =>
      shiftIn (l.currentN i.preDelayValue.toNat - 1) (pushed out lp i l) (a.mem l)
    out := out
    lp := lp }

/-- The output word while the delay lines put out the words `out`. -/
def wiresDataOut (out : (l : Line) → BitVec l.width) (i : In) : BitVec 24 :=
  (ofWires out fun _ => 0).dataOut i

/-! ### The signals depend on nothing else -/

/-- The series of all-passes reads the delay lines at their outputs only. -/
theorem apfDataIn_eq_wires (s : Channel) (lp : Fin 8 → BitVec 25) (n : ℕ) :
    s.lateReverb.apfDataIn n = (ofWires s.sample.out lp).lateReverb.apfDataIn n := by
  induction n with
  | zero => rfl
  | succ n ih =>
    show (s.lateReverb.apf _).dataOut (s.lateReverb.apfDataIn n) = _
    rw [ih]; rfl

/-- Every word that a line can push is read off the output words and the filter registers. -/
theorem lineIn_dataIn (s : Channel) (i : In) (l : Line) :
    (s.lineIn i l).dataIn = pushed s.sample.out s.sample.lp i l := by
  cases l with
  | apf j =>
    -- the input of an all-pass goes through those before it
    show (s.lateReverb.apf j).outputAdder1 (s.lateReverb.apfDataIn j) = _
    rw [apfDataIn_eq_wires s s.sample.lp]; rfl
  | mainEcho j | nearEcho j | lfcf1 j | lfcf2 j => rfl

/-- The adder of a filter looks at the words and registers of the sample state only. -/
theorem lpFilter_outputAdder (s : Channel) (i : In) (j : Fin 8) :
    (s.lpFilter j).outputAdder (s.lpFilterIn i j) = latched s.sample.out s.sample.lp i j := rfl

/-- The output word has nothing of the registers of the low-pass filters in it. -/
theorem dataOut_eq_wires (s : Channel) (i : In) : s.dataOut i = wiresDataOut s.sample.out i := by
  have hlate : s.lateReverb.dataOut =
      (ofWires s.sample.out fun _ => 0).lateReverb.dataOut := apfDataIn_eq_wires s _ 4
  unfold dataOut wetGain sumEarlyLate
  rw [hlate]; rfl

/-- The output depends on the sample and the mix, besides the words. -/
theorem wiresDataOut_congr {out : (l : Line) → BitVec l.width} {i i' : In}
    (hx : i.dataIn = i'.dataIn) (hmix : i.mixValue = i'.mixValue) :
    wiresDataOut out i = wiresDataOut out i' := by
  unfold wiresDataOut dataOut dryGain wetGain
  rw [hx, hmix]

/-- The ticks, the reset and the mix have no part in the words that are pushed. -/
theorem pushed_congr {out : (l : Line) → BitVec l.width} {lp : Fin 8 → BitVec 25} {i i' : In}
    (hx : i.dataIn = i'.dataIn) (hdecay : i.decayValue = i'.decayValue)
    (hdamping : i.dampingValue = i'.dampingValue) (l : Line) :
    pushed out lp i l = pushed out lp i' l := by
  cases l with
  | mainEcho j =>
    show Chain.lineDataIn _ _ j = Chain.lineDataIn _ _ j
    simp only [Chain.lineDataIn, EarlyReverb.delayLinesIn, earlyReverbIn, hx]
  | lfcf1 j =>
    show LFCF.outputAdder _ _ = LFCF.outputAdder _ _
    unfold LFCF.outputAdder LFCF.secondInputAdder LFCF.outLPFilter LPF.outputAdder
      LPF.firstInputAdder LPF.secondInputAdder
    simp only [LateReverb.lfcfIn, lateReverbIn, LFCF.firstInputAdder, LFCF.lpFilterIn, hdecay,
      hdamping]
  | nearEcho j | lfcf2 j | apf j => rfl

/-- The filters depend on the damping, besides the words. -/
theorem latched_congr {out : (l : Line) → BitVec l.width} {lp : Fin 8 → BitVec 25} {i i' : In}
    (hdamping : i.dampingValue = i'.dampingValue) (j : Fin 8) :
    latched out lp i j = latched out lp i' j := by
  unfold latched LPF.outputAdder LPF.firstInputAdder LPF.secondInputAdder
  simp only [lpFilterIn, LFCF.lpFilterIn, LateReverb.lfcfIn, lateReverbIn, hdamping]

/-! ### The channel refines it -/

/-- The run of a channel with the constant parameters `p` in which all delay lines are idle at
    the start and sample `n` is announced by a tick at edge `T n` and held up to the next one;
    ticks are at least 1002 edges apart. -/
structure Paced (s : ℕ → Channel) (inp : ℕ → In) (T : ℕ → ℕ) (x : ℕ → BitVec 24)
    (p : Params) : Prop where
  run : IsRun edge s inp
  idle : ∀ l, ((s 0).line l).shiftState = .idle
  rst : ∀ t, (inp t).rst = true
  mixValue : ∀ t, (inp t).mixValue = p.mixValue
  preDelayValue : ∀ t, (inp t).preDelayValue = p.preDelayValue
  decayValue : ∀ t, (inp t).decayValue = p.decayValue
  dampingValue : ∀ t, (inp t).dampingValue = p.dampingValue
  five_le : 5 ≤ p.preDelayValue.toNat
  le_983 : p.preDelayValue.toNat ≤ 983
  pulses : Pulses (fun t => (inp t).dataSampledValid) T 1002
  held : ∀ n t, T n ≤ t → t < T (n + 1) → (inp t).dataIn = x n

/-- The inputs at a tick that brings the sample `x`. -/
def tickIn (p : Params) (x : BitVec 24) : In where
  rst := true
  dataSampledValid := true
  dataIn := x
  mixValue := p.mixValue
  preDelayValue := p.preDelayValue
  decayValue := p.decayValue
  dampingValue := p.dampingValue

/-- The state after `n` ticks that bring the samples `x 0`, `x 1`, …. -/
def Sample.ticks (a : Sample) (p : Params) (x : ℕ → BitVec 24) : ℕ → Sample
  | 0 => a
  | n + 1 => (a.ticks p x n).tick (tickIn p (x n))

namespace Paced

variable {s : ℕ → Channel} {inp : ℕ → In} {T : ℕ → ℕ} {x : ℕ → BitVec 24} {p : Params}

/-- Each line of the channel is a delay line under these ticks. -/
theorem ticked (h : Paced s inp T x p) (l : Line) :
    Ticked (fun t => (s t).line l) (fun t => (s t).lineIn (inp t) l) T
      (l.currentN p.preDelayValue.toNat) where
  run := isRun_line h.run l
  idle := h.idle l
  rst := fun t => by rw [lineIn_rst, h.rst]
  five_le := (l.currentN_bounds h.five_le h.le_983).1
  pulses := by
    simp only [lineIn_dataSampledValid]
    exact h.pulses.mono_gap (l.currentN_bounds h.five_le h.le_983).2
  currentN := fun n => by rw [lineIn_currentN, h.preDelayValue]

/-- The sample of a tick is at the port at that tick. -/
theorem inp_tick (h : Paced s inp T x p) (n : ℕ) :
    (inp (T n)).dataIn = (tickIn p (x n)).dataIn := by
  have := h.pulses.spaced n
  exact h.held n _ le_rfl (by omega)

/-- Up to edge 2 of the first tick the output words are those of the start. -/
theorem out_before (h : Paced s inp T x p) {t : ℕ} (ht : t ≤ T 0 + 2) :
    (s t).sample.out = (s 0).sample.out :=
  funext fun l => (h.ticked l).dataOut_before ht

/-- From edge 2 of a tick to edge 2 of the next one, the output words are those of `tick`. -/
theorem out_eq (h : Paced s inp T x p) {n t : ℕ} (h1 : T n + 3 ≤ t) (h2 : t ≤ T (n + 1) + 2) :
    (s t).sample.out = ((s (T n)).sample.tick (tickIn p (x n))).out :=
  funext fun l => (h.ticked l).dataOut_eq h1 h2

/-- From edge 0 of a tick to the next one, the filter registers are those of `tick`. -/
theorem lp_eq (h : Paced s inp T x p) {n t : ℕ} (h1 : T n + 1 ≤ t) (h2 : t ≤ T (n + 1)) :
    (s t).sample.lp = ((s (T n)).sample.tick (tickIn p (x n))).lp := by
  funext j
  have hload := LPF.run_after (isRun_lpFilter h.run j) h.rst h.pulses h1 h2
  show ((s t).lpFilter j).prevOutputAdder = latched _ _ _ j
  rw [hload, lpFilter_outputAdder]
  exact latched_congr (h.dampingValue _) j

/-- When a line pushes, the output words and the filter registers of the channel have settled:
    what it pushes is what `tick` says. -/
theorem pushed_eq (h : Paced s inp T x p) {n t : ℕ} (h1 : T n + 3 ≤ t) (h2 : t < T (n + 1))
    (l : Line) : ((s t).lineIn (inp t) l).dataIn =
      pushed ((s (T n)).sample.tick (tickIn p (x n))).out
        ((s (T n)).sample.tick (tickIn p (x n))).lp (tickIn p (x n)) l := by
  rw [lineIn_dataIn, h.out_eq h1 (by omega), h.lp_eq (n := n) (by omega) (by omega)]
  exact pushed_congr (h.held n t (by omega) h2) (h.decayValue t) (h.dampingValue t) l

/-- **The clocked channel refines the sample machine**: from one tick to the next the state
    makes one `tick`, however far apart they are. -/
theorem sample_succ (h : Paced s inp T x p) (n : ℕ) :
    (s (T (n + 1))).sample = (s (T n)).sample.tick (tickIn p (x n)) := by
  have hsp := h.pulses.spaced n
  have hmem : (s (T (n + 1))).sample.mem =
      ((s (T n)).sample.tick (tickIn p (x n))).mem := by
    funext l
    have hN := l.currentN_bounds h.five_le h.le_983
    -- the line pushes at edge `c + 1 ≥ 6`, when all others have put out their words
    show ((s (T (n + 1))).line l).content = _
    rw [(h.ticked l).content_succ, h.pushed_eq (n := n) (by omega) (by omega)]
    rfl
  have hout := h.out_eq (n := n) (t := T (n + 1)) (by omega) (by omega)
  have hlp := h.lp_eq (n := n) (t := T (n + 1)) (by omega) le_rfl
  calc (s (T (n + 1))).sample
      = ⟨(s (T (n + 1))).sample.mem, (s (T (n + 1))).sample.out, (s (T (n + 1))).sample.lp⟩ := rfl
    _ = (s (T n)).sample.tick (tickIn p (x n)) := by rw [hmem, hout, hlp]

/-- Before the first tick the state stays. -/
theorem sample_before (h : Paced s inp T x p) : (s (T 0)).sample = (s 0).sample := by
  have hmem : (s (T 0)).sample.mem = (s 0).sample.mem :=
    funext fun l => ((h.ticked l).before le_rfl).2.1
  have hlp : (s (T 0)).sample.lp = (s 0).sample.lp := by
    funext j
    show ((s (T 0)).lpFilter j).prevOutputAdder = _
    rw [LPF.run_before (isRun_lpFilter h.run j) h.rst h.pulses le_rfl]
    rfl
  calc (s (T 0)).sample
      = ⟨(s (T 0)).sample.mem, (s (T 0)).sample.out, (s (T 0)).sample.lp⟩ := rfl
    _ = (s 0).sample := by rw [hmem, h.out_before (by omega), hlp]

/-- The state at tick `n` is a function of the state at the start and of the samples. -/
theorem sample_eq (h : Paced s inp T x p) (n : ℕ) :
    (s (T n)).sample = (s 0).sample.ticks p x n := by
  induction n with
  | zero => exact h.sample_before
  | succ n ih => rw [h.sample_succ, ih, Sample.ticks]

end Paced

/-- **Clock-level timing does not reach the sound.** Two runs of a channel from the same state,
    with the same samples and parameters but with ticks that are spaced differently, have the
    same output word at every tick. -/
theorem dataOut_timing_independent {s s' : ℕ → Channel} {inp inp' : ℕ → In} {T T' : ℕ → ℕ}
    {x : ℕ → BitVec 24} {p : Params} (h : Paced s inp T x p) (h' : Paced s' inp' T' x p)
    (h0 : s 0 = s' 0) (n : ℕ) :
    (s (T n)).dataOut (inp (T n)) = (s' (T' n)).dataOut (inp' (T' n)) := by
  have hsample : (s (T n)).sample = (s' (T' n)).sample := by
    rw [h.sample_eq, h'.sample_eq, h0]
  rw [dataOut_eq_wires, dataOut_eq_wires, hsample]
  refine wiresDataOut_congr ?_ ?_
  · rw [h.inp_tick, h'.inp_tick]
  · rw [h.mixValue, h'.mixValue]

/-- A channel at power-up, with empty delay lines. -/
def powerUp : Channel := ofWires (fun _ => 0) fun _ => 0

/-- A tick every `gap` edges; tick `n` brings the sample `x n`. -/
def steady (gap : ℕ) (x : ℕ → BitVec 24) (p : Params) (t : ℕ) : In :=
  { tickIn p (x (t / gap)) with dataSampledValid := every 0 gap t }

/-- From power-up, regular ticks far enough apart make a paced channel. -/
theorem paced_steady {gap : ℕ} (hgap : 1002 ≤ gap) (x : ℕ → BitVec 24) {p : Params}
    (h5 : 5 ≤ p.preDelayValue.toNat) (h983 : p.preDelayValue.toNat ≤ 983) :
    Paced (run edge powerUp (steady gap x p)) (steady gap x p) (fun n => 0 + gap * n) x p where
  run := isRun_run _ _
  idle := fun l => by cases l <;> rfl
  rst := fun _ => rfl
  mixValue := fun _ => rfl
  preDelayValue := fun _ => rfl
  decayValue := fun _ => rfl
  dampingValue := fun _ => rfl
  five_le := h5
  le_983 := h983
  pulses := (pulses_every 0 gap).mono_gap hgap
  held := fun n t h1 h2 => by
    have hdiv : t / gap = n := by
      rw [Nat.div_eq_iff (by omega)]
      rw [Nat.mul_succ] at h2
      rw [Nat.mul_comm n gap]
      omega
    show x (t / gap) = x n
    rw [hdiv]

/-- Ticks every 1002 edges and ticks every 1041 edges have the same output word at tick 3. -/
theorem dataOut_timing_independent_steady :
    let p : Params := ⟨0x800000, 5, 0x1000000, 0x800000⟩
    let inp := steady 1002 (fun n => BitVec.ofNat 24 n) p
    let inp' := steady 1041 (fun n => BitVec.ofNat 24 n) p
    (run edge powerUp inp (0 + 1002 * 3)).dataOut (inp (0 + 1002 * 3)) =
      (run edge powerUp inp' (0 + 1041 * 3)).dataOut (inp' (0 + 1041 * 3)) := by
  intro p inp inp'
  have h : Paced (run edge powerUp inp) inp (fun n => 0 + 1002 * n) _ p :=
    paced_steady le_rfl _ (by decide) (by decide)
  have h' : Paced (run edge powerUp inp') inp' (fun n => 0 + 1041 * n) _ p :=
    paced_steady (by decide) _ (by decide) (by decide)
  exact dataOut_timing_independent h h' rfl 3

end Channel

end Reverb
