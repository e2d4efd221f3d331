import ReverbFPGA.Lib.Streams
import ReverbFPGA.Hardware.SampleModel

namespace Reverb

/-!
# The block diagram of a channel

What a channel is for: with constant parameters it is a network of delays, gains, adders and
feedback loops over the sequence of its samples, in which neither clock, nor memory, nor FSM
appears.

* `Diagram.early` — eight taps of the input, weighted and averaged;
* `Diagram.comb`, `Diagram.allPass` — the loops of the late reverb;
* `Diagram.late` — eight combs side by side, averaged, and four all-passes in series;
* `Diagram.reverb` — the dry sample of the moment with the wet one of the tick before.

Each block is time-invariant, and so is the network.  `Channel.output_eq_reverb` says that the
channel computes it from empty memories, bit for bit: the lines are delays, and the words
that they push solve the equations of the loops.
-/

open Clocked ShiftMemory Signed Streams

namespace Diagram

/-! ### The blocks -/

/-- The low-pass filter with the damping `d`, of a word and of its last output. -/
def lowPass (d w y : BitVec 25) : BitVec 25 := coefMult w (~~~d) + coefMult y d

/-- What enters the delay of a comb with the decay `g`. -/
def combSum (g : BitVec 25) (x : BitVec 24) (y : BitVec 25) : BitVec 25 :=
  resize 25 x + coefMult y g

/-- The ticks of the two lines of a comb with `N` cells. -/
def combTicks (N : ℕ) : ℕ := 2 * (N / 2 - 1)

/-- The delayed words of a comb: a loop of `combTicks N` with the low-pass filter in it. -/
def combLine (N : ℕ) (d g : BitVec 25) (u : ℕ → BitVec 24) : ℕ → BitVec 25 :=
  delay (combTicks N) (loopWord (combTicks N) (lowPass d) (combSum g) u)

/-- A comb. -/
def comb (N : ℕ) (d g : BitVec 25) (u : ℕ → BitVec 24) (n : ℕ) : BitVec 24 :=
  resize 24 (coefMult (combLine N d g u n) 0b1100110011001100110011001)

/-- The output of an all-pass before the attenuation. -/
def difference (x : BitVec 24) (w : BitVec 26) : BitVec 26 := w - resize 26 x

/-- What enters the delay of an all-pass. -/
def allPassSum (x : BitVec 24) (w : BitVec 26) : BitVec 26 :=
  resize 26 x + (resize 26 x).sdiv 2 + (difference x w).sdiv 2

/-- The delayed words of an all-pass: a loop of `N - 1` ticks with nothing in it. -/
def allPassLine (N : ℕ) (u : ℕ → BitVec 24) : ℕ → BitVec 26 :=
  delay (N - 1) (loopWord (N - 1) (fun w _ => w) allPassSum u)

/-- An all-pass. -/
def allPass (N : ℕ) (u : ℕ → BitVec 24) (n : ℕ) : BitVec 24 :=
  resize 24 (coefMult (difference (u n) (allPassLine N u n)) 0b11010111000010100011110101)

/-- An eighth of the sum of eight words. -/
def average (y : Fin 8 → BitVec 24) : BitVec 24 := slice 3 24 (∑ j, resize 27 (y j))

/-! ### The network -/

/-- The ticks from the input to tap `j` with the predelay `p`. -/
def tapTicks (p j : ℕ) : ℕ := 12 * (p - 1) + j * (nearEchoCurrentN p - 1)

/-- The early reverb as a system on streams. -/
def early (p : ℕ) (u : ℕ → BitVec 24) (n : ℕ) : BitVec 24 :=
  average fun j => coefMult (delay (tapTicks p j) u n) (coefs j)

/-- The first `k` all-passes after the averaged combs. -/
def lateStage (d g : BitVec 25) (u : ℕ → BitVec 24) : Fin 5 → ℕ → BitVec 24 :=
  Fin.induction (fun n => average fun j => comb (nLFCF j) d g u n) fun k v => allPass (nAPF k) v

/-- The late reverb, after all four all-passes. -/
def late (d g : BitVec 25) (u : ℕ → BitVec 24) : ℕ → BitVec 24 := lateStage d g u (Fin.last 4)

/-- Half the sum of the early reverb and of the late one, which the last tap feeds. -/
def wet (p : Params) (u : ℕ → BitVec 24) (n : ℕ) : BitVec 24 :=
  slice 1 24 (resize 25 (early p.preDelayValue.toNat u n) +
    resize 25 (late p.dampingValue p.decayValue (delay (tapTicks p.preDelayValue.toNat 7) u) n))

/-- The output: at a tick the wet sound is that of the tick before. -/
def reverb (p : Params) (u : ℕ → BitVec 24) (n : ℕ) : BitVec 24 :=
  coefMult (u n) (~~~p.mixValue) + coefMult (delay 1 (wet p u) n) p.mixValue

/-! ### Time invariance -/

/-- Silence times a coefficient is silence. -/
theorem coefMult_zero {w : ℕ} (hw : 0 < w) (c : BitVec w) : coefMult 0 c = 0 := by
  apply BitVec.eq_of_toInt_eq
  simp [coefMult_toInt hw]

/-- An empty filter stays empty in silence. -/
theorem lowPass_zero (d : BitVec 25) : lowPass d 0 0 = 0 := by
  rw [lowPass, coefMult_zero (by decide), coefMult_zero (by decide)]
  rfl

/-- An empty comb stays empty in silence. -/
theorem combSum_zero (g : BitVec 25) : combSum g 0 0 = 0 := by
  simp only [combSum, coefMult_zero (by decide : 0 < 25)]
  decide

theorem combTicks_pos (j : Fin 8) : 0 < combTicks (nLFCF j) := by
  revert j
  decide

theorem allPassTicks_pos (j : Fin 4) : 0 < nAPF j - 1 := by
  revert j
  decide

theorem timeInvariant_combLine {N : ℕ} (hN : 0 < combTicks N) (d g : BitVec 25) :
    TimeInvariant (combLine N d g) :=
  (timeInvariant_delay (combTicks N)).comp
    (timeInvariant_loopWord hN (lowPass_zero d) (combSum_zero g))

theorem timeInvariant_comb {N : ℕ} (hN : 0 < combTicks N) (d g : BitVec 25) :
    TimeInvariant (comb N d g) :=
  (timeInvariant_combLine hN d g).map₁ (f := fun w => resize 24 (coefMult w _)) (by decide)

theorem timeInvariant_allPass {N : ℕ} (hN : 0 < N - 1) : TimeInvariant (allPass N) := by
  have hword : TimeInvariant (loopWord (N - 1) (fun w (_ : BitVec 26) => w) allPassSum) :=
    timeInvariant_loopWord hN rfl (by decide)
  exact TimeInvariant.map₂ (f := fun x w => resize 24 (coefMult (difference x w) _))
    timeInvariant_id ((timeInvariant_delay (N - 1)).comp hword) (by decide)

theorem causal_allPass {N : ℕ} (hN : 0 < N - 1) : Causal (allPass N) := by
  have hword : Causal (loopWord (N - 1) (fun w (_ : BitVec 26) => w) allPassSum) :=
    causal_loopWord hN
  exact Causal.map₂ causal_id ((causal_delay (N - 1)).comp hword)
    (fun x w => resize 24 (coefMult (difference x w) _))

/-- The three guard bits hold the sum. -/
theorem average_toInt (y : Fin 8 → BitVec 24) :
    (average y).toInt = (∑ j, (y j).toInt) / 8 := by
  rw [average, Fin.sum_univ_eight, toInt_slice _ (by decide) (by decide), toInt_sum_eight y]
  rfl

theorem average_zero : average (fun _ => 0) = 0 := by
  apply BitVec.eq_of_toInt_eq
  simp [average_toInt]

theorem lateStage_zero (d g : BitVec 25) (u : ℕ → BitVec 24) :
    lateStage d g u 0 = fun n => average fun j => comb (nLFCF j) d g u n := rfl

theorem lateStage_succ (d g : BitVec 25) (u : ℕ → BitVec 24) (k : Fin 4) :
    lateStage d g u k.succ = allPass (nAPF k) (lateStage d g u k.castSucc) := rfl

theorem timeInvariant_early (p : ℕ) : TimeInvariant (early p) := by
  apply TimeInvariant.map (f := fun y => average fun j => coefMult (y j) (coefs j))
    fun j : Fin 8 => timeInvariant_delay (tapTicks p j)
  simp only [coefMult_zero (by decide : 0 < 24), average_zero]

theorem timeInvariant_lateStage (d g : BitVec 25) (k : Fin 5) :
    TimeInvariant fun u => lateStage d g u k := by
  induction k using Fin.induction with
  | zero =>
    exact TimeInvariant.map (f := average)
      (fun j : Fin 8 => timeInvariant_comb (combTicks_pos j) d g) average_zero
  | succ k ih => exact (timeInvariant_allPass (allPassTicks_pos k)).comp ih

/-- The wet path as a whole is time invariant. -/
theorem timeInvariant_wet (p : Params) : TimeInvariant (wet p) := by
  apply TimeInvariant.map₂ (f := fun e l => slice 1 24 (resize 25 e + resize 25 l))
    (timeInvariant_early _)
    ((timeInvariant_lateStage p.dampingValue p.decayValue (Fin.last 4)).comp
      (timeInvariant_delay _))
  decide

/-- **The reverb is time-invariant.** -/
theorem timeInvariant_reverb (p : Params) : TimeInvariant (reverb p) := by
  apply TimeInvariant.map₂
    (f := fun x y => coefMult x (~~~p.mixValue) + coefMult y p.mixValue)
    timeInvariant_id ((timeInvariant_delay 1).comp (timeInvariant_wet p))
  simp only [coefMult_zero (by decide : 0 < 24)]
  decide

end Diagram

/-! ### The sample machine computes the diagram -/

namespace Channel

open Diagram

/-- Empty memories, and silence at the outputs and in the filters. -/
def Sample.empty : Sample := ⟨fun _ _ => 0, fun _ => 0, fun _ => 0⟩

namespace Sample

variable (p : Params) (x : ℕ → BitVec 24)

/-- What line `l` puts out after tick `n`, from empty memories. -/
def outAfter (l : Line) (n : ℕ) : BitVec l.width := (empty.ticks p x (n + 1)).out l

/-- What line `l` pushes at tick `n`. -/
def pushedAt (l : Line) (n : ℕ) : BitVec l.width :=
  pushed (empty.ticks p x (n + 1)).out (empty.ticks p x (n + 1)).lp (tickIn p (x n)) l

variable {p}

/-- **A line is a delay** of one tick less than its `currentN`. -/
theorem outAfter_eq_delay {l : Line} (h5 : 5 ≤ l.currentN p.preDelayValue.toNat) :
    outAfter p x l = delay (l.currentN p.preDelayValue.toNat - 1) (pushedAt p x l) := by
  ext1 n
  -- the memory is what the pushes so far have shifted in
  have hcells : (empty.ticks p x n).mem l =
      after (fun _ => 0) (fun _ => ((l.currentN p.preDelayValue.toNat - 1 : ℕ) : ℤ))
        (pushedAt p x l) n := by
    refine after_eq_of_step (m := fun k => (empty.ticks p x k).mem l) (fun k _ => ?_) n le_rfl
    rw [show ((l.currentN p.preDelayValue.toNat - 1 : ℕ) : ℤ) =
      l.currentN p.preDelayValue.toNat - 1 by omega]
    rfl
  show (empty.ticks p x n).mem l (l.currentN p.preDelayValue.toNat - 2) = _
  generalize l.currentN p.preDelayValue.toNat = c at h5 hcells ⊢
  rw [hcells]
  rcases Nat.lt_or_ge n (c - 1) with hlt | hge
  -- the top cell still holds its word of the start
  · rw [delay_of_lt _ hlt, after_initial _ _ _ (by omega) (by omega)]
  · have hword := after_live (fun _ => 0) (fun _ => ((c - 1 : ℕ) : ℤ)) (pushedAt p x l)
      (k := n - (c - 1)) (n := n) (by omega) (fun j _ _ => by omega)
    rw [delay_of_le _ hge, ← hword]
    congr 1
    omega

variable (p)

/-- The channel while the lines put out the words after tick `n`. -/
def wires (n : ℕ) : Channel :=
  ofWires (fun l => outAfter p x l n) fun j => (empty.ticks p x (n + 1)).lp j

/-! ### The early reverb -/

/-- What line `j` of the main echo puts out. -/
def echo (j : Fin 12) (n : ℕ) : BitVec 24 := ((wires p x n).earlyReverb.delayLines j).dataOut

/-- What line `j` of the near echoes puts out. -/
def near (j : Fin 7) (n : ℕ) : BitVec 24 := ((wires p x n).earlyReverb.nearEchoes j).dataOut

variable {p}

/-- A main echo of the wires is a delay, by recursion along the chain. -/
theorem echo_eq (h5 : 5 ≤ p.preDelayValue.toNat) (j : ℕ) (hj : j < 12) :
    echo p x ⟨j, hj⟩ = delay ((j + 1) * (p.preDelayValue.toNat - 1)) x := by
  induction j with
  | zero =>
    have hline : echo p x ⟨0, hj⟩ = delay (p.preDelayValue.toNat - 1) x :=
      outAfter_eq_delay (l := .mainEcho ⟨0, hj⟩) x h5
    rw [hline, Nat.zero_add, Nat.one_mul]
  | succ j ih =>
    have hline : echo p x ⟨j + 1, hj⟩ =
        delay (p.preDelayValue.toNat - 1) (echo p x ⟨j, by omega⟩) :=
      outAfter_eq_delay (l := .mainEcho ⟨j + 1, hj⟩) x h5
    rw [hline, ih (by omega), delay_delay, Nat.succ_mul (j + 1), Nat.add_comm]

/-- A near echo of the wires is a delay. -/
theorem near_eq (h5 : 5 ≤ p.preDelayValue.toNat) (j : ℕ) (hj : j < 7) :
    near p x ⟨j, hj⟩ = delay (tapTicks p.preDelayValue.toNat (j + 1)) x := by
  have hq : 5 ≤ nearEchoCurrentN p.preDelayValue.toNat := Nat.le_add_left _ _
  induction j with
  | zero =>
    -- the first near echo reads the last main one
    have hline : near p x ⟨0, hj⟩ =
        delay (nearEchoCurrentN p.preDelayValue.toNat - 1) (echo p x ⟨11, by decide⟩) :=
      outAfter_eq_delay (l := .nearEcho ⟨0, hj⟩) x hq
    rw [hline, echo_eq x h5, delay_delay, tapTicks]
    congr 1
    omega
  | succ j ih =>
    have hline : near p x ⟨j + 1, hj⟩ =
        delay (nearEchoCurrentN p.preDelayValue.toNat - 1) (near p x ⟨j, by omega⟩) :=
      outAfter_eq_delay (l := .nearEcho ⟨j + 1, hj⟩) x hq
    rw [hline, ih (by omega), delay_delay, tapTicks, tapTicks, Nat.succ_mul (j + 1)]
    congr 1
    omega

/-- The eight words that the filter of the early stage takes in are the taps of the diagram. -/
theorem delayedInputs_eq (h5 : 5 ≤ p.preDelayValue.toNat) (j : Fin 8) (n : ℕ) :
    (wires p x n).earlyReverb.delayedInputs j = delay (tapTicks p.preDelayValue.toNat j) x n := by
  cases j using Fin.cases with
  | zero =>
    show echo p x ⟨11, by decide⟩ n = _
    rw [echo_eq x h5, tapTicks, Fin.val_zero, Nat.zero_mul]
    rfl
  | succ i =>
    show near p x ⟨i, i.isLt⟩ n = _
    rw [near_eq x h5, Fin.val_succ]

/-- The early stage of the wires is the one of the diagram. -/
theorem dataOutEarlyReverb_eq (h5 : 5 ≤ p.preDelayValue.toNat) (n : ℕ) :
    (wires p x n).earlyReverb.dataOutEarlyReverb = early p.preDelayValue.toNat x n := by
  have hweight : (wires p x n).earlyReverb.inputAdder = fun j : Fin 8 =>
      coefMult (delay (tapTicks p.preDelayValue.toNat j) x n) (coefs j) := by
    ext1 j
    rw [EarlyReverb.inputAdder, delayedInputs_eq x h5]
  rw [EarlyReverb.dataOutEarlyReverb, EarlyReverb.outputAdder, hweight, early, average,
    Fin.sum_univ_eight]

/-! ### The combs -/

variable (p)

/-- What comb `j` pushes at tick `n`. -/
def combPushed (j : Fin 8) (n : ℕ) : BitVec 25 := pushedAt p x (.lfcf1 j) n

/-- What the first line of comb `j` puts out. -/
def combHalfway (j : Fin 8) (n : ℕ) : BitVec 25 :=
  ((wires p x n).lateReverb.lfcf j).firstDelayedOutputAdder

/-- What the second line of comb `j` puts out. -/
def combDelayed (j : Fin 8) (n : ℕ) : BitVec 25 :=
  ((wires p x n).lateReverb.lfcf j).secondDelayedOutputAdder

/-- The register of the filter of comb `j`. -/
def combRegister (j : Fin 8) (n : ℕ) : BitVec 25 :=
  ((wires p x n).lateReverb.lfcf j).lpFilter.prevOutputAdder

/-- What the filter of comb `j` makes of both. -/
def combFiltered (j : Fin 8) (n : ℕ) : BitVec 25 :=
  lowPass p.dampingValue (combDelayed p x j n) (combRegister p x j n)

variable {p}

/-- The line of a comb is a delay. -/
theorem combDelayed_eq (j : Fin 8) :
    combDelayed p x j = delay (combTicks (nLFCF j)) (combPushed p x j) := by
  have hN : 5 ≤ nLFCF j / 2 := by
    revert j
    decide
  have h1 : combHalfway p x j = delay (nLFCF j / 2 - 1) (combPushed p x j) :=
    outAfter_eq_delay (l := .lfcf1 j) x hN
  have h2 : combDelayed p x j = delay (nLFCF j / 2 - 1) (combHalfway p x j) :=
    outAfter_eq_delay (l := .lfcf2 j) x hN
  rw [h2, h1, delay_delay, combTicks, Nat.two_mul]

/-- The register holds what the filter put out after the tick before. -/
theorem combRegister_eq (j : Fin 8) : combRegister p x j = delay 1 (combFiltered p x j) := by
  ext1 n
  cases n with
  | zero =>
    rw [delay_of_lt _ Nat.one_pos]
    exact lowPass_zero p.dampingValue
  -- from then on the register is the filter output of the tick before, by definition
  | succ n => rfl

/-- The words and the filter outputs of comb `j` solve the equations of its loop. -/
theorem combPushed_eq (h5 : 5 ≤ p.preDelayValue.toNat) (j : Fin 8) :
    combPushed p x j = loopWord (combTicks (nLFCF j)) (lowPass p.dampingValue)
      (combSum p.decayValue) (delay (tapTicks p.preDelayValue.toNat 7) x) := by
  refine (loop_unique (r := combFiltered p x j) (combTicks_pos j) (fun n => ?_)
    fun n => ?_).1
  -- the register, then the word that is pushed
  · rw [← combDelayed_eq x j, ← combRegister_eq x j]
    rfl
  · have hlast : (wires p x n).earlyReverb.dataOutToLateReverb =
        delay (tapTicks p.preDelayValue.toNat 7) x n := delayedInputs_eq x h5 7 n
    rw [← hlast]
    rfl

/-- A comb of the wires is the one of the diagram, on the last near echo. -/
theorem comb_output (h5 : 5 ≤ p.preDelayValue.toNat) (j : Fin 8) (n : ℕ) :
    ((wires p x n).lateReverb.lfcf j).dataOut = comb (nLFCF j) p.dampingValue p.decayValue
      (delay (tapTicks p.preDelayValue.toNat 7) x) n := by
  rw [comb, combLine, ← combPushed_eq x h5, ← combDelayed_eq x j]
  rfl

/-! ### The all-passes -/

variable (p)

/-- What all-pass `k` pushes at tick `n`. -/
def allPassPushed (k : Fin 4) (n : ℕ) : BitVec 26 := pushedAt p x (.apf k) n

/-- What the line of all-pass `k` puts out. -/
def allPassDelayed (k : Fin 4) (n : ℕ) : BitVec 26 :=
  ((wires p x n).lateReverb.apf k).firstInputAdder2

variable {p}

/-- The line of an all-pass is a delay. -/
theorem allPassDelayed_eq (k : Fin 4) :
    allPassDelayed p x k = delay (nAPF k - 1) (allPassPushed p x k) := by
  have hN : 5 ≤ nAPF k := by
    revert k
    decide
  exact outAfter_eq_delay (l := .apf k) x hN

/-- The words of all-pass `k` solve the equations of its loop. -/
theorem allPassPushed_eq (k : Fin 4) :
    allPassPushed p x k = loopWord (nAPF k - 1) (fun w _ => w) allPassSum
      fun n => (wires p x n).lateReverb.apfDataIn k := by
  -- an all-pass is a loop whose register only passes the delayed word on
  have hr : ∀ n, allPassDelayed p x k n = (fun w (_ : BitVec 26) => w)
      (delay (nAPF k - 1) (allPassPushed p x k) n) (delay 1 (allPassDelayed p x k) n) := by
    intro n
    rw [allPassDelayed_eq]
  exact (loop_unique (f := allPassSum) (allPassTicks_pos k) hr fun n => rfl).1

/-- What all-pass `k` is fed with, and, for `k = 4`, what the last one puts out. -/
theorem apfDataIn_eq (h5 : 5 ≤ p.preDelayValue.toNat) (k : Fin 5) (n : ℕ) :
    (wires p x n).lateReverb.apfDataIn k = lateStage p.dampingValue p.decayValue
      (delay (tapTicks p.preDelayValue.toNat 7) x) k n := by
  induction k using Fin.induction generalizing n with
  | zero =>
    have hcombs : (wires p x n).lateReverb.inputAdder = fun j => comb (nLFCF j) p.dampingValue
        p.decayValue (delay (tapTicks p.preDelayValue.toNat 7) x) n :=
      funext fun j => comb_output x h5 j n
    show slice 3 24 (wires p x n).lateReverb.outputAdder = average _
    rw [LateReverb.outputAdder, hcombs, average, Fin.sum_univ_eight]
  | succ k ih =>
    have hin : (fun m => (wires p x m).lateReverb.apfDataIn k) = lateStage p.dampingValue
        p.decayValue (delay (tapTicks p.preDelayValue.toNat 7) x) k.castSucc :=
      funext fun m => ih m
    have hval : (Fin.ofNat 4 k : Fin 4) = k := Fin.ofNat_val_eq_self k
    rw [lateStage_succ, allPass, allPassLine, ← hin, ← allPassPushed_eq, ← allPassDelayed_eq,
      Fin.val_succ, LateReverb.apfDataIn, hval]
    rfl

/-- The wet word after tick `n`. -/
theorem wet_eq (h5 : 5 ≤ p.preDelayValue.toNat) (n : ℕ) :
    slice 1 24 (wires p x n).sumEarlyLate = wet p x n := by
  have hlate : (wires p x n).lateReverb.dataOut = late p.dampingValue p.decayValue
      (delay (tapTicks p.preDelayValue.toNat 7) x) n := apfDataIn_eq x h5 (Fin.last 4) n
  rw [sumEarlyLate, dataOutEarlyReverb_eq x h5, hlate]
  rfl

end Sample

variable {s : ℕ → Channel} {inp : ℕ → In} {T : ℕ → ℕ} {x : ℕ → BitVec 24} {p : Params}

/-- The output word while the lines put out the words after tick `n`. -/
theorem wiresDataOut_outAfter (h5 : 5 ≤ p.preDelayValue.toNat) (n : ℕ) (i : In) :
    wiresDataOut (fun l => Sample.outAfter p x l n) i =
      coefMult i.dataIn (~~~i.mixValue) + coefMult (wet p x n) i.mixValue := by
  have hout : (Sample.wires p x n).sample.out = fun l => Sample.outAfter p x l n := by
    funext l
    cases l <;> rfl
  rw [← hout, ← dataOut_eq_wires, ← Sample.wet_eq x h5]
  rfl

/-- **A channel is the network of its block diagram.**  From empty memories, with constant
    parameters, its output word at tick `n` is that of the network of delays, gains and loops
    under the samples of the ticks, bit for bit. -/
theorem output_eq_reverb (h : Paced s inp T x p) (h0 : (s 0).sample = Sample.empty) (n : ℕ) :
    (s (T n)).dataOut (inp (T n)) = reverb p x n := by
  -- the output depends on the ports of the tick through the sample and the mix
  have hin : wiresDataOut (Sample.empty.ticks p x n).out (inp (T n)) =
      wiresDataOut (Sample.empty.ticks p x n).out (tickIn p (x n)) :=
    wiresDataOut_congr (h.inp_tick n) (h.mixValue _)
  rw [dataOut_eq_wires, h.sample_eq, h0, hin]
  cases n with
  | zero =>
    -- nothing has been put out before the first tick
    have hwet : slice 1 24 (ofWires (fun _ => 0) fun _ => 0).sumEarlyLate = 0 := by
      decide +kernel
    show coefMult (x 0) (~~~p.mixValue) +
      coefMult (slice 1 24 (ofWires (fun _ => 0) fun _ => 0).sumEarlyLate) p.mixValue = _
    rw [hwet, reverb, delay_of_lt _ Nat.one_pos]
  | succ n =>
    rw [reverb, delay_add_apply]
    exact wiresDataOut_outAfter h.five_le n (tickIn p (x (n + 1)))

/-- At power-up all words are zero. -/
theorem sample_powerUp : powerUp.sample = Sample.empty := by
  have hmem : powerUp.sample.mem = fun _ _ => 0 := by
    funext l
    cases l <;> rfl
  have hout : powerUp.sample.out = fun _ => 0 := by
    funext l
    cases l <;> rfl
  calc powerUp.sample = ⟨powerUp.sample.mem, powerUp.sample.out, powerUp.sample.lp⟩ := rfl
    _ = Sample.empty := by rw [hmem, hout]; rfl

end Channel

end Reverb
