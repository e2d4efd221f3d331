import ReverbFPGA.Hardware.DelayLineRun
import ReverbFPGA.Hardware.Filters

namespace Reverb

/-!
# The recurrence of a comb

From tick to tick a comb makes one iteration of its loop.  The register of the low-pass filter is
loaded at the tick, before the delay lines move; the word that the second line puts out at edge 2
of the tick is filtered and added to the input, and the sum is pushed `N / 2 + 1` edges after
the tick.  Each of the two lines takes `N / 2 - 1` ticks.

`LFCF.loopSum` and `LFCF.loopFilter` are the sums and the outputs of the filter at these pushes,
numbered by the ticks; an index below 0 stands for what the comb holds before the first tick.
`LFCF.comb_recurrence` is what one iteration computes.
-/

open Clocked FixedPoint Signed DelayLine

namespace LFCF

/-- A run of the comb with `N` cells from idle lines, with the damping `d` and the decay `g`, under
    ticks that leave time for a pass. -/
structure Paced (N : ℕ) (d g : BitVec 25) (s : ℕ → LFCF) (inp : ℕ → In) (T : ℕ → ℕ) : Prop where
  run : IsRun (edge N) s inp
  idle1 : (s 0).delayLineOperator1.shiftState = .idle
  idle2 : (s 0).delayLineOperator2.shiftState = .idle
  rst : ∀ t, (inp t).rst = true
  dampingValue : ∀ t, (inp t).dampingValue = d
  decayValue : ∀ t, (inp t).decayValue = g
  pulses : Pulses (fun t => (inp t).dataSampledValid) T (N / 2 + 2)

/-- The sum that tick `n` pushes.  Before the first tick, the words that the lines hold: back from
    the first cell of the first line to the last cell of the second one. -/
def loopSum (N : ℕ) (s : ℕ → LFCF) (inp : ℕ → In) (T : ℕ → ℕ) : ℤ → BitVec 25
  | .ofNat n => (s (T n + N / 2 + 1)).outputAdder (inp (T n + N / 2 + 1))
  | .negSucc i =>
    if i < N / 2 - 1 then (s 0).delayLineOperator1.content i
    else (s 0).delayLineOperator2.content (i - (N / 2 - 1) : ℕ)

/-- The output of the low-pass filter at the push of tick `n`, and just before the first tick. -/
def loopFilter (N : ℕ) (s : ℕ → LFCF) (inp : ℕ → In) (T : ℕ → ℕ) : ℤ → BitVec 25
  | .ofNat n => (s (T n + N / 2 + 1)).outLPFilter (inp (T n + N / 2 + 1))
  | .negSucc _ => (s (T 0)).outLPFilter (inp (T 0))

namespace Paced

variable {N : ℕ} {d g : BitVec 25} {s : ℕ → LFCF} {inp : ℕ → In} {T : ℕ → ℕ}

/-- The first delay line of a comb is ticked as the comb is. -/
theorem ticked1 (h : Paced N d g s inp T) (hN : 5 ≤ N / 2) :
    Ticked (fun t => (s t).delayLineOperator1) (fun t => (s t).delayLine1In N (inp t)) T
      (N / 2) :=
  ⟨h.run.component delayLineOperator1 (fun s i => s.delayLine1In N i) fun _ _ => rfl,
    h.idle1, h.rst, hN, h.pulses, fun _ => rfl⟩

theorem ticked2 (h : Paced N d g s inp T) (hN : 5 ≤ N / 2) :
    Ticked (fun t => (s t).delayLineOperator2) (fun t => (s t).delayLine2In N (inp t)) T
      (N / 2) :=
  ⟨h.run.component delayLineOperator2 (fun s i => s.delayLine2In N i) fun _ _ => rfl,
    h.idle2, h.rst, hN, h.pulses, fun _ => rfl⟩

/-! ### The two lines -/

/-- The delayed value between two ticks, from the sums of the ticks before. -/
theorem delayed_late (h : Paced N d g s inp T) (hN : 5 ≤ N / 2) {n t : ℕ}
    (h1 : T (n + 2 * (N / 2 - 1)) + 3 ≤ t) (h2 : t ≤ T (n + 2 * (N / 2 - 1) + 1) + 2) :
    (s t).secondDelayedOutputAdder = loopSum N s inp T n := by
  have hsp := h.pulses.spaced (n + (N / 2 - 1))
  rw [show n + 2 * (N / 2 - 1) = n + (N / 2 - 1) + (N / 2 - 1) by omega] at h1 h2
  -- what the second line puts out was pushed half the delay ago, by the first line
  have hsecond := (h.ticked2 hN).dataOut_delayed h1 h2
  have hfirst := (h.ticked1 hN).dataOut_delayed (n := n)
    (t := T (n + (N / 2 - 1)) + N / 2 + 1) (by omega) (by omega)
  exact hsecond.trans hfirst

/-- The delayed value before the first sum has come through. -/
theorem delayed_early (h : Paced N d g s inp T) (hN : 5 ≤ N / 2) {n t i : ℕ}
    (hn : n + i + 1 = 2 * (N / 2 - 1)) (h1 : T n + 3 ≤ t) (h2 : t ≤ T (n + 1) + 2) :
    (s t).secondDelayedOutputAdder = loopSum N s inp T (.negSucc i) := by
  rw [loopSum]
  split_ifs with hi
  -- the second line puts out what the first one held at the start
  · obtain ⟨m, rfl⟩ : ∃ m, n = m + (N / 2 - 1) := ⟨n - (N / 2 - 1), by omega⟩
    have hsp := h.pulses.spaced m
    have hsecond := (h.ticked2 hN).dataOut_delayed h1 h2
    have hword := (h.ticked1 hN).dataOut_initial (n := m) (t := T m + N / 2 + 1) (by omega)
      (by omega) (by omega)
    refine hsecond.trans (hword.trans ?_)
    congr 1; omega
  · refine ((h.ticked2 hN).dataOut_initial (by omega) h1 h2).trans ?_
    show (s 0).delayLineOperator2.content _ = _
    congr 1; omega

/-- **The delay of the loop** is two ticks less than the `currentN` of both lines together. -/
theorem delayed (h : Paced N d g s inp T) (hN : 5 ≤ N / 2) {n t : ℕ} (h1 : T n + 3 ≤ t)
    (h2 : t ≤ T (n + 1) + 2) :
    (s t).secondDelayedOutputAdder = loopSum N s inp T (n - (2 * (N / 2 - 1) : ℕ)) := by
  rcases Nat.lt_or_ge n (2 * (N / 2 - 1)) with hlt | hge
  · have hi : n + (2 * (N / 2 - 1) - n - 1) + 1 = 2 * (N / 2 - 1) := by omega
    rw [h.delayed_early hN hi h1 h2]
    congr 1
    rw [Int.negSucc_eq]
    omega
  · obtain ⟨k, rfl⟩ : ∃ k, n = k + 2 * (N / 2 - 1) := ⟨n - 2 * (N / 2 - 1), by omega⟩
    rw [h.delayed_late hN h1 h2]
    congr 1
    omega

/-! ### The filter -/

/-- Between two ticks the register of the filter keeps its value. -/
theorem lpFilter_hold (h : Paced N d g s inp T) {n t : ℕ} (h1 : T n + 1 ≤ t)
    (h2 : t ≤ T (n + 1)) : (s t).lpFilter = (s (T n + 1)).lpFilter := by
  rw [LPF.run_after (isRun_lpFilter h.run) h.rst h.pulses h1 h2,
    LPF.run_after (isRun_lpFilter h.run) h.rst h.pulses le_rfl (by omega)]

/-- What the filter puts out from edge 2 of a tick on is what it latches at the next tick. -/
theorem outLPFilter_hold (h : Paced N d g s inp T) (hN : 5 ≤ N / 2) {n t : ℕ} (h1 : T n + 3 ≤ t)
    (h2 : t ≤ T (n + 1)) : (s t).outLPFilter (inp t) = loopFilter N s inp T n := by
  have hsp := h.pulses.spaced n
  -- neither the register nor the delayed word changes until the next tick
  have hregs : (s t).lpFilter = (s (T n + N / 2 + 1)).lpFilter := by
    rw [h.lpFilter_hold (n := n) (by omega) h2,
      h.lpFilter_hold (n := n) (t := T n + N / 2 + 1) (by omega) (by omega)]
  have hword : (s t).secondDelayedOutputAdder =
      (s (T n + N / 2 + 1)).secondDelayedOutputAdder := by
    rw [h.delayed hN h1 (by omega), h.delayed hN (n := n) (by omega) (by omega)]
  show _ = (s (T n + N / 2 + 1)).outLPFilter (inp (T n + N / 2 + 1))
  unfold LFCF.outLPFilter LPF.outputAdder LPF.firstInputAdder LPF.secondInputAdder
  simp only [lpFilterIn, hregs, hword, h.dampingValue]

/-- **The register after a tick** is the filter's output at the push of the tick before. -/
theorem register (h : Paced N d g s inp T) (hN : 5 ≤ N / 2) {n t : ℕ} (h1 : T n + 1 ≤ t)
    (h2 : t ≤ T (n + 1)) :
    (s t).lpFilter.prevOutputAdder = loopFilter N s inp T (n - 1) := by
  rw [LPF.run_after (isRun_lpFilter h.run) h.rst h.pulses h1 h2]
  show (s (T n)).outLPFilter (inp (T n)) = _
  cases n with
  | zero => rfl
  | succ n =>
    have hsp := h.pulses.spaced n
    -- the tick latches what the filter has put out since the pull before
    rw [h.outLPFilter_hold hN (n := n) (by omega) le_rfl]
    congr 1
    omega

/-- The filter of one iteration. -/
theorem loopFilter_toInt (h : Paced N d g s inp T) (hN : 5 ≤ N / 2) (n : ℕ) :
    (loopFilter N s inp T n).toInt =
      LPF.sum 25 d.toNat (loopSum N s inp T (n - (2 * (N / 2 - 1) : ℕ))).toInt
        (loopFilter N s inp T (n - 1)).toInt := by
  have hsp := h.pulses.spaced n
  show ((s (T n + N / 2 + 1)).outLPFilter (inp (T n + N / 2 + 1))).toInt = _
  rw [outLPFilter_toInt, h.dampingValue, h.delayed hN (n := n) (by omega) (by omega),
    h.register hN (n := n) (by omega) (by omega)]

/-- The adder of one iteration. -/
theorem exactSum_push (h : Paced N d g s inp T) (n : ℕ) :
    (s (T n + N / 2 + 1)).exactSum (inp (T n + N / 2 + 1)) =
      (inp (T n + N / 2 + 1)).dataIn.toInt +
        scale (2 ^ 25) g.toNat (loopFilter N s inp T n).toInt := by
  rw [exactSum, h.decayValue]
  rfl

end Paced

/-- **One iteration of the loop per tick.**  In every run under constant damping and decay, from
    any words in the lines, with `D = 2 * (N / 2 - 1)`: at the push of tick `n` the delayed value is
    the sum of `D` ticks ago; the filter puts out the exact sum of its two products, rounded
    down; and the sum of the input and the decayed output of the filter is wrapped to 25 bits. -/
theorem comb_recurrence {N : ℕ} {d g : BitVec 25} {s : ℕ → LFCF} {inp : ℕ → In} {T : ℕ → ℕ}
    (h : Paced N d g s inp T) (hN : 5 ≤ N / 2) (n : ℕ) :
    (s (T n + N / 2 + 1)).secondDelayedOutputAdder =
      loopSum N s inp T (n - (2 * (N / 2 - 1) : ℕ)) ∧
    (loopFilter N s inp T n).toInt =
      (2 ^ 25 - 1 - d.toNat) * (s (T n + N / 2 + 1)).secondDelayedOutputAdder.toInt / 2 ^ 25 +
        d.toNat * (loopFilter N s inp T (n - 1)).toInt / 2 ^ 25 ∧
    (loopSum N s inp T n).toInt =
      ((inp (T n + N / 2 + 1)).dataIn.toInt +
        g.toNat * (loopFilter N s inp T n).toInt / 2 ^ 25).bmod (2 ^ 25) := by
  have hsp := h.pulses.spaced n
  have hword := h.delayed hN (n := n) (t := T n + N / 2 + 1) (by omega) (by omega)
  refine ⟨hword, ?_, ?_⟩
  · rw [hword]
    exact h.loopFilter_toInt hN n
  · have hsum := outputAdder_bmod (s (T n + N / 2 + 1)) (inp (T n + N / 2 + 1))
    rw [h.exactSum_push] at hsum
    exact hsum

/-- An empty comb. -/
def empty : LFCF := ⟨⟨0⟩, powerUp 25, powerUp 25⟩

/-- The lowest input, with a tick every `gap` edges. -/
def lowest (gap : ℕ) (d g : BitVec 25) (t : ℕ) : In where
  rst := true
  dataSampledValid := every 0 gap t
  dataIn := BitVec.intMin 24
  dampingValue := d
  decayValue := g

/-- The lowest input and regular ticks, from the empty comb. -/
theorem paced_lowest (N : ℕ) (d g : BitVec 25) :
    Paced N d g (run (edge N) empty (lowest (N / 2 + 2) d g)) (lowest (N / 2 + 2) d g)
      (fun n => 0 + (N / 2 + 2) * n) :=
  ⟨isRun_run _ _, rfl, rfl, fun _ => rfl, fun _ => rfl, fun _ => rfl, pulses_every 0 _⟩

/-- With the shortest lines the word delayed at tick 20 is the sum of tick 12. -/
theorem comb_recurrence_shortest :
    let inp := lowest 7 0x1000000 0x1E66665
    let s := run (edge 10) empty inp
    (s (0 + 7 * 20 + 6)).secondDelayedOutputAdder =
      (s (0 + 7 * 12 + 6)).outputAdder (inp (0 + 7 * 12 + 6)) := by
  intro inp s
  exact (comb_recurrence (paced_lowest 10 0x1000000 0x1E66665) (by decide) 20).1

end LFCF

end Reverb
