import ReverbFPGA.Hardware.DelayLineRun
import ReverbFPGA.Hardware.Filters

namespace Reverb

/-!
# The recurrence of an all-pass

With the input `x` and the word `w` of `N - 1` ticks ago an all-pass puts out `y = w - x` and feeds
its delay line with `x + x / 2 + y / 2`.  The input cancels between the two halves: that sum
is `x + w / 2` but for the two truncations, so that the loop stays below twice the amplitude of
the input (`APF.abs_loopSum_le`).

`APF.loopSum` is the recurrence over unbounded integers, and `APF.allpass_exact` says that the
adders of 26 bits compute it, at the push of every tick.
-/

open Clocked Signed DelayLine

namespace APF

/-! ### The recurrence -/

/-- The sum that tick `n` pushes, with `M` ticks of delay and the input `x`. -/
def loopSum (M : ℕ) (x : ℕ → ℤ) (n : ℕ) : ℤ :=
  let w := if _ : 0 < M ∧ M ≤ n then loopSum M x (n - M) else 0
  x n + (x n).tdiv 2 + (w - x n).tdiv 2
termination_by n
decreasing_by omega

/-- The sum of `M` ticks ago, zero before the first one comes round. -/
def delayedSum (M : ℕ) (x : ℕ → ℤ) (n : ℕ) : ℤ := if M ≤ n then loopSum M x (n - M) else 0

/-- What the all-pass puts out, before the attenuation. -/
def output (M : ℕ) (x : ℕ → ℤ) (n : ℕ) : ℤ := delayedSum M x n - x n

variable {M : ℕ} {x : ℕ → ℤ} {A : ℤ}

/-- The recurrence of the sum, in the terms of the adders. -/
theorem loopSum_eq (hM : 0 < M) (n : ℕ) :
    loopSum M x n = x n + (x n).tdiv 2 + (output M x n).tdiv 2 := by
  rw [loopSum, output, delayedSum]
  simp only [hM, true_and, dite_eq_ite]

/-- **The input cancels.**  One iteration keeps the loop below twice the amplitude. -/
theorem abs_step_le {v w : ℤ} (hv : |v| ≤ A) (hw : |w| ≤ 2 * A - 1) :
    |v + v.tdiv 2 + (w - v).tdiv 2| ≤ 2 * A - 1 := by
  obtain ⟨hv1, hv2⟩ := abs_le.mp hv
  obtain ⟨hw1, hw2⟩ := abs_le.mp hw
  -- `v + v / 2 + (w - v) / 2` is about `v + w / 2`; the truncations are worth a unit at most
  have hhalf := tdiv_two_cases v
  have hdiff := tdiv_two_cases (w - v)
  rw [abs_le]
  constructor <;> omega

/-- **The loop stays below twice the amplitude of the input.** -/
theorem abs_loopSum_le (hM : 0 < M) (hA : 1 ≤ A) (hx : ∀ n, |x n| ≤ A) (n : ℕ) :
    |loopSum M x n| ≤ 2 * A - 1 := by
  induction n using Nat.strong_induction_on with
  | _ n ih =>
    rw [loopSum_eq hM, output, delayedSum]
    refine abs_step_le (hx n) ?_
    split_ifs with hn
    -- the sum that comes round was made `M` ticks ago
    · exact ih (n - M) (by omega)
    · rw [abs_zero]; omega

/-- The bound holds for the delayed sums, which are sums or zero. -/
theorem abs_delayedSum_le (hM : 0 < M) (hA : 1 ≤ A) (hx : ∀ n, |x n| ≤ A) (n : ℕ) :
    |delayedSum M x n| ≤ 2 * A - 1 := by
  unfold delayedSum
  split_ifs
  · exact abs_loopSum_le hM hA hx _
  · rw [abs_zero]; omega

/-- The output is the difference of two bounded words. -/
theorem abs_output_le (hM : 0 < M) (hA : 1 ≤ A) (hx : ∀ n, |x n| ≤ A) (n : ℕ) :
    |output M x n| ≤ 3 * A - 1 := by
  have h := abs_sub (delayedSum M x n) (x n)
  have hw := abs_delayedSum_le hM hA hx n
  have hxn := hx n
  rw [output]
  omega

/-! ### The adders -/

/-- A half never wraps. -/
theorem half_toInt (v : BitVec 26) : (v.sdiv 2).toInt = v.toInt.tdiv 2 := by
  rw [BitVec.toInt_sdiv_of_ne_or_ne _ _ (Or.inr (by decide))]
  rfl

/-- One and a half times the input has room in 26 bits. -/
theorem firstInputAdder1_toInt (x : BitVec 24) :
    (firstInputAdder1 x).toInt = x.toInt + x.toInt.tdiv 2 := by
  have hx := toInt_resize_of_le (n := 26) x (by decide)
  have hhalf := half_toInt (resize 26 x)
  rw [hx] at hhalf
  obtain ⟨hx1, hx2⟩ := fits_toInt x
  have := tdiv_two_cases x.toInt
  exact toInt_add_of hx hhalf ⟨by omega, by omega⟩

/-- The output adder, with a delayed word that leaves it the second guard bit. -/
theorem outputAdder2_toInt {s : APF} (x : BitVec 24) (hw : |s.firstInputAdder2.toInt| ≤ 2 ^ 24) :
    (s.outputAdder2 x).toInt = s.firstInputAdder2.toInt - x.toInt := by
  obtain ⟨hw1, hw2⟩ := abs_le.mp hw
  obtain ⟨hx1, hx2⟩ := fits_toInt x
  have hfits : Fits 26 (s.firstInputAdder2.toInt - x.toInt) := ⟨by omega, by omega⟩
  rw [outputAdder2, BitVec.toInt_sub, toInt_resize_of_le _ (by decide), bmod_of_fits hfits]

/-- The adder of the loop, with such a word. -/
theorem outputAdder1_toInt {s : APF} (x : BitVec 24) (hw : |s.firstInputAdder2.toInt| ≤ 2 ^ 24) :
    (s.outputAdder1 x).toInt =
      x.toInt + x.toInt.tdiv 2 + (s.firstInputAdder2.toInt - x.toInt).tdiv 2 := by
  have hsecond : (s.secondInputAdder1 x).toInt =
      (s.firstInputAdder2.toInt - x.toInt).tdiv 2 := by
    rw [secondInputAdder1, half_toInt, outputAdder2_toInt x hw]
  obtain ⟨hw1, hw2⟩ := abs_le.mp hw
  obtain ⟨hx1, hx2⟩ := fits_toInt x
  have hhalf := tdiv_two_cases x.toInt
  have hdiff := tdiv_two_cases (s.firstInputAdder2.toInt - x.toInt)
  exact toInt_add_of (firstInputAdder1_toInt x) hsecond ⟨by omega, by omega⟩

/-! ### Runs -/

/-- A run of the all-pass with `N` cells from an idle line that holds only zeros, under ticks that
    leave time for a pass. -/
structure FromZero (N : ℕ) (s : ℕ → APF) (inp : ℕ → In) (T : ℕ → ℕ) : Prop where
  run : IsRun (edge N) s inp
  zero : Holds (· = 0) (s 0).delayLineOperator
  idle : (s 0).delayLineOperator.shiftState = .idle
  rst : ∀ t, (inp t).rst = true
  pulses : Pulses (fun t => (inp t).dataSampledValid) T (N + 2)

/-- The input at the push of tick `n`. -/
def sample (N : ℕ) (inp : ℕ → In) (T : ℕ → ℕ) (n : ℕ) : ℤ := (inp (T n + N + 1)).dataIn.toInt

theorem abs_sample_le (N : ℕ) (inp : ℕ → In) (T : ℕ → ℕ) (n : ℕ) :
    |sample N inp T n| ≤ 2 ^ 23 := by
  obtain ⟨h1, h2⟩ := fits_toInt (inp (T n + N + 1)).dataIn
  rw [sample, abs_le]
  constructor <;> omega

namespace FromZero

variable {N : ℕ} {s : ℕ → APF} {inp : ℕ → In} {T : ℕ → ℕ}

/-- The line of an all-pass is ticked as the all-pass is. -/
theorem ticked (h : FromZero N s inp T) (hN : 5 ≤ N) :
    Ticked (fun t => (s t).delayLineOperator) (fun t => (s t).delayLineIn N (inp t)) T N :=
  ⟨h.run.component delayLineOperator (fun s i => s.delayLineIn N i) fun _ _ => rfl,
    h.idle, h.rst, hN, h.pulses, fun _ => rfl⟩

/-- For samples of 24 bits the delayed sums have 25. -/
theorem abs_delayedSum_le (hN : 5 ≤ N) (inp : ℕ → In) (T : ℕ → ℕ) (n : ℕ) :
    |delayedSum (N - 1) (sample N inp T) n| ≤ 2 ^ 24 - 1 :=
  APF.abs_delayedSum_le (A := 2 ^ 23) (by omega) (by norm_num) (abs_sample_le N inp T) n

/-- **The delayed word between two ticks**, by induction over the passes through the line: the word
    pushed is the sum of the recurrence because the one delayed is. -/
theorem firstInputAdder2_toInt (h : FromZero N s inp T) (hN : 5 ≤ N) {n t : ℕ} (h1 : T n + 3 ≤ t)
    (h2 : t ≤ T (n + 1) + 2) :
    (s t).firstInputAdder2.toInt = delayedSum (N - 1) (sample N inp T) n := by
  induction n using Nat.strong_induction_on generalizing t with
  | _ n ih =>
    unfold delayedSum
    split_ifs with hn
    · obtain ⟨k, rfl⟩ : ∃ k, n = k + (N - 1) := ⟨n - (N - 1), by omega⟩
      have hsp := h.pulses.spaced k
      -- the word that is read was pushed by tick `k`, whose adder did not wrap by the hypothesis
      have hpushed : (s t).firstInputAdder2 =
          (s (T k + N + 1)).outputAdder1 (inp (T k + N + 1)).dataIn :=
        (h.ticked hN).dataOut_delayed h1 h2
      have hword := ih k (by omega) (t := T k + N + 1) (by omega) (by omega)
      have hbound := abs_delayedSum_le hN inp T k
      rw [hpushed, outputAdder1_toInt _ (by rw [hword]; omega), hword, Nat.add_sub_cancel,
        loopSum_eq (by omega)]
      rfl
    -- nothing has come round yet: it is a word of the start
    · have hinit : (s t).firstInputAdder2 = 0 :=
        ((h.ticked hN).dataOut_initial (by omega) h1 h2).trans (h.zero.content _)
      rw [hinit]
      rfl

/-- The output adder at the push of a tick. -/
theorem outputAdder2_push (h : FromZero N s inp T) (hN : 5 ≤ N) (n : ℕ) :
    ((s (T n + N + 1)).outputAdder2 (inp (T n + N + 1)).dataIn).toInt =
      output (N - 1) (sample N inp T) n := by
  have hsp := h.pulses.spaced n
  have hword := h.firstInputAdder2_toInt hN (n := n) (t := T n + N + 1) (by omega) (by omega)
  have hbound := abs_delayedSum_le hN inp T n
  rw [outputAdder2_toInt _ (by rw [hword]; omega), hword]
  rfl

/-- The adder of the loop at the push of a tick. -/
theorem outputAdder1_push (h : FromZero N s inp T) (hN : 5 ≤ N) (n : ℕ) :
    ((s (T n + N + 1)).outputAdder1 (inp (T n + N + 1)).dataIn).toInt =
      loopSum (N - 1) (sample N inp T) n := by
  have hsp := h.pulses.spaced n
  have hword := h.firstInputAdder2_toInt hN (n := n) (t := T n + N + 1) (by omega) (by omega)
  have hbound := abs_delayedSum_le hN inp T n
  rw [outputAdder1_toInt _ (by rw [hword]; omega), hword, loopSum_eq (by omega)]
  rfl

end FromZero

/-- **The guard bits of an all-pass suffice.**  From a line of zeros, for every input: at the push
    of every tick the three signals of 26 bits are the values of the recurrence over unbounded
    integers, and these stay within `2 ^ 24 + 2` and `3 * 2 ^ 23 + 2`. -/
theorem allpass_exact {N : ℕ} {s : ℕ → APF} {inp : ℕ → In} {T : ℕ → ℕ}
    (h : FromZero N s inp T) (hN : 5 ≤ N) (n : ℕ) :
    (s (T n + N + 1)).firstInputAdder2.toInt = delayedSum (N - 1) (sample N inp T) n ∧
    ((s (T n + N + 1)).outputAdder2 (inp (T n + N + 1)).dataIn).toInt =
      output (N - 1) (sample N inp T) n ∧
    ((s (T n + N + 1)).outputAdder1 (inp (T n + N + 1)).dataIn).toInt =
      loopSum (N - 1) (sample N inp T) n ∧
    |loopSum (N - 1) (sample N inp T) n| ≤ 2 ^ 24 + 2 ∧
    |output (N - 1) (sample N inp T) n| ≤ 3 * 2 ^ 23 + 2 := by
  have hsp := h.pulses.spaced n
  have hM : 0 < N - 1 := by omega
  have hsum := abs_loopSum_le (A := 2 ^ 23) hM (by norm_num) (abs_sample_le N inp T) n
  have hout := abs_output_le (A := 2 ^ 23) hM (by norm_num) (abs_sample_le N inp T) n
  exact ⟨h.firstInputAdder2_toInt hN (by omega) (by omega), h.outputAdder2_push hN n,
    h.outputAdder1_push hN n, by omega, by omega⟩

/-- An all-pass with a line of zeros. -/
def empty : APF := ⟨powerUp 26⟩

/-- The input `a`, and `-a` from edge `u` on, with a tick every `gap` edges. -/
def flipped (gap u : ℕ) (a : BitVec 24) (t : ℕ) : In where
  rst := true
  dataSampledValid := every 0 gap t
  dataIn := if t < u then a else -a

theorem flipped_of_lt {gap u t : ℕ} (a : BitVec 24) (h : t < u) :
    (flipped gap u a t).dataIn = a := if_pos h

theorem flipped_of_le {gap u t : ℕ} (a : BitVec 24) (h : u ≤ t) :
    (flipped gap u a t).dataIn = -a := if_neg (by omega)

/-- From the empty all-pass, an input that changes its sign, at the closest admissible ticks. -/
theorem fromZero_flipped (N u : ℕ) (a : BitVec 24) :
    FromZero N (run (edge N) empty (flipped (N + 2) u a)) (flipped (N + 2) u a)
      (fun n => 0 + (N + 2) * n) :=
  ⟨isRun_run _ _, holds_powerUp, rfl, fun _ => rfl, pulses_every 0 _⟩

/-- With the shortest line, and an input that changes its sign after five ticks. -/
theorem allpass_exact_shortest :
    let inp := flipped 7 35 0x7FFFFF#24
    let s := run (edge 5) empty inp
    ((s (0 + 7 * 10 + 6)).outputAdder1 (inp (0 + 7 * 10 + 6)).dataIn).toInt =
      loopSum 4 (sample 5 inp fun n => 0 + 7 * n) 10 := by
  intro inp s
  exact (allpass_exact (fromZero_flipped 5 35 0x7FFFFF#24) (by decide) 10).2.2.1

end APF

end Reverb
