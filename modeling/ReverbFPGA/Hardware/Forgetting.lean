import ReverbFPGA.Hardware.CombOverflow
import ReverbFPGA.Hardware.Ideal

namespace Reverb

/-!
# What the memories held is forgotten

A reset does not clear the memories of the delay lines, so what a comb or an all-pass puts out
depends on what they held.  Two of them, with any words in their lines and ticks spaced
differently, and the same input at the pushes, come together nevertheless:

* `LFCF.comb_forgets` — to within what the roundings of a comb add up to, where the feedback adder
  does not wrap;
* `APF.allpass_forgets` — to within two units.

The difference of two such runs is a loop with losses and without an input.
-/

open Clocked DelayLine Signed FixedPoint DampedLoop

/-! ### The comb -/

namespace LFCF

open IdealNetwork (Rounded settling gain combLoss gains_comb residue_comb sum_near)

variable {N : ℕ} {d g : BitVec 25} {s s' : ℕ → LFCF} {inp inp' : ℕ → In} {T T' : ℕ → ℕ}

/-- The word delayed at tick `n`. -/
def delayedSum (N : ℕ) (s : ℕ → LFCF) (inp : ℕ → In) (T : ℕ → ℕ) (n : ℕ) : ℚ :=
  (loopSum N s inp T (n - (2 * (N / 2 - 1) : ℕ))).toInt

/-- The register of the filter before it takes the word of tick `n`. -/
def registerBefore (N : ℕ) (s : ℕ → LFCF) (inp : ℕ → In) (T : ℕ → ℕ) (n : ℕ) : ℚ :=
  (loopFilter N s inp T (n - 1)).toInt

/-- The filter of a run stays shallow. -/
theorem Paced.shallow (h : Paced N d g s inp T) (h0 : Shallow d (s 0)) (t : ℕ) :
    Shallow d (s t) := by
  refine h.run.invariant (Q := fun i => i.dampingValue = d) h0 h.dampingValue ?_ t
  rintro s i rfl hs
  exact hs.edge N

/-- A run in which the adder does not wrap is a loop with roundings. -/
theorem Paced.rounded (h : Paced N d g s inp T) (hN : 5 ≤ N / 2) (h0 : Shallow d (s 0))
    (hg : g.toNat * LPF.depth d ≤ 2 ^ 48) :
    Rounded d g (2 * (N / 2 - 1)) (fun n => (inp (T n + N / 2 + 1)).dataIn.toInt)
      (delayedSum N s inp T) (registerBefore N s inp T) := by
  have hregister : ∀ n : ℕ,
      registerBefore N s inp T (n + 1) = (loopFilter N s inp T n).toInt :=
    fun n => by rw [registerBefore, Nat.cast_succ, add_sub_cancel_right]
  -- the register stays shallow, so that the sum that is pushed does not wrap
  have hsum : ∀ n : ℕ, (loopSum N s inp T n).toInt =
      (inp (T n + N / 2 + 1)).dataIn.toInt +
        scale (2 ^ 25) g.toNat (loopFilter N s inp T n).toInt := by
    intro n
    rw [← h.exactSum_push]
    refine outputAdder_toInt (exactSum_fits ?_ ?_)
    · rw [h.dampingValue]
      exact h.shallow h0 _
    · rw [h.dampingValue, h.decayValue]
      exact hg
  have hlate : ∀ n : ℕ, delayedSum N s inp T (n + 2 * (N / 2 - 1)) =
      (loopSum N s inp T n).toInt :=
    fun n => by rw [delayedSum, Nat.cast_add, add_sub_cancel_right]
  have hlo := fun n => le_scale_cast (F := ℚ) (K := 2 ^ 25) (by norm_num) g.toNat
    (loopFilter N s inp T n).toInt
  have hhi := fun n => scale_cast_le (F := ℚ) (K := 2 ^ 25) (by norm_num) g.toNat
    (loopFilter N s inp T n).toInt
  -- the two halves of the filter, then those of the feedback
  refine ⟨fun n => ?_, fun n => ?_, fun n => ?_, fun n => ?_⟩
  · rw [hregister, h.loopFilter_toInt hN]
    exact (sum_near d _ _).1
  · rw [hregister, h.loopFilter_toInt hN]
    exact (sum_near d _ _).2
  · rw [hregister, hlate, hsum, IdealNetwork.combSum, gain]
    have := hlo n
    push_cast at this ⊢
    linarith
  · rw [hregister, hlate, hsum, IdealNetwork.combSum, gain]
    have := hhi n
    push_cast at this ⊢
    linarith

/-- Two words of 25 bits. -/
theorem abs_toInt_sub_le (v v' : BitVec 25) : -2 ^ 25 ≤ (v.toInt : ℚ) - v'.toInt := by
  obtain ⟨h1, h2⟩ := fits_toInt v
  obtain ⟨h3, h4⟩ := fits_toInt v'
  have : (-2 ^ 25 : ℤ) ≤ v.toInt - v'.toInt := by omega
  exact_mod_cast this

/-- One run is not far below the other. -/
theorem Paced.le_loopSum (h : Paced N d g s inp T) (h' : Paced N d g s' inp' T') (hN : 5 ≤ N / 2)
    (hdecay : g.toNat ≤ 95 * (2 ^ 25 - 1) / 100) (hg : g.toNat * LPF.depth d ≤ 2 ^ 48)
    (h0 : Shallow d (s 0)) (h0' : Shallow d (s' 0))
    (hin : ∀ n, (inp (T n + N / 2 + 1)).dataIn = (inp' (T' n + N / 2 + 1)).dataIn) {j n : ℕ}
    (hn : (j + 1) * halfLife 19 (settling d) (2 * (N / 2 - 1)) ≤ n) :
    -(38 * settling d + 20 + 2 ^ 25 / 2 ^ j : ℚ) ≤
      (loopSum N s inp T n).toInt - (loopSum N s' inp' T' n).toInt := by
  have hloop := h.rounded hN h0 hg
  have hloop' := h'.rounded hN h0' hg
  -- the samples cancel in the difference of the two loops
  simp only [hin] at hloop
  have hlo := ((hloop.lossy_sub hloop').halved (A := 2 ^ 25) (j := j) (gains_comb d hdecay)
    (by decide) (by omega) (by norm_num) (by norm_num) (by norm_num)
    (fun _ _ => abs_toInt_sub_le _ _) (abs_toInt_sub_le _ _)
    (n := n + 2 * (N / 2 - 1)) (by omega)).1
  rw [residue_comb, combLoss, Pi.sub_apply, delayedSum, delayedSum, Nat.cast_add,
    add_sub_cancel_right] at hlo
  exact hlo

/-- **A comb forgets what its memories held.**  Of two combs with the same generic, damping and
    decay, with any words in their lines, the registers of their filters within the depth of the
    filter, as after a reset, any spacing of the ticks from a pass on, and the same samples at
    the pushes: after `j + 1` half-lives the sums that they push differ by `38 * k + 20` and a
    part that halves with every half-life, if the decay is one with which the adder does not
    wrap. -/
theorem comb_forgets (h : Paced N d g s inp T) (h' : Paced N d g s' inp' T') (hN : 5 ≤ N / 2)
    (hdecay : g.toNat ≤ 95 * (2 ^ 25 - 1) / 100) (hg : g.toNat * LPF.depth d ≤ 2 ^ 48)
    (h0 : Shallow d (s 0)) (h0' : Shallow d (s' 0))
    (hin : ∀ n, (inp (T n + N / 2 + 1)).dataIn = (inp' (T' n + N / 2 + 1)).dataIn) {j n : ℕ}
    (hn : (j + 1) * halfLife 19 (settling d) (2 * (N / 2 - 1)) ≤ n) :
    |((loopSum N s inp T n).toInt : ℚ) - (loopSum N s' inp' T' n).toInt| ≤
      38 * settling d + 20 + 2 ^ 25 / 2 ^ j := by
  have hlo := h.le_loopSum h' hN hdecay hg h0 h0' hin hn
  have hhi := h'.le_loopSum h hN hdecay hg h0' h0 (fun n => (hin n).symm) hn
  rw [abs_le]
  constructor <;> linarith

/-- The lowest input and regular ticks, from any state whose lines are idle. -/
theorem paced_from (s₀ : LFCF) (h1 : s₀.delayLineOperator1.shiftState = .idle)
    (h2 : s₀.delayLineOperator2.shiftState = .idle) {N gap : ℕ} (hgap : N / 2 + 2 ≤ gap)
    (d g : BitVec 25) : Paced N d g (run (edge N) s₀ (lowest gap d g)) (lowest gap d g)
      (fun n => 0 + gap * n) :=
  ⟨isRun_run _ _, h1, h2, fun _ => rfl, fun _ => rfl, fun _ => rfl,
    (pulses_every 0 gap).mono_gap hgap⟩

/-- With half damping and half decay, the first comb from words that are all `-1`, and from empty
    lines, under the lowest input. -/
theorem comb_forgets_flat :
    |((loopSum 1857 (run (edge 1857) flat (lowest 930 0x1000000 0x1000000))
        (lowest 930 0x1000000 0x1000000) (fun n => 0 + 930 * n) (1200000 : ℕ)).toInt : ℚ) -
      (loopSum 1857 (run (edge 1857) empty (lowest 1041 0x1000000 0x1000000))
        (lowest 1041 0x1000000 0x1000000) (fun n => 0 + 1041 * n) (1200000 : ℕ)).toInt| ≤
      38 * settling 0x1000000 + 20 + 2 ^ 25 / 2 ^ 30 := by
  have hsettling : settling 0x1000000 = 2 := by decide
  have hnear := comb_forgets (j := 30) (n := 1200000)
    (paced_from flat rfl rfl (by decide : 1857 / 2 + 2 ≤ 930) 0x1000000 0x1000000)
    (paced_from empty rfl rfl (by decide : 1857 / 2 + 2 ≤ 1041) 0x1000000 0x1000000)
    (by decide) (by decide) (by decide) ⟨by decide, by decide⟩ ⟨by decide, by decide⟩
    (fun _ => rfl)
    (by rw [hsettling]; decide)
  exact hnear

end LFCF

/-! ### The all-pass -/

namespace APF

open IdealNetwork (abs_halved_settles tdiv_two_near)

/-- A run of the all-pass with `N` cells from any words that leave its adders the guard bit, under
    ticks that leave time for a pass. -/
structure Started (N : ℕ) (s : ℕ → APF) (inp : ℕ → In) (T : ℕ → ℕ) : Prop where
  run : IsRun (edge N) s inp
  words : Holds (fun v => |v.toInt| ≤ 2 ^ 24 - 1) (s 0).delayLineOperator
  idle : (s 0).delayLineOperator.shiftState = .idle
  rst : ∀ t, (inp t).rst = true
  pulses : Pulses (fun t => (inp t).dataSampledValid) T (N + 2)

/-- A step between two halves of the difference. -/
theorem tdiv_sub_near (v v' : ℤ) :
    |((v.tdiv 2 : ℤ) : ℚ) - (v'.tdiv 2 : ℤ) - (v - v') / 2| ≤ 1 := by
  obtain ⟨h1, h2⟩ := tdiv_two_near v
  obtain ⟨h3, h4⟩ := tdiv_two_near v'
  rw [abs_le]
  constructor <;> linarith

namespace Started

variable {N : ℕ} {s s' : ℕ → APF} {inp inp' : ℕ → In} {T T' : ℕ → ℕ}

/-- The line of an all-pass is ticked as the all-pass is. -/
theorem ticked (h : Started N s inp T) (hN : 5 ≤ N) :
    Ticked (fun t => (s t).delayLineOperator) (fun t => (s t).delayLineIn N (inp t)) T N :=
  ⟨h.run.component delayLineOperator (fun s i => s.delayLineIn N i) fun _ _ => rfl,
    h.idle, h.rst, hN, h.pulses, fun _ => rfl⟩

/-- **The guard bit is never lost**, at any edge and with any input. -/
theorem words_le (h : Started N s inp T) (t : ℕ) :
    Holds (fun v => |v.toInt| ≤ 2 ^ 24 - 1) (s t).delayLineOperator := by
  refine h.run.invariant (P := fun s => Holds (fun v => |v.toInt| ≤ 2 ^ 24 - 1)
    s.delayLineOperator) (Q := fun _ => True) h.words (fun _ => trivial) ?_ t
  intro s i _ hs
  refine hs.edge fun _ => ?_
  -- the word that comes round has the guard bit, and so has the sum that it makes
  have hword : |s.firstInputAdder2.toInt| ≤ 2 ^ 24 - 1 := hs.dataOut
  show |(s.outputAdder1 i.dataIn).toInt| ≤ 2 ^ 24 - 1
  rw [outputAdder1_toInt _ (hword.trans (by norm_num))]
  exact abs_step_le (A := 2 ^ 23) (IdealNetwork.abs_sample_le _) hword

/-- The word that is pushed at tick `n` comes out `N - 1` ticks later. -/
theorem word_late (h : Started N s inp T) (hN : 5 ≤ N) (n : ℕ) :
    (s (T (n + (N - 1)) + N + 1)).firstInputAdder2.toInt =
      (inp (T n + N + 1)).dataIn.toInt + (inp (T n + N + 1)).dataIn.toInt.tdiv 2 +
        ((s (T n + N + 1)).firstInputAdder2.toInt -
          (inp (T n + N + 1)).dataIn.toInt).tdiv 2 := by
  have hsp := h.pulses.spaced (n + (N - 1))
  have hpushed : (s (T (n + (N - 1)) + N + 1)).firstInputAdder2 =
      (s (T n + N + 1)).outputAdder1 (inp (T n + N + 1)).dataIn :=
    (h.ticked hN).dataOut_delayed (n := n) (by omega) (by omega)
  have hword : |(s (T n + N + 1)).firstInputAdder2.toInt| ≤ 2 ^ 24 - 1 :=
    (h.words_le _).dataOut
  rw [hpushed, outputAdder1_toInt _ (hword.trans (by norm_num))]

end Started

/-- **An all-pass forgets what its memory held.**  Of two all-passes with the same generic, with any
    words of magnitude up to `2 ^ 24 - 1` in their lines, any spacing of the ticks from a pass on,
    and the same samples at the pushes: after 27 half-lives the delayed words and what the output
    adders make of them differ by two units at most.  Words beyond that range take the guard bit
    of the adders, and two loops that wrap may stay apart for ever. -/
theorem allpass_forgets {N : ℕ} {s s' : ℕ → APF} {inp inp' : ℕ → In} {T T' : ℕ → ℕ}
    (h : Started N s inp T) (h' : Started N s' inp' T') (hN : 5 ≤ N)
    (hin : ∀ n, (inp (T n + N + 1)).dataIn = (inp' (T' n + N + 1)).dataIn) {n : ℕ}
    (hn : 54 * (N - 1) ≤ n) :
    |(s (T n + N + 1)).firstInputAdder2.toInt - (s' (T' n + N + 1)).firstInputAdder2.toInt| ≤ 2 ∧
    |((s (T n + N + 1)).outputAdder2 (inp (T n + N + 1)).dataIn).toInt -
      ((s' (T' n + N + 1)).outputAdder2 (inp' (T' n + N + 1)).dataIn).toInt| ≤ 2 := by
  let z : ℕ → ℚ := fun n =>
    (s (T n + N + 1)).firstInputAdder2.toInt - (s' (T' n + N + 1)).firstInputAdder2.toInt
  -- each round halves the difference, but for a unit of rounding
  have hz : ∀ n, |z (n + (N - 1)) - z n / 2| ≤ 1 := by
    intro n
    have hstep := tdiv_sub_near
      ((s (T n + N + 1)).firstInputAdder2.toInt - (inp (T n + N + 1)).dataIn.toInt)
      ((s' (T' n + N + 1)).firstInputAdder2.toInt - (inp (T n + N + 1)).dataIn.toInt)
    simp only [z, h.word_late hN, h'.word_late hN, ← hin]
    push_cast at *
    rw [abs_le] at *
    constructor <;> linarith
  have hbits : ∀ n, |z n| ≤ 2 ^ 25 := by
    intro n
    have h1 : |(s (T n + N + 1)).firstInputAdder2.toInt| ≤ 2 ^ 24 - 1 := (h.words_le _).dataOut
    have h2 : |(s' (T' n + N + 1)).firstInputAdder2.toInt| ≤ 2 ^ 24 - 1 := (h'.words_le _).dataOut
    have hsub := abs_sub (s (T n + N + 1)).firstInputAdder2.toInt
      (s' (T' n + N + 1)).firstInputAdder2.toInt
    have hle : |(s (T n + N + 1)).firstInputAdder2.toInt -
        (s' (T' n + N + 1)).firstInputAdder2.toInt| ≤ 2 ^ 25 := by omega
    simp only [z]
    exact_mod_cast hle
  -- after 27 half-lives less than three units are left of 25 bits
  have hsettled := abs_halved_settles (z := z) (j := 26) (by omega) (by norm_num) hz
    (fun n _ => hbits n) (n := n) (by unfold halfLife; omega)
  -- the words are integers
  have hword : |(s (T n + N + 1)).firstInputAdder2.toInt -
      (s' (T' n + N + 1)).firstInputAdder2.toInt| ≤ 2 := by
    have hlt : |((s (T n + N + 1)).firstInputAdder2.toInt -
        (s' (T' n + N + 1)).firstInputAdder2.toInt : ℚ)| < ((3 : ℤ) : ℚ) :=
      lt_of_le_of_lt hsettled (by norm_num)
    have : |(s (T n + N + 1)).firstInputAdder2.toInt -
        (s' (T' n + N + 1)).firstInputAdder2.toInt| < 3 := by exact_mod_cast hlt
    omega
  refine ⟨hword, ?_⟩
  rw [outputAdder2_toInt _ (((h.words_le _).dataOut).trans (by norm_num)),
    outputAdder2_toInt _ (((h'.words_le _).dataOut).trans (by norm_num)), hin]
  have hcancel : ∀ a b c : ℤ, a - c - (b - c) = a - b := fun a b c => by ring
  rw [hcancel]
  exact hword

/-- An all-pass whose memory is full of the word `v`. -/
def filled (v : BitVec 26) : APF :=
  ⟨{ powerUp 26 with dataOut := v, ram := ⟨fun _ => v, v⟩ }⟩

/-- The all-pass whose line is filled with one word of the range. -/
theorem started_filled {N gap : ℕ} (hgap : N + 2 ≤ gap) (u : ℕ) (a : BitVec 24) {v : BitVec 26}
    (hv : |v.toInt| ≤ 2 ^ 24 - 1) :
    Started N (run (edge N) (filled v) (flipped gap u a)) (flipped gap u a)
      (fun n => 0 + gap * n) :=
  ⟨isRun_run _ _, ⟨fun _ => hv, fun hwe => absurd hwe Bool.false_ne_true, fun _ => hv, hv⟩, rfl,
    fun _ => rfl, (pulses_every 0 gap).mono_gap hgap⟩

/-- The third all-pass, from memories full of the highest and of the lowest words. -/
theorem allpass_forgets_filled :
    |(run (edge 881) (filled 0xFFFFFF) (flipped 883 0 5) (0 + 883 * 50000 + 881 + 1)
        ).firstInputAdder2.toInt -
      (run (edge 881) (filled 0x3000001) (flipped 1041 0 5) (0 + 1041 * 50000 + 881 + 1)
        ).firstInputAdder2.toInt| ≤ 2 := by
  have hnear := allpass_forgets (n := 50000)
    (started_filled (by decide : 881 + 2 ≤ 883) 0 5 (v := 0xFFFFFF) (by decide))
    (started_filled (by decide : 881 + 2 ≤ 1041) 0 5 (v := 0x3000001) (by decide)) (by decide)
    (fun n => by rw [flipped_of_le _ (Nat.zero_le _), flipped_of_le _ (Nat.zero_le _)])
    (by decide)
  exact hnear.1

end APF

end Reverb
