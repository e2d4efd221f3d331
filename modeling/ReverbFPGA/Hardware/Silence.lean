import ReverbFPGA.Hardware.Accuracy

namespace Reverb

/-!
# What is left of the sound in silence

Once the samples are silent, whatever was played before, each comb of a channel loses a twentieth
with every turn of its loop and keeps what its roundings add up to, at most `38 * k + 20` units with
the settling time `k` of its filter (`Diagram.combLine_dies_away`).  An all-pass loses half with
every turn, and turns an input of magnitude `b` into an output of at most `3 * b + 2`
(`Diagram.allPass_dies_away`).

`Channel.output_dies_away` follows these bounds through the network.
-/

open Signed FixedPoint Streams DampedLoop

namespace Diagram

/-! ### A comb -/

open IdealNetwork

variable {d g : BitVec 25} {u : ℕ → BitVec 24} {m n N : ℕ}

/-- The filter of a comb before tick `n`. -/
def combRegister (N : ℕ) (d g : BitVec 25) (u : ℕ → BitVec 24) : ℕ → BitVec 25 :=
  delay 1 (loopRegister (combTicks N) (lowPass d) (combSum g) u)

/-- In silence no adder of a comb wraps: it is a loop with roundings and without an input. -/
theorem rounded_combLine (hN : 0 < combTicks N) (d g : BitVec 25) (hu : ∀ n, m ≤ n → u n = 0) :
    Rounded d g (combTicks N) 0 (fun n => values (combLine N d g u) (m + n))
      (fun n => values (combRegister N d g u) (m + n)) := by
  -- the filter never wraps, and in silence the adder of the loop only passes the feedback on
  have hfilter : ∀ n, (combRegister N d g u (m + (n + 1))).toInt = LPF.sum 25 d.toNat
      (combLine N d g u (m + n)).toInt (combRegister N d g u (m + n)).toInt := by
    intro n
    rw [← Nat.add_assoc, combRegister, delay_loopRegister_succ hN]
    exact LPF.outputAdder_toInt (by decide) ⟨_⟩ ⟨true, true, _, d⟩
  have hfeed : ∀ n, combLine N d g u (m + (n + combTicks N)) =
      coefMult (combRegister N d g u (m + (n + 1))) g := by
    intro n
    have hsilent : resize 25 (0 : BitVec 24) = 0 := by decide
    rw [← Nat.add_assoc, ← Nat.add_assoc, combLine, delay_loopWord_add, hu _ (Nat.le_add_right _ _),
      combSum, hsilent, zero_add]
    rfl
  refine ⟨fun n => ?_, fun n => ?_, fun n => ?_, fun n => ?_⟩
  · simp only [values, hfilter]
    exact (sum_near d _ _).1
  · simp only [values, hfilter]
    exact (sum_near d _ _).2
  · simp only [values, hfeed, IdealNetwork.combSum, Pi.zero_apply, zero_add]
    exact (coefMult_near (by decide) _ g).1
  · simp only [values, hfeed, IdealNetwork.combSum, Pi.zero_apply, zero_add]
    exact (coefMult_near (by decide) _ g).2

/-- Words of 25 bits. -/
theorem abs_values_le (v : ℕ → BitVec 25) (n : ℕ) : -2 ^ 24 ≤ values v n ∧ values v n ≤ 2 ^ 24 := by
  obtain ⟨h1, h2⟩ := fits_toInt (v n)
  have hlo : -2 ^ 24 ≤ (v n).toInt := by omega
  have hhi : (v n).toInt ≤ 2 ^ 24 := by omega
  unfold values
  constructor
  · exact_mod_cast hlo
  · exact_mod_cast hhi

/-- **A comb dies away**: after 26 half-lives of silence its words are at most `38 * k + 20` units
    below zero, and none is above. -/
theorem combLine_dies_away (hN : 0 < combTicks N) (hg : g.toNat ≤ 95 * (2 ^ 25 - 1) / 100)
    (hu : ∀ n, m ≤ n → u n = 0)
    (hn : m + 26 * halfLife 19 (settling d) (combTicks N) ≤ n) :
    -(38 * settling d + 20 : ℤ) ≤ (combLine N d g u n).toInt ∧ (combLine N d g u n).toInt ≤ 0 := by
  have hloop := rounded_combLine hN d g hu
  have hgains := gains_comb d hg
  obtain ⟨i, rfl⟩ : ∃ i, n = m + i := ⟨n - m, by omega⟩
  -- from below the loop loses what it rounds, from above it loses nothing
  have hlo := ((hloop.lossy_sub (exact_zero d g (combTicks N)).rounded).halved (A := 2 ^ 24)
    (j := 25) hgains (by decide) hN (by norm_num) (by norm_num) (by norm_num)
    (fun k _ => by simpa using (abs_values_le _ _).1) (by simpa using (abs_values_le _ _).1)
    (by omega : _ ≤ i)).1
  have hhi := (((exact_zero d g (combTicks N)).lossy_sub hloop).halved (A := 2 ^ 24)
    (j := 25) hgains (by decide) hN le_rfl le_rfl (by norm_num)
    (fun k _ => by simpa using (abs_values_le _ _).2) (by simpa using (abs_values_le _ _).2)
    (by omega : _ ≤ i)).1
  rw [residue_comb, combLoss] at hlo
  simp only [residue, Pi.sub_apply, Pi.zero_apply, sub_zero, zero_sub, mul_zero, zero_add,
    add_zero, values] at hlo hhi
  norm_num at hlo hhi
  constructor
  · have hlt : ((-(38 * settling d + 20) - 1 : ℤ) : ℚ) < (combLine N d g u (m + i)).toInt := by
      push_cast
      linarith
    have : -(38 * settling d + 20) - 1 < (combLine N d g u (m + i)).toInt := by exact_mod_cast hlt
    omega
  · have hlt : ((combLine N d g u (m + i)).toInt : ℚ) < ((1 : ℤ) : ℚ) := by
      push_cast
      linarith
    have : (combLine N d g u (m + i)).toInt < 1 := by exact_mod_cast hlt
    omega

/-! ### An all-pass -/

/-- A coefficient never makes a word larger. -/
theorem abs_coefMult_le {w : ℕ} {x c : BitVec w} {b : ℤ} (hw : 0 < w) (hx : |x.toInt| ≤ b) :
    |(coefMult x c).toInt| ≤ b := by
  have hK : (0 : ℤ) < 2 ^ w := by positivity
  have hc : (c.toNat : ℤ) ≤ 2 ^ w := by exact_mod_cast c.isLt.le
  have hb : 0 ≤ b := (abs_nonneg _).trans hx
  obtain ⟨h1, h2⟩ := abs_le.mp hx
  rw [coefMult_toInt hw, abs_le]
  exact ⟨le_scale hK (Int.natCast_nonneg _) hc (by omega) h1,
    scale_le hK (Int.natCast_nonneg _) hc hb h2⟩

/-- A turn of the loop of an all-pass. -/
theorem allPassLine_step (hN : 0 < N - 1) {b : ℕ} {n : ℕ} (hu : |(u n).toInt| ≤ b) :
    |values (allPassLine N u) (n + (N - 1)) - values (allPassLine N u) n / 2| ≤ b + 1 := by
  have hnow : (allPassLine N u n).toInt = APF.delayedSum (N - 1) (fun n => (u n).toInt) n := by
    unfold allPassLine delay APF.delayedSum
    split_ifs
    · exact loopWord_toInt hN u _
    · rfl
  have hlate : (allPassLine N u (n + (N - 1))).toInt = (u n).toInt + (u n).toInt.tdiv 2 +
      ((allPassLine N u n).toInt - (u n).toInt).tdiv 2 := by
    rw [allPassLine, delay_add_apply, loopWord_toInt hN, APF.loopSum_eq hN, ← allPassLine, hnow]
    rfl
  have hstep := allPass_step_near (u n).toInt (allPassLine N u n).toInt
  have hin : |((u n).toInt : ℚ)| ≤ b := by exact_mod_cast hu
  rw [allPassSum_eq, ← hlate] at hstep
  rw [values, values]
  rw [abs_le] at *
  constructor <;> linarith

/-- **An all-pass dies away**: 26 half-lives after its input has fallen to the magnitude `b`, its
    output is of magnitude `3 * b + 2` at most. -/
theorem allPass_dies_away (hN : 0 < N - 1) {b : ℕ} (hb : 3 * b + 2 < 2 ^ 23)
    (hu : ∀ n, m ≤ n → |(u n).toInt| ≤ b) (hn : m + 52 * (N - 1) ≤ n) :
    |(allPass N u n).toInt| ≤ 3 * b + 2 := by
  obtain ⟨i, rfl⟩ : ∃ i, n = m + i := ⟨n - m, by omega⟩
  have hbits : ∀ n, |values (allPassLine N u) n| ≤ 2 ^ 24 := by
    intro n
    have hword : |(allPassLine N u n).toInt| ≤ 2 ^ 24 := by
      unfold allPassLine delay
      split_ifs
      · exact (abs_loopWord_le hN u _).trans (by norm_num)
      · decide
    rw [values]
    exact_mod_cast hword
  have hhalf : 26 * halfLife 1 1 (N - 1) ≤ i := by
    unfold halfLife
    omega
  -- each turn of the loop halves its word, but for the input and a unit of rounding
  have hsettled := abs_halved_settles (z := fun n => values (allPassLine N u) (m + n))
    (r := b + 1) (j := 25) hN (by positivity)
    (fun n => by
      rw [← Nat.add_assoc]
      exact allPassLine_step hN (hu (m + n) (Nat.le_add_right m n)))
    (fun n _ => hbits _) hhalf
  -- the words are integers
  have hword : |(allPassLine N u (m + i)).toInt| ≤ 2 * b + 2 := by
    have hlt : |((allPassLine N u (m + i)).toInt : ℚ)| < ((2 * b + 3 : ℤ) : ℚ) := by
      rw [values] at hsettled
      push_cast
      linarith
    have : |(allPassLine N u (m + i)).toInt| < 2 * b + 3 := by exact_mod_cast hlt
    omega
  have hdiff : |(difference (u (m + i)) (allPassLine N u (m + i))).toInt| ≤ 3 * b + 2 := by
    have hin := hu (m + i) (Nat.le_add_right m i)
    rw [difference_toInt hN]
    rw [abs_le] at *
    constructor <;> omega
  have hout := abs_coefMult_le (c := 0b11010111000010100011110101) (by decide) hdiff
  have hfits : Fits 24 (coefMult (difference (u (m + i)) (allPassLine N u (m + i)))
      0b11010111000010100011110101).toInt := by
    obtain ⟨h1, h2⟩ := abs_le.mp hout
    exact ⟨by omega, by omega⟩
  rw [allPass, toInt_resize _ hfits]
  exact hout

/-! ### The network -/

/-- What is left after `k` all-passes. -/
def stageResidue (d : BitVec 25) : ℕ → ℕ
  | 0 => 38 * settling d + 20
  | k + 1 => 3 * stageResidue d k + 2

/-- What is left after the stages so far is at most what is left after all of them. -/
theorem stageResidue_le (d : BitVec 25) {k : ℕ} (hk : k ≤ 4) :
    stageResidue d k ≤ 3078 * settling d + 1700 := by
  interval_cases k <;> simp only [stageResidue] <;> omega

theorem combTicks_le (j : Fin 8) : combTicks (nLFCF j) ≤ 1914 := by
  revert j
  decide

theorem nAPF_le (k : Fin 4) : nAPF k ≤ 997 := by
  revert k
  decide

/-- The averaged combs, and each all-pass behind them, die away one after the other. -/
theorem lateStage_dies_away (hg : g.toNat ≤ 95 * (2 ^ 25 - 1) / 100)
    (hd : 3078 * settling d + 1700 < 2 ^ 23) (hu : ∀ n, m ≤ n → u n = 0) (k : Fin 5)
    (hn : m + 520 * (1913 + settling d) + 51792 * k ≤ n) :
    |(lateStage d g u k n).toInt| ≤ stageResidue d k := by
  induction k using Fin.induction generalizing n with
  | zero =>
    have hcomb : ∀ j, |(comb (nLFCF j) d g u n).toInt| ≤ stageResidue d 0 := by
      intro j
      have hticks := combTicks_le j
      obtain ⟨hlo, hhi⟩ := combLine_dies_away (d := d) (combTicks_pos j) hg hu (n := n) (by
        unfold halfLife
        rw [Fin.val_zero] at hn
        omega)
      have hout : |(coefMult (combLine (nLFCF j) d g u n) 0b1100110011001100110011001).toInt| ≤
          stageResidue d 0 := by
        refine abs_coefMult_le (by decide) (abs_le.mpr ⟨?_, ?_⟩) <;>
          simp only [stageResidue] <;> push_cast <;> omega
      have hfits : Fits 24 (coefMult (combLine (nLFCF j) d g u n)
          0b1100110011001100110011001).toInt := by
        obtain ⟨h1, h2⟩ := abs_le.mp hout
        have := stageResidue_le d (k := 0) (by omega)
        exact ⟨by omega, by omega⟩
      rw [comb, toInt_resize _ hfits]
      exact hout
    -- the average of the eight combs is no louder than the loudest
    have hsum : |∑ j, (comb (nLFCF j) d g u n).toInt| ≤ 8 * stageResidue d 0 := calc
      |∑ j, (comb (nLFCF j) d g u n).toInt| ≤ ∑ j, |(comb (nLFCF j) d g u n).toInt| :=
        Finset.abs_sum_le_sum_abs _ _
      _ ≤ ∑ _j : Fin 8, (stageResidue d 0 : ℤ) := Finset.sum_le_sum fun j _ => hcomb j
      _ = 8 * stageResidue d 0 := by simp
    rw [lateStage_zero, average_toInt, Fin.val_zero]
    rw [abs_le] at *
    constructor <;> omega
  | succ k ih =>
    have hlast := nAPF_le k
    have hres := stageResidue_le d (k := k + 1) (by omega)
    rw [Fin.val_succ] at hn ⊢
    have hb : 3 * stageResidue d k + 2 < 2 ^ 23 := by
      rw [stageResidue] at hres
      omega
    -- this stage waits for 52 of its own delays, all of which fit in 51792 ticks
    have hquiet := fun i hi => ih (n := i) hi
    rw [lateStage_succ]
    have hstage := allPass_dies_away (allPassTicks_pos k) hb hquiet (n := n) (by
      rw [Fin.val_castSucc]
      omega)
    simpa [stageResidue] using hstage

/-- Behind the last all-pass at most `3078 * k + 1700` units are left.  With a settling time above
    2724 that is no less than any word of 24 bits can hold. -/
theorem lateStage_last_dies_away (hg : g.toNat ≤ 95 * (2 ^ 25 - 1) / 100)
    (hu : ∀ n, m ≤ n → u n = 0) (hn : m + 520 * (1913 + settling d) + 207168 ≤ n) :
    |(lateStage d g u (Fin.last 4) n).toInt| ≤ 3078 * settling d + 1700 := by
  by_cases hd : 3078 * settling d + 1700 < 2 ^ 23
  · have hstage := lateStage_dies_away hg hd hu (Fin.last 4) (n := n) (by
      rw [Fin.val_last]
      omega)
    have hres := stageResidue_le d (k := 4) le_rfl
    rw [Fin.val_last] at hstage
    omega
  -- the bound is no smaller than full scale
  · obtain ⟨hlo, hhi⟩ := fits_toInt (lateStage d g u (Fin.last 4) n)
    rw [abs_le]
    constructor <;> omega

/-- The taps have let the last sample through. -/
theorem early_silent (p : ℕ) (hu : ∀ n, m ≤ n → u n = 0) (hn : m + tapTicks p 7 ≤ n) :
    early p u n = 0 := by
  have htap : (fun j : Fin 8 => coefMult (delay (tapTicks p j) u n) (coefs j)) = fun _ => 0 := by
    ext1 j
    have hj : tapTicks p j ≤ tapTicks p 7 := by
      unfold tapTicks
      have := Nat.mul_le_mul_right (nearEchoCurrentN p - 1) (Nat.le_of_lt_succ j.isLt)
      omega
    rw [delay_of_le _ (by omega), hu _ (by omega), coefMult_zero (by decide)]
  rw [early, htap, average_zero]

end Diagram

/-! ### Runs of a channel -/

namespace Channel

open Diagram
open IdealNetwork (settling)

variable {s : ℕ → Channel} {inp : ℕ → In} {T : ℕ → ℕ} {x : ℕ → BitVec 24} {p : Params}

/-- **In silence a channel dies away**, whatever was played up to tick `m` from empty memories: once
    the taps have let the last sample through, and the loops have had their half-lives, the output
    words are of magnitude `1539 * k + 850` at most, with `k` the settling time of the filters. -/
theorem output_dies_away {m n : ℕ} (h : Paced s inp T x p) (h0 : (s 0).sample = Sample.empty)
    (hg : p.decayValue.toNat ≤ 95 * (2 ^ 25 - 1) / 100) (hx : ∀ n, m ≤ n → x n = 0)
    (hn : m + tapTicks p.preDelayValue.toNat 7 + 520 * (1913 + settling p.dampingValue) +
      207168 < n) :
    |((s (T n)).dataOut (inp (T n))).toInt| ≤ 1539 * settling p.dampingValue + 850 := by
  obtain ⟨n, rfl⟩ : ∃ i, n = i + 1 := ⟨n - 1, by omega⟩
  have hfed : ∀ i, m + tapTicks p.preDelayValue.toNat 7 ≤ i →
      delay (tapTicks p.preDelayValue.toNat 7) x i = 0 := by
    intro i hi
    rw [delay_of_le _ (by omega), hx _ (by omega)]
  have hlate := lateStage_last_dies_away (d := p.dampingValue) hg hfed (n := n) (by omega)
  -- the early reverb is silent, and the late one is halved
  have hwet : |(wet p x n).toInt| ≤ 1539 * settling p.dampingValue + 850 := by
    have hzero : (0 : BitVec 24).toInt = 0 := rfl
    rw [wet, IdealNetwork.half_sum_toInt, early_silent _ hx (by omega), late, hzero]
    rw [abs_le] at *
    constructor <;> omega
  have hmix : (coefMult (x (n + 1)) (~~~p.mixValue)) = 0 := by
    rw [hx _ (by omega), coefMult_zero (by decide)]
  rw [output_eq_reverb h h0, reverb, delay_add_apply, hmix, zero_add]
  exact abs_coefMult_le (by decide) hwet

/-- One second of the sawtooth at 48 kHz, then silence. -/
def burst (n : ℕ) : BitVec 24 := if n < 48000 then sawtooth 1 n else 0

/-- From power-up, a burst at 48 kHz is a paced channel. -/
theorem paced_burst : Paced (Clocked.run edge powerUp (steady 1041 burst lively))
    (steady 1041 burst lively) (fun n => 0 + 1041 * n) burst lively :=
  paced_steady (by decide) _ (by decide) (by decide)

/-- The burst lasts a second. -/
theorem burst_silent (n : ℕ) (hn : 48000 ≤ n) : burst n = 0 := if_neg (Nat.not_lt.mpr hn)

/-- Half a minute of silence later. -/
theorem output_dies_away_burst :
    |((Clocked.run edge powerUp (steady 1041 burst lively) (0 + 1041 * 1500000)).dataOut
      (steady 1041 burst lively (0 + 1041 * 1500000))).toInt| ≤
      1539 * settling lively.dampingValue + 850 := by
  have hsettling : settling lively.dampingValue = 2 := by decide
  have hticks : tapTicks lively.preDelayValue.toNat 7 = 83 := by decide
  have hquiet := output_dies_away (m := 48000) (n := 1500000) paced_burst sample_powerUp
    (by decide) burst_silent (by rw [hsettling, hticks]; decide)
  exact hquiet

end Channel

end Reverb
