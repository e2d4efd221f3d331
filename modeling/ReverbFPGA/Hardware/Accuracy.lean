import ReverbFPGA.Hardware.Gains
import ReverbFPGA.Hardware.Ideal

namespace Reverb

/-!
# The accuracy of a channel

How far the output of a channel can be from that of the ideal network, through the whole network:
delays are exact, a gain adds one unit to the error, the combs add `IdealNetwork.combLoss`, and an
all-pass multiplies the error of its input by `0.84 * 3`.

* `IdealNetwork.stageError d k` — the error after `k` all-passes;
* `IdealNetwork.Headroom` — the ideal network leaves room for these errors where the design narrows a
  word to 24 bits;
* `Channel.output_tracks_ideal` — with that room, no adder wraps and the output word is within
  `613 * k + 402` units of the ideal one, where `k` is the settling time of the filters;
* `Channel.quiet_tracks_ideal` — samples that are small enough leave the room.
-/

open Signed FixedPoint Streams

namespace IdealNetwork

/-! ### Blocks without a loop -/

/-- Delaying words and delaying their values is the same. -/
theorem values_delay {w : ℕ} (k : ℕ) (u : ℕ → BitVec w) : values (delay k u) = delay k (values u) := by
  ext1 n
  unfold values delay
  split_ifs <;> simp

/-- The error of a gain. -/
theorem coefMult_near_of {w : ℕ} {x c : BitVec w} {X e : ℚ} (hw : 0 < w)
    (hx : |(x.toInt : ℚ) - X| ≤ e) :
    |((coefMult x c).toInt : ℚ) - gain c * X| ≤ gain c * e + 1 := by
  obtain ⟨hlo, hhi⟩ := coefMult_near hw x c
  obtain ⟨h1, h2⟩ := abs_le.mp hx
  have h3 := mul_le_mul_of_nonneg_left h1 (gain_nonneg c)
  have h4 := mul_le_mul_of_nonneg_left h2 (gain_nonneg c)
  rw [abs_le]
  constructor <;> linarith

/-- The error of an average. -/
theorem average_near {y : Fin 8 → BitVec 24} {Y : Fin 8 → ℚ} {e : ℚ}
    (hy : ∀ j, |((y j).toInt : ℚ) - Y j| ≤ e) :
    |((Diagram.average y).toInt : ℚ) - average Y| ≤ e + 1 := by
  have hdiv := le_scale_cast (F := ℚ) (K := 8) (by norm_num) 1 (∑ j, (y j).toInt)
  have hdiv' := scale_cast_le (F := ℚ) (K := 8) (by norm_num) 1 (∑ j, (y j).toInt)
  have hsum : |∑ j, ((y j).toInt : ℚ) - ∑ j, Y j| ≤ 8 * e := by
    rw [← Finset.sum_sub_distrib]
    calc |∑ j, (((y j).toInt : ℚ) - Y j)| ≤ ∑ j, |((y j).toInt : ℚ) - Y j| :=
          Finset.abs_sum_le_sum_abs _ _
      _ ≤ ∑ _j : Fin 8, e := Finset.sum_le_sum fun j _ => hy j
      _ = 8 * e := by simp
  rw [Diagram.average_toInt, average]
  simp only [scale, one_mul] at hdiv hdiv'
  push_cast at hdiv hdiv'
  rw [abs_le] at *
  constructor <;> linarith

/-- The error of the early reverb. -/
theorem early_near (p : ℕ) (u : ℕ → BitVec 24) (n : ℕ) :
    |values (Diagram.early p u) n - early p (values u) n| ≤ 2 := by
  have htap : ∀ j : Fin 8, |((coefMult (delay (Diagram.tapTicks p j) u n) (coefs j)).toInt : ℚ) -
      gain (coefs j) * delay (Diagram.tapTicks p j) (values u) n| ≤ 1 := by
    intro j
    have hexact := coefMult_near_of (c := coefs j) (e := 0) (by decide)
      (by rw [sub_self, abs_zero] : |((delay (Diagram.tapTicks p j) u n).toInt : ℚ) -
        (delay (Diagram.tapTicks p j) u n).toInt| ≤ 0)
    rw [← values_delay]
    simpa [values] using hexact
  calc |values (Diagram.early p u) n - early p (values u) n| ≤ 1 + 1 := average_near htap
    _ = 2 := by norm_num

/-! ### The late reverb -/

/-- The error after `k` all-passes. -/
def stageError (d : BitVec 25) : ℕ → ℚ
  | 0 => 152 / 5 * settling d + 18
  | k + 1 => 63 / 25 * stageError d k + 67 / 25

/-- A bound of all these errors. -/
def margin (d : BitVec 25) : ℚ := 1226 * settling d + 796

/-- What the stages so far may be off by is at most the margin. -/
theorem stageError_le_margin (d : BitVec 25) {k : ℕ} (hk : k ≤ 4) : stageError d k ≤ margin d := by
  have h0 : (0 : ℚ) ≤ settling d := Nat.cast_nonneg _
  unfold margin
  interval_cases k <;> simp only [stageError] <;> linarith

/-- The ideal words that are narrowed to 24 bits, behind each comb and each all-pass, leave room for
    the error. -/
structure Headroom (d g : BitVec 25) (x : ℕ → ℚ) : Prop where
  comb : ∀ j n, |comb (nLFCF j) d g x n| ≤ 2 ^ 23 - 1 - margin d
  stage : ∀ (k : Fin 4) n, |lateStage d g x k.succ n| ≤ 2 ^ 23 - 1 - margin d

/-- What is near a value that leaves room has 24 bits. -/
theorem fits_of_near {v : ℤ} {V e : ℚ} (hV : |V| ≤ 2 ^ 23 - 1 - e) (hv : |(v : ℚ) - V| ≤ e) :
    Fits 24 v := by
  rw [abs_le] at hV hv
  have hlo : ((-2 ^ 23 : ℤ) : ℚ) ≤ v := by push_cast; linarith
  have hhi : (v : ℚ) ≤ ((2 ^ 23 - 1 : ℤ) : ℚ) := by push_cast; linarith
  have hlo' : -2 ^ 23 ≤ v := by exact_mod_cast hlo
  have hhi' : v ≤ 2 ^ 23 - 1 := by exact_mod_cast hhi
  exact ⟨by omega, by omega⟩

/-- The gain at the output of a comb is a little below 0.8. -/
theorem gain_comb : 79 / 100 ≤ gain 0b1100110011001100110011001#25 ∧
    gain 0b1100110011001100110011001#25 ≤ 4 / 5 := by
  unfold gain
  norm_num

/-- The gain at the output of an all-pass is a little below 0.84. -/
theorem gain_allPass : gain 0b11010111000010100011110101#26 ≤ 21 / 25 := by
  unfold gain
  norm_num

variable {d g : BitVec 25}

/-- The words of an ideal comb, from what it puts out. -/
theorem abs_combWord_le {N : ℕ} {x : ℕ → ℚ} {B : ℚ} (hx : ∀ n, |comb N d g x n| ≤ B) (n : ℕ) :
    |combWord (Diagram.combTicks N) d g x n| ≤ 100 / 79 * B := by
  have hout := hx (n + Diagram.combTicks N)
  rw [comb, delay_add_apply, abs_mul, abs_of_nonneg (gain_nonneg _)] at hout
  have hgain := mul_le_mul_of_nonneg_right gain_comb.1
    (abs_nonneg (combWord (Diagram.combTicks N) d g x n))
  linarith

/-- The error of a delayed signal. -/
theorem delay_near {w : ℕ} {k : ℕ} {u : ℕ → BitVec w} {x : ℕ → ℚ} {e : ℚ}
    (hx : ∀ n, |values u n - x n| ≤ e) (n : ℕ) : |values (delay k u) n - delay k x n| ≤ e := by
  rw [values_delay]
  unfold delay
  split_ifs
  · exact hx _
  · rw [sub_self, abs_zero]
    exact (abs_nonneg _).trans (hx 0)

/-- **A comb with headroom.** -/
theorem comb_near {N : ℕ} {u : ℕ → BitVec 24} (hN : 0 < Diagram.combTicks N)
    (hg : g.toNat ≤ 95 * (2 ^ 25 - 1) / 100)
    (hroom : ∀ n, |comb N d g (values u) n| ≤ 2 ^ 23 - 1 - margin d) (n : ℕ) :
    |values (Diagram.comb N d g u) n - comb N d g (values u) n| ≤ 152 / 5 * settling d + 17 := by
  have hs : (0 : ℚ) ≤ settling d := Nat.cast_nonneg _
  have hloss : 0 ≤ combLoss d := by unfold combLoss; positivity
  have hadder : ∀ n, -2 ^ 24 + combLoss d ≤ combWord (Diagram.combTicks N) d g (values u) n ∧
      combWord (Diagram.combTicks N) d g (values u) n < 2 ^ 24 := by
    intro n
    have hn := abs_le.mp (abs_combWord_le hroom n)
    unfold combLoss
    unfold margin at hn
    constructor <;> linarith
  have hword : ∀ n, |values (loopWord (Diagram.combTicks N) (Diagram.lowPass d)
      (Diagram.combSum g) u) n - combWord (Diagram.combTicks N) d g (values u) n| ≤
      combLoss d := by
    intro n
    obtain ⟨hlo, hhi⟩ := combWord_near hN hg hadder n
    rw [abs_le]
    constructor <;> linarith
  have hout : |((coefMult (Diagram.combLine N d g u n) 0b1100110011001100110011001).toInt : ℚ) -
      comb N d g (values u) n| ≤ gain 0b1100110011001100110011001#25 * combLoss d + 1 :=
    coefMult_near_of (by decide) (delay_near hword n)
  have hbound : gain 0b1100110011001100110011001#25 * combLoss d + 1 ≤
      152 / 5 * settling d + 17 := by
    have hmul := mul_le_mul_of_nonneg_right gain_comb.2 hloss
    unfold combLoss at *
    linarith
  have hfits := fits_of_near ((hroom n).trans (by unfold margin; linarith)) (hout.trans hbound)
  rw [values, Diagram.comb, toInt_resize _ hfits]
  exact hout.trans hbound

/-- The output adder of an all-pass does not wrap either. -/
theorem difference_toInt {N : ℕ} (hN : 0 < N - 1) (u : ℕ → BitVec 24) (n : ℕ) :
    (Diagram.difference (u n) (Diagram.allPassLine N u n)).toInt =
      (Diagram.allPassLine N u n).toInt - (u n).toInt := by
  have hsmall : |(Diagram.allPassLine N u n).toInt| ≤ 2 ^ 24 := by
    unfold Diagram.allPassLine delay
    split_ifs
    · exact (abs_loopWord_le hN u _).trans (by norm_num)
    · decide
  exact APF.outputAdder2_toInt (s := ⟨{ DelayLine.powerUp 26 with
    dataOut := Diagram.allPassLine N u n }⟩) (u n) hsmall

/-- **An all-pass with headroom.** -/
theorem allPass_near {N : ℕ} {u : ℕ → BitVec 24} {x : ℕ → ℚ} {e : ℚ} (hN : 0 < N - 1)
    (hx : ∀ n, |values u n - x n| ≤ e)
    (hroom : ∀ n, |allPass N x n| ≤ 2 ^ 23 - 1 - (63 / 25 * e + 67 / 25)) (n : ℕ) :
    |values (Diagram.allPass N u) n - allPass N x n| ≤ 63 / 25 * e + 67 / 25 := by
  have he : 0 ≤ e := (abs_nonneg _).trans (hx 0)
  have hdelayed : |values (Diagram.allPassLine N u) n -
      delay (N - 1) (allPassWord (N - 1) x) n| ≤ 2 * (e + 1) :=
    delay_near (allPassWord_near hN hx) n
  have hdiff : |((Diagram.difference (u n) (Diagram.allPassLine N u n)).toInt : ℚ) -
      (delay (N - 1) (allPassWord (N - 1) x) n - x n)| ≤ 3 * e + 2 := by
    have hin := hx n
    rw [difference_toInt hN]
    push_cast
    rw [values] at hdelayed hin
    rw [abs_le] at *
    constructor <;> linarith
  have hout : |((coefMult (Diagram.difference (u n) (Diagram.allPassLine N u n))
      0b11010111000010100011110101).toInt : ℚ) - allPass N x n| ≤
      gain 0b11010111000010100011110101#26 * (3 * e + 2) + 1 :=
    coefMult_near_of (by decide) hdiff
  have hbound : gain 0b11010111000010100011110101#26 * (3 * e + 2) + 1 ≤
      63 / 25 * e + 67 / 25 := by
    have hmul := mul_le_mul_of_nonneg_right gain_allPass (by linarith : 0 ≤ 3 * e + 2)
    linarith
  rw [values, Diagram.allPass, toInt_resize _ (fits_of_near (hroom n) (hout.trans hbound))]
  exact hout.trans hbound

/-- **The late reverb with headroom**, by induction over the all-passes. -/
theorem lateStage_near {u : ℕ → BitVec 24} (hg : g.toNat ≤ 95 * (2 ^ 25 - 1) / 100)
    (h : Headroom d g (values u)) (k : Fin 5) (n : ℕ) :
    |values (Diagram.lateStage d g u k) n - lateStage d g (values u) k n| ≤ stageError d k := by
  induction k using Fin.induction generalizing n with
  | zero =>
    have hcomb := fun j => comb_near (Diagram.combTicks_pos j) hg (h.comb j) n
    refine (average_near hcomb).trans (le_of_eq ?_)
    rw [Fin.val_zero, stageError]
    ring
  | succ k ih =>
    -- the next all-pass needs room for what the stages so far are off by
    have hroom : ∀ n, |allPass (nAPF k) (lateStage d g (values u) k.castSucc) n| ≤
        2 ^ 23 - 1 - (63 / 25 * stageError d k + 67 / 25) := by
      intro n
      have hmargin := stageError_le_margin d (k := k + 1) (by omega)
      rw [stageError] at hmargin
      have hstage : |allPass (nAPF k) (lateStage d g (values u) k.castSucc) n| ≤ _ := h.stage k n
      linarith
    exact allPass_near (Diagram.allPassTicks_pos k) ih hroom n

/-! ### The mix -/

/-- Half the sum of two words, rounded down. -/
theorem half_sum_toInt (x y : BitVec 24) :
    (slice 1 24 (resize 25 x + resize 25 y)).toInt = (x.toInt + y.toInt) / 2 := by
  obtain ⟨hx1, hx2⟩ := fits_toInt x
  obtain ⟨hy1, hy2⟩ := fits_toInt y
  have hsum := toInt_add_of (toInt_resize_of_le (n := 25) x (by decide))
    (toInt_resize_of_le (n := 25) y (by decide)) ⟨by omega, by omega⟩
  rw [toInt_slice _ (by decide) (by decide), hsum]
  rfl

/-- The error of the wet sound. -/
theorem wet_near {p : Params} {u : ℕ → BitVec 24}
    (hg : p.decayValue.toNat ≤ 95 * (2 ^ 25 - 1) / 100)
    (h : Headroom p.dampingValue p.decayValue
      (delay (Diagram.tapTicks p.preDelayValue.toNat 7) (values u))) (n : ℕ) :
    |values (Diagram.wet p u) n - wet p (values u) n| ≤
      613 * settling p.dampingValue + 400 := by
  have hearly := early_near p.preDelayValue.toNat u n
  have hlate : |values (Diagram.late p.dampingValue p.decayValue
      (delay (Diagram.tapTicks p.preDelayValue.toNat 7) u)) n - late p.dampingValue p.decayValue
      (delay (Diagram.tapTicks p.preDelayValue.toNat 7) (values u)) n| ≤
      margin p.dampingValue := by
    rw [← values_delay] at h ⊢
    exact (lateStage_near hg h (Fin.last 4) n).trans
      (stageError_le_margin p.dampingValue le_rfl)
  -- the early and the late word are added in 25 bits and halved
  have hhalf : (Diagram.wet p u n).toInt = scale 2 1 ((Diagram.early p.preDelayValue.toNat u n).toInt +
      (Diagram.late p.dampingValue p.decayValue
        (delay (Diagram.tapTicks p.preDelayValue.toNat 7) u) n).toInt) := by
    rw [Diagram.wet, half_sum_toInt, scale, one_mul]
  have hlo := le_scale_cast (F := ℚ) (K := 2) (by norm_num) 1
    ((Diagram.early p.preDelayValue.toNat u n).toInt + (Diagram.late p.dampingValue p.decayValue
      (delay (Diagram.tapTicks p.preDelayValue.toNat 7) u) n).toInt)
  have hhi := scale_cast_le (F := ℚ) (K := 2) (by norm_num) 1
    ((Diagram.early p.preDelayValue.toNat u n).toInt + (Diagram.late p.dampingValue p.decayValue
      (delay (Diagram.tapTicks p.preDelayValue.toNat 7) u) n).toInt)
  unfold margin values at *
  rw [hhalf, wet]
  push_cast at *
  rw [abs_le] at *
  constructor <;> linarith

/-- The error of the output. -/
theorem reverb_near {p : Params} {u : ℕ → BitVec 24}
    (hg : p.decayValue.toNat ≤ 95 * (2 ^ 25 - 1) / 100)
    (h : Headroom p.dampingValue p.decayValue
      (delay (Diagram.tapTicks p.preDelayValue.toNat 7) (values u))) (n : ℕ) :
    |values (Diagram.reverb p u) n - reverb p (values u) n| ≤
      613 * settling p.dampingValue + 402 := by
  have hdry : |((coefMult (u n) (~~~p.mixValue)).toInt : ℚ) -
      gain (~~~p.mixValue) * values u n| ≤ gain (~~~p.mixValue) * 0 + 1 :=
    coefMult_near_of (by decide) (by rw [values, sub_self, abs_zero])
  have hwet : |((coefMult (delay 1 (Diagram.wet p u) n) p.mixValue).toInt : ℚ) -
      gain p.mixValue * delay 1 (wet p (values u)) n| ≤
      gain p.mixValue * (613 * settling p.dampingValue + 400) + 1 :=
    coefMult_near_of (by decide) (delay_near (wet_near hg h) n)
  -- the gain of the mix does not make the error of the wet sound larger
  have hmix : gain p.mixValue * (613 * settling p.dampingValue + 400) ≤
      1 * (613 * settling p.dampingValue + 400) :=
    mul_le_mul_of_nonneg_right (gain_le_one _) (by positivity)
  have hadd := toInt_add_pair (by decide) (u n) (delay 1 (Diagram.wet p u) n) p.mixValue
  rw [values, Diagram.reverb, hadd, reverb]
  push_cast
  rw [abs_le] at *
  constructor <;> linarith

/-! ### Small samples -/

/-- A delay does not make a signal larger. -/
theorem abs_delay_le {x : ℕ → ℚ} {A : ℚ} (hx : ∀ n, |x n| ≤ A) (k n : ℕ) : |delay k x n| ≤ A := by
  unfold delay
  split_ifs
  · exact hx _
  · rw [abs_zero]
    exact (abs_nonneg _).trans (hx 0)

/-- The peak gain of a comb is 16. -/
theorem abs_comb_le {x : ℕ → ℚ} {A : ℚ} {N : ℕ} (hN : 0 < Diagram.combTicks N)
    (hg : g.toNat ≤ 95 * (2 ^ 25 - 1) / 100) (hx : ∀ n, |x n| ≤ A) (n : ℕ) :
    |comb N d g x n| ≤ 16 * A := by
  have hA : 0 ≤ A := (abs_nonneg _).trans (hx 0)
  -- with a decay of 0.95 the words of the loop grow to twenty times the input at most
  have hword := (exact_combWord hN d g x).abs_word_le hN hg hx (fun m hm => delay_of_lt _ hm)
    (delay_of_lt _ Nat.one_pos) n
  rw [comb, abs_mul, abs_of_nonneg (gain_nonneg _)]
  calc gain 0b1100110011001100110011001#25 * |delay (Diagram.combTicks N) _ n|
      ≤ 4 / 5 * (20 * A) := mul_le_mul gain_comb.2 hword (abs_nonneg _) (by norm_num)
    _ = 16 * A := by ring

/-- The peak gain of an all-pass is 2.52. -/
theorem abs_allPass_le {x : ℕ → ℚ} {B : ℚ} {N : ℕ} (hN : 0 < N - 1) (hx : ∀ n, |x n| ≤ B)
    (n : ℕ) : |allPass N x n| ≤ 63 / 25 * B := by
  have hB : 0 ≤ B := (abs_nonneg _).trans (hx 0)
  -- the loop holds twice the input at most, and the output adder takes off one more
  have hword := abs_delay_le (abs_allPassWord_le hN hx) (N - 1) n
  have hdiff := abs_sub (delay (N - 1) (allPassWord (N - 1) x) n) (x n)
  have hxn := hx n
  rw [allPass, abs_mul, abs_of_nonneg (gain_nonneg _)]
  calc gain 0b11010111000010100011110101#26 * |delay (N - 1) (allPassWord (N - 1) x) n - x n|
      ≤ 21 / 25 * (3 * B) := mul_le_mul gain_allPass (by linarith) (abs_nonneg _) (by norm_num)
    _ = 63 / 25 * B := by ring

/-- The peak gain of the late reverb after `k` all-passes. -/
theorem abs_lateStage_le {x : ℕ → ℚ} {A : ℚ} (hg : g.toNat ≤ 95 * (2 ^ 25 - 1) / 100)
    (hx : ∀ n, |x n| ≤ A) (k : Fin 5) (n : ℕ) :
    |lateStage d g x k n| ≤ (63 / 25) ^ (k : ℕ) * (16 * A) := by
  induction k using Fin.induction generalizing n with
  | zero =>
    -- the mean of eight combs is no louder than the loudest
    have hcomb := fun j => abs_comb_le (d := d) (Diagram.combTicks_pos j) hg hx n
    show |(∑ j, comb (nLFCF j) d g x n) / 8| ≤ _
    have hsum : |∑ j, comb (nLFCF j) d g x n| ≤ 8 * (16 * A) := calc
      |∑ j, comb (nLFCF j) d g x n| ≤ ∑ j, |comb (nLFCF j) d g x n| :=
        Finset.abs_sum_le_sum_abs _ _
      _ ≤ ∑ _j : Fin 8, 16 * A := Finset.sum_le_sum fun j _ => hcomb j
      _ = 8 * (16 * A) := by simp
    rw [abs_div, abs_of_pos (by norm_num : (0 : ℚ) < 8), Fin.val_zero, pow_zero]
    linarith
  | succ k ih =>
    have hstage := abs_allPass_le (Diagram.allPassTicks_pos k) ih n
    rw [Fin.val_succ, pow_succ]
    rw [Fin.val_castSucc] at hstage
    calc |allPass (nAPF k) (lateStage d g x k.castSucc) n| ≤ _ := hstage
      _ = (63 / 25) ^ (k : ℕ) * (63 / 25) * (16 * A) := by ring

/-- Samples that are small enough leave headroom. -/
theorem headroom_of_abs_le {x : ℕ → ℚ} {A : ℚ} (hg : g.toNat ≤ 95 * (2 ^ 25 - 1) / 100)
    (hx : ∀ n, |x n| ≤ A) (hA : 646 * A + margin d + 1 ≤ 2 ^ 23) : Headroom d g x := by
  have hA0 : 0 ≤ A := (abs_nonneg _).trans (hx 0)
  constructor
  · intro j n
    have := abs_comb_le (d := d) (Diagram.combTicks_pos j) hg hx n
    linarith
  · intro k n
    have hstage := abs_lateStage_le (d := d) hg hx k.succ n
    -- the fourth stage is the loudest one: 2.52 to the fourth, times 16
    have hpow : ((63 : ℚ) / 25) ^ (k.succ : ℕ) ≤ (63 / 25) ^ 4 :=
      pow_le_pow_right₀ (by norm_num) (by rw [Fin.val_succ]; omega)
    have hgain := mul_le_mul_of_nonneg_right hpow (by linarith : 0 ≤ 16 * A)
    have hpeak := mul_le_mul_of_nonneg_right (by norm_num : ((63 : ℚ) / 25) ^ 4 * 16 ≤ 646) hA0
    linarith

end IdealNetwork

/-! ### Runs of a channel -/

namespace Channel

open Diagram IdealNetwork

variable {s : ℕ → Channel} {inp : ℕ → In} {T : ℕ → ℕ} {x : ℕ → BitVec 24} {p : Params}

/-- **The output of a channel is that of the ideal network**, but for `613 * k + 402` units of 24
    bits, with `k` the settling time of its filters: from empty memories, for constant parameters
    with a decay of at most 0.95, as long as the ideal network has headroom. -/
theorem output_tracks_ideal (h : Paced s inp T x p) (h0 : (s 0).sample = Sample.empty)
    (hg : p.decayValue.toNat ≤ 95 * (2 ^ 25 - 1) / 100)
    (hroom : Headroom p.dampingValue p.decayValue
      (delay (tapTicks p.preDelayValue.toNat 7) (values x))) (n : ℕ) :
    |(((s (T n)).dataOut (inp (T n))).toInt : ℚ) - IdealNetwork.reverb p (values x) n| ≤
      613 * settling p.dampingValue + 402 := by
  rw [output_eq_reverb h h0]
  exact reverb_near hg hroom n

/-- **Quiet samples leave headroom**: from empty memories, and with samples of magnitude at most `A`,
    where `646 * A` and the errors stay below full scale, the output of a channel is that of the
    ideal network but for its roundings. -/
theorem quiet_tracks_ideal {A : ℕ} (h : Paced s inp T x p) (h0 : (s 0).sample = Sample.empty)
    (hg : p.decayValue.toNat ≤ 95 * (2 ^ 25 - 1) / 100) (hx : ∀ n, |(x n).toInt| ≤ A)
    (hA : 646 * A + 1226 * settling p.dampingValue + 797 ≤ 2 ^ 23) (n : ℕ) :
    |(((s (T n)).dataOut (inp (T n))).toInt : ℚ) - IdealNetwork.reverb p (values x) n| ≤
      613 * settling p.dampingValue + 402 := by
  have hvalues : ∀ n, |values x n| ≤ A := fun n => by
    rw [values]
    exact_mod_cast hx n
  refine output_tracks_ideal h h0 hg ?_ n
  refine headroom_of_abs_le hg (abs_delay_le hvalues _) ?_
  have hA' : ((646 * A + 1226 * settling p.dampingValue + 797 : ℕ) : ℚ) ≤ ((2 ^ 23 : ℕ) : ℚ) := by
    exact_mod_cast hA
  push_cast at hA'
  unfold margin
  linarith

/-- A sawtooth of magnitude `999 * c`. -/
def sawtooth (c n : ℕ) : BitVec 24 := BitVec.ofNat 24 (c * (n % 1000))

/-- The sawtooth counts up to a thousand, in steps of `c`. -/
theorem toInt_sawtooth {c : ℕ} (hc : c ≤ 3) (n : ℕ) :
    (sawtooth c n).toInt = (c * (n % 1000) : ℕ) := by
  have hlt : n % 1000 < 1000 := Nat.mod_lt _ (by decide)
  have hle : c * (n % 1000) ≤ 3 * 999 := Nat.mul_le_mul hc (by omega)
  have hnat : (sawtooth c n).toNat = c * (n % 1000) := by
    rw [sawtooth, BitVec.toNat_ofNat, Nat.mod_eq_of_lt (by omega)]
  rw [BitVec.toInt_eq_toNat_of_lt (by omega), hnat]

/-- It leaves the headroom that the bounds below ask for. -/
theorem abs_sawtooth_le {c : ℕ} (hc : c ≤ 3) (n : ℕ) : |(sawtooth c n).toInt| ≤ 2997 := by
  have hlt : n % 1000 < 1000 := Nat.mod_lt _ (by decide)
  have hle : c * (n % 1000) ≤ 3 * 999 := Nat.mul_le_mul hc (by omega)
  rw [toInt_sawtooth hc, abs_of_nonneg (Int.natCast_nonneg _)]
  omega

/-- Half damping, and the highest decay. -/
def lively : Params := ⟨0x800000, 5, 0x1E66665, 0x1000000⟩

/-- From power-up, the sawtooth is a paced channel. -/
theorem paced_sawtooth {gap : ℕ} (hgap : 1002 ≤ gap) (c : ℕ) :
    Paced (Clocked.run edge powerUp (steady gap (sawtooth c) lively))
      (steady gap (sawtooth c) lively) (fun n => 0 + gap * n) (sawtooth c) lively :=
  paced_steady hgap _ (by decide) (by decide)

/-- With the sawtooth, tick 900 is at most 1628 units off. -/
theorem quiet_tracks_ideal_sawtooth :
    |(((Clocked.run edge powerUp (steady 1041 (sawtooth 1) lively) (0 + 1041 * 900)).dataOut
      (steady 1041 (sawtooth 1) lively (0 + 1041 * 900))).toInt : ℚ) -
      IdealNetwork.reverb lively (values (sawtooth 1)) 900| ≤ 1628 := by
  have hnear := quiet_tracks_ideal (A := 2997) (paced_sawtooth (show 1002 ≤ 1041 by decide) 1)
    sample_powerUp (by decide) (abs_sawtooth_le (by decide)) (by decide) 900
  have hsettling : settling lively.dampingValue = 2 := by decide
  rw [hsettling] at hnear
  exact hnear.trans (by norm_num)

end Channel

end Reverb
