import ReverbFPGA.Hardware.AllPass
import ReverbFPGA.Hardware.CombOverflow

namespace Reverb

/-!
# The 24 bits of a filter's output

`LFCF` and `APF` attenuate what they put out, by 0.8 and by 0.84, and narrow the product to the 24
bits of the input by dropping its high bits.  That keeps the value as long as the word before the
attenuation is within `5 * 2 ^ 21` in a comb and within `9986438` in an all-pass
(`NarrowsExactly`).

* A comb stays there under every input only with the damping `2 ^ 25 - 1`, which mutes the loop, or
  with `2 ^ 25 - 4` and a decay of one quarter.  With any other pair in the range of the two
  parameters the lowest input takes the words below (`LFCF.FromZero.damping_of_narrow`).
* An all-pass stays there up to the amplitude 3328813 (`APF.FromZero.narrowsExactly`).  The
  amplitude 3328814, held until the loop has settled and then inverted, takes the output above
  (`APF.output_peak`).
-/

open Clocked FixedPoint Signed DelayLine

/-- **An attenuated word keeps its value** when it is narrowed to 24 bits exactly if the word itself
    is within `L`, the largest one with which the product has 24 bits. -/
theorem narrowed_iff {w : ℕ} (hw : 0 < w) {L c : ℤ} {x coef : BitVec w} (hc : coef.toNat = c)
    (hL : Fits 24 (c * x.toInt / 2 ^ w) ↔ |x.toInt| ≤ L) :
    ((coefMult x coef).toInt = c * x.toInt / 2 ^ w ∧ Fits 24 (coefMult x coef).toInt ∧
      (resize 24 (coefMult x coef)).toInt = (coefMult x coef).toInt) ↔ |x.toInt| ≤ L := by
  have hvalue : (coefMult x coef).toInt = c * x.toInt / 2 ^ w := by
    rw [coefMult_toInt hw, hc, scale]
  rw [fits_and_toInt_resize_iff, hvalue, hL]
  exact and_iff_right rfl

/-! ### Combs -/

namespace Descent

variable {d g : BitVec 25}

/-- The dampings and decays at which the loop can rest within `5 * 2 ^ 21`. -/
theorem damping_of_fixed {B P : ℤ} (hg : 2 ^ 23 - 1 ≤ g.toNat) (hP : 0 ≤ P) (hB : B ≤ 5 * 2 ^ 21)
    (hlp : -P = LPF.sum 25 d.toNat (-B) (-P))
    (hfed : -B = -2 ^ 23 + scale (2 ^ 25) g.toNat (-P)) :
    d.toNat = 2 ^ 25 - 1 ∨ d.toNat = 2 ^ 25 - 4 ∧ g.toNat ≤ 2 ^ 23 := by
  obtain ⟨δ, q, hδd, hδ, hqB, hqP, hgP⟩ := roundings_of_fixed hlp hfed
  have hg0 : (2 ^ 23 - 1 : ℤ) ≤ g.toNat := by omega
  -- a decay of one quarter or more brings back a quarter of the filter's depth
  have hquarter : (2 ^ 23 - 1) * P ≤ 2 ^ 25 * (B - 2 ^ 23) :=
    le_trans (mul_le_mul_of_nonneg_right hg0 hP) hgP
  have hB0 : 2 ^ 23 ≤ B := by linarith
  have hδ5 : δ ≤ 5 := by
    have hdeep : (δ - 1) * ((2 ^ 23 - 1) * B) ≤ δ * (2 ^ 25 * (B - 2 ^ 23)) := calc
      (δ - 1) * ((2 ^ 23 - 1) * B) = (2 ^ 23 - 1) * ((δ - 1) * B) := by ring
      _ ≤ (2 ^ 23 - 1) * (δ * P) := by linarith
      _ = δ * ((2 ^ 23 - 1) * P) := by ring
      _ ≤ δ * (2 ^ 25 * (B - 2 ^ 23)) := mul_le_mul_of_nonneg_left hquarter hδ.le
    by_contra hlt
    have h6 : 6 ≤ δ := by omega
    have hslope := mul_le_mul_of_nonneg_right h6
      (show 0 ≤ 2 ^ 25 * (5 * 2 ^ 21 - B) - (2 ^ 23 - 1) * (5 * 2 ^ 21 - B) by linarith)
    linarith
  -- five dampings are left
  interval_cases δ
  · left; omega
  · exfalso; omega
  · exfalso; omega
  · right
    have hdeep : 2 ^ 23 ≤ P := by omega
    have := mul_le_mul_of_nonneg_left hdeep (show (0 : ℤ) ≤ g.toNat by omega)
    exact ⟨by omega, by omega⟩
  · exfalso
    rcases le_or_gt q 1 with hq | hq <;> omega

end Descent

namespace LFCF

/-- `LLPFoutput` is the attenuated word, it has 24 bits, and `dataOUT` is that value. -/
def NarrowsExactly (s : LFCF) : Prop :=
  s.llpfOutput.toInt = 26843545 * s.secondDelayedOutputAdder.toInt / 2 ^ 25 ∧
    Fits 24 s.llpfOutput.toInt ∧ s.dataOut.toInt = s.llpfOutput.toInt

/-- It does exactly for the words within `5 * 2 ^ 21`. -/
theorem narrowsExactly_iff (s : LFCF) :
    s.NarrowsExactly ↔ |s.secondDelayedOutputAdder.toInt| ≤ 5 * 2 ^ 21 := by
  refine narrowed_iff (by decide) rfl ?_
  rw [abs_le]
  constructor
  · rintro ⟨h1, h2⟩
    exact ⟨by omega, by omega⟩
  · rintro ⟨h1, h2⟩
    exact ⟨by omega, by omega⟩

/-! ### Words that stay small -/

/-- The words of both lines are of magnitude at most `5 * 2 ^ 21`, the register of the filter of
    magnitude at most `P`. -/
structure Contained (P : ℤ) (s : LFCF) : Prop where
  line1 : Holds (fun v => |v.toInt| ≤ 5 * 2 ^ 21) s.delayLineOperator1
  line2 : Holds (fun v => |v.toInt| ≤ 5 * 2 ^ 21) s.delayLineOperator2
  lpFilter : |s.lpFilter.prevOutputAdder.toInt| ≤ P

/-- With the damping `d` the filter, fed with such words, settles within `P`, and the decay `g`
    brings back at most `2 ^ 21` of it. -/
structure Settles (d g : BitVec 25) (P : ℤ) : Prop where
  filter : ∀ x y : ℤ, |x| ≤ 5 * 2 ^ 21 → |y| ≤ P → |LPF.sum 25 d.toNat x y| ≤ P
  decay : g.toNat * P ≤ 2 ^ 46
  nonneg : 0 ≤ P

variable {P : ℤ} {s : LFCF} {i : In}

/-- In a contained comb the filter puts out a word that has settled. -/
theorem Contained.outLPFilter (h : Contained P s) (hP : Settles i.dampingValue i.decayValue P) :
    |(s.outLPFilter i).toInt| ≤ P := by
  rw [outLPFilter_toInt]
  exact hP.filter _ _ h.line2.dataOut h.lpFilter

/-- And the sum stays within the range that 0.8 narrows to 24 bits. -/
theorem Contained.outputAdder (h : Contained P s) (hP : Settles i.dampingValue i.decayValue P) :
    |(s.outputAdder i).toInt| ≤ 5 * 2 ^ 21 := by
  obtain ⟨hlo, hhi⟩ := abs_le.mp (h.outLPFilter hP)
  have hg : (0 : ℤ) ≤ i.decayValue.toNat := Int.natCast_nonneg _
  have hdecay := hP.decay
  have hdown := mul_le_mul_of_nonneg_left hlo hg
  have hup := mul_le_mul_of_nonneg_left hhi hg
  have hfed1 : -2 ^ 21 ≤ scale (2 ^ 25) i.decayValue.toNat (s.outLPFilter i).toInt :=
    le_scale_of (by norm_num) (by linarith)
  have hfed2 : scale (2 ^ 25) i.decayValue.toNat (s.outLPFilter i).toInt ≤ 2 ^ 21 :=
    scale_le_of (by norm_num) (by linarith)
  obtain ⟨hx1, hx2⟩ := fits_toInt i.dataIn
  have hfits : Fits 25 (s.exactSum i) := by
    unfold exactSum
    exact ⟨by omega, by omega⟩
  rw [outputAdder_toInt hfits, exactSum, abs_le]
  exact ⟨by omega, by omega⟩

/-- **Step lemma.** A contained comb stays so. -/
theorem Contained.edge (h : Contained P s) (hP : Settles i.dampingValue i.decayValue P) (N : ℕ) :
    Contained P (LFCF.edge N s i) :=
  ⟨h.line1.edge fun _ => h.outputAdder hP, h.line2.edge fun _ => h.line1.dataOut,
    LPF.edge_register (P := fun v => |v.toInt| ≤ P) (fun _ => hP.nonneg) (h.outLPFilter hP)
      h.lpFilter⟩

/-- The dampings with which the filter settles there. -/
theorem settles {d g : BitVec 25}
    (h : d.toNat = 2 ^ 25 - 1 ∨ d.toNat = 2 ^ 25 - 4 ∧ g.toNat ≤ 2 ^ 23) : ∃ P, Settles d g P := by
  rcases h with hd | ⟨hd, hg⟩
  -- the filter is muted
  · refine ⟨0, fun x y hx hy => ?_, by simp, le_rfl⟩
    have hy0 : y = 0 := abs_nonpos_iff.mp hy
    rw [hd, hy0]
    simp [LPF.sum, scale]
  -- the first product is 0 or -1
  · refine ⟨2 ^ 23, fun x y hx hy => ?_, by omega, by norm_num⟩
    obtain ⟨hx1, hx2⟩ := abs_le.mp hx
    have hfirst : -1 ≤ scale (2 ^ 25) (2 ^ 25 - 1 - d.toNat) x ∧
        scale (2 ^ 25) (2 ^ 25 - 1 - d.toNat) x ≤ 1 := by
      rw [hd]
      unfold scale
      exact ⟨by omega, by omega⟩
    exact abs_le.mpr (pair_within (by norm_num) (Int.natCast_nonneg _) (by rw [hd]; norm_num)
      hfirst (abs_le.mp hy))

namespace FromZero

variable {N : ℕ} {d g : BitVec 25} {s : ℕ → LFCF} {inp : ℕ → In} {T : ℕ → ℕ}

/-- **With these dampings no input takes the words out of the range.** -/
theorem narrowsExactly (h : FromZero N d g s inp T) (hP : Settles d g P) (t : ℕ) :
    (s t).NarrowsExactly := by
  have hsmall : ∀ v : BitVec 25, v = 0 → |v.toInt| ≤ 5 * 2 ^ 21 := by
    rintro v rfl
    decide
  have hstart : Contained P (s 0) := by
    refine ⟨h.zero.line1.mono hsmall, h.zero.line2.mono hsmall, ?_⟩
    rw [h.zero.lpFilter]
    exact hP.nonneg
  have hrun : Contained P (s t) := by
    refine h.run.invariant (Q := fun i => i.dampingValue = d ∧ i.decayValue = g) hstart
      (fun t => ⟨h.dampingValue t, h.decayValue t⟩) ?_ t
    rintro s i ⟨rfl, rfl⟩ hs
    exact hs.edge hP N
  exact (narrowsExactly_iff _).mpr hrun.line2.dataOut

/-! ### The lowest input -/

/-- One iteration of the filter takes its output down by the depth of the words at most. -/
theorem le_sum {x y B : ℤ} (d : BitVec 25) (hB : 0 ≤ B) (hx : -B ≤ x) :
    min y 0 - B ≤ LPF.sum 25 d.toNat x y := by
  have hd := LPF.damping_lt d
  have h0 : (0 : ℤ) ≤ d.toNat := Int.natCast_nonneg _
  have hfirst : -B ≤ scale (2 ^ 25) (2 ^ 25 - 1 - d.toNat) x :=
    le_scale (by norm_num) (by omega) (by omega) (by omega) hx
  have hloop : min y 0 ≤ scale (2 ^ 25) d.toNat y :=
    le_scale (by norm_num) h0 hd.le (min_le_right _ _) (min_le_left _ _)
  unfold LPF.sum
  omega

/-- A sum that is not too low, and that comes out within `5 * 2 ^ 21`, has not wrapped. -/
theorem le_of_abs_bmod_le {e : ℤ} (hlow : -(10 * 2 ^ 21) ≤ e) (hhigh : e < 2 ^ 24)
    (h : |e.bmod (2 ^ 25)| ≤ 5 * 2 ^ 21) : -(5 * 2 ^ 21) ≤ e := by
  obtain ⟨h1, h2⟩ := abs_le.mp h
  rcases le_or_gt (-2 ^ 24) e with hfit | hwrap
  · rwa [bmod_of_fits (w := 25) ⟨by omega, by omega⟩] at h1
  · rw [bmod_of_fits_add (w := 25) ⟨by omega, by omega⟩] at h2
    omega

/-- The sum that the decay makes of such a drop. -/
theorem le_next_sum {y y' : ℤ} (g : BitVec 25)
    (hsum : -(5 * 2 ^ 21) ≤ -2 ^ 23 + scale (2 ^ 25) g.toNat y) (hy : min y 0 - 5 * 2 ^ 21 ≤ y') :
    -(10 * 2 ^ 21) ≤ -2 ^ 23 + scale (2 ^ 25) g.toNat y' := by
  have hg : (g.toNat : ℤ) ≤ 2 ^ 25 := by exact_mod_cast g.isLt.le
  have hg0 : (0 : ℤ) ≤ g.toNat := Int.natCast_nonneg _
  have hlast : -(5 * 2 ^ 21) + 2 ^ 23 ≤ scale (2 ^ 25) g.toNat (min y 0) := by
    rcases min_choice y 0 with hmin | hmin
    · rw [hmin]; omega
    · rw [hmin, scale_zero]; norm_num
  have hdrop : -(5 * 2 ^ 21) ≤ scale (2 ^ 25) g.toNat (-(5 * 2 ^ 21)) :=
    le_scale (by norm_num) hg0 hg (by norm_num) le_rfl
  have hparts := scale_add_le (K := 2 ^ 25) (by norm_num) g.toNat (min y 0) (-(5 * 2 ^ 21))
  have hmono := scale_mono (K := 2 ^ 25) (by norm_num) hg0 hy
  rw [sub_eq_add_neg] at hmono
  omega

/-- The lowest input never wraps a sum at the top. -/
theorem exactSum_lowest_lt (h : FromZero N d g s inp T)
    (hx : ∀ t, (inp t).dataIn = BitVec.intMin 24) (n : ℕ) :
    (s (T n + N / 2 + 1)).exactSum (inp (T n + N / 2 + 1)) < 2 ^ 24 := by
  have hg : (g.toNat : ℤ) ≤ 2 ^ 25 := by exact_mod_cast g.isLt.le
  have hword := (fits_toInt (loopFilter N s inp T n)).2
  have hfed : scale (2 ^ 25) g.toNat (loopFilter N s inp T n).toInt ≤ 2 ^ 24 :=
    scale_le (by norm_num) (Int.natCast_nonneg _) hg (by norm_num) (by omega)
  rw [h.exactSum_lowest hx]
  omega

/-- **No wrap on the way down.**  Under the lowest input, if all words pushed come out within
    `5 * 2 ^ 21`, the exact sums are: a sum is lower than the one before by `5 * 2 ^ 21` at
    most. -/
theorem le_exactSum (h : FromZero N d g s inp T) (hN : 5 ≤ N / 2)
    (hx : ∀ t, (inp t).dataIn = BitVec.intMin 24)
    (hword : ∀ n : ℕ, |(loopSum N s inp T n).toInt| ≤ 5 * 2 ^ 21)
    (hdelayed : ∀ n : ℕ,
      |(loopSum N s inp T (n - (2 * (N / 2 - 1) : ℕ))).toInt| ≤ 5 * 2 ^ 21) (n : ℕ) :
    -(5 * 2 ^ 21) ≤ (s (T n + N / 2 + 1)).exactSum (inp (T n + N / 2 + 1)) := by
  induction n with
  | zero =>
    rw [h.exactSum_lowest hx, h.loopFilter_zero hN, scale_zero]
    norm_num
  | succ n ih =>
    rw [h.exactSum_lowest hx] at ih
    have hfilter : min (loopFilter N s inp T n).toInt 0 - 5 * 2 ^ 21 ≤
        (loopFilter N s inp T (n + 1 : ℕ)).toInt := by
      rw [h.paced.loopFilter_toInt hN (n + 1), show ((n + 1 : ℕ) : ℤ) - 1 = n by omega]
      exact le_sum d (by norm_num) (abs_le.mp (hdelayed (n + 1))).1
    have hout := hword (n + 1)
    rw [show (loopSum N s inp T (n + 1 : ℕ)).toInt = _ from outputAdder_bmod _ _] at hout
    refine le_of_abs_bmod_le ?_ (h.exactSum_lowest_lt hx (n + 1)) hout
    rw [h.exactSum_lowest hx]
    exact le_next_sum g ih hfilter

/-- **What the lowest input asks of the damping and the decay.** -/
theorem damping_of_narrow (h : FromZero N d g s inp T) (hN : 5 ≤ N / 2)
    (hg : 2 ^ 23 - 1 ≤ g.toNat) (hx : ∀ t, (inp t).dataIn = BitVec.intMin 24)
    (hnarrow : ∀ n, (s (T n + N / 2 + 1)).NarrowsExactly) :
    d.toNat = 2 ^ 25 - 1 ∨ d.toNat = 2 ^ 25 - 4 ∧ g.toNat ≤ 2 ^ 23 := by
  have hdelayed : ∀ n : ℕ,
      |(loopSum N s inp T (n - (2 * (N / 2 - 1) : ℕ))).toInt| ≤ 5 * 2 ^ 21 := by
    intro n
    have hsp := h.pulses.spaced n
    have hword := (narrowsExactly_iff _).mp (hnarrow n)
    rwa [h.paced.delayed hN (n := n) (by omega) (by omega)] at hword
  -- every word that is pushed is delayed and put out
  have hword : ∀ n : ℕ, |(loopSum N s inp T n).toInt| ≤ 5 * 2 ^ 21 := by
    intro n
    have := hdelayed (n + 2 * (N / 2 - 1))
    rwa [Nat.cast_add, add_sub_cancel_right] at this
  have hwrap : ∀ n, (s (T n + N / 2 + 1)).NoWrap (inp (T n + N / 2 + 1)) := by
    intro n
    have hlow := h.le_exactSum hN hx hword hdelayed n
    have hhigh := h.exactSum_lowest_lt hx n
    exact noWrap_of_fits ⟨by omega, by omega⟩
  obtain ⟨B, P, hP, hB, hlp, hfed⟩ := (h.descent hN hx hwrap).exists_fixed (L := 5 * 2 ^ 21)
    (by omega) (by norm_num) fun n => (abs_le.mp (hword n)).1
  exact Descent.damping_of_fixed hg hP hB hlp hfed

end FromZero

end LFCF

/-! ### All-passes -/

namespace APF

/-- `APFoutput` is the attenuated sum, it has 24 bits, and `dataOUT` is that value. -/
def NarrowsExactly (s : APF) (dataIn : BitVec 24) : Prop :=
  (s.apfOutput dataIn).toInt = 56371445 * (s.outputAdder2 dataIn).toInt / 2 ^ 26 ∧
    Fits 24 (s.apfOutput dataIn).toInt ∧ (s.dataOut dataIn).toInt = (s.apfOutput dataIn).toInt

/-- It does exactly for the sums within 9986438. -/
theorem narrowsExactly_iff (s : APF) (dataIn : BitVec 24) :
    s.NarrowsExactly dataIn ↔ |(s.outputAdder2 dataIn).toInt| ≤ 9986438 := by
  refine narrowed_iff (by decide) rfl ?_
  rw [abs_le]
  constructor
  · rintro ⟨h1, h2⟩
    exact ⟨by omega, by omega⟩
  · rintro ⟨h1, h2⟩
    exact ⟨by omega, by omega⟩

/-! ### Up to the amplitude 3328813 -/

/-- Every edge keeps the words of the line below twice the amplitude, at any pace of the ticks. -/
theorem contained_edge {s : APF} {i : In} {A : ℤ} (N : ℕ) (hA : A ≤ 2 ^ 23)
    (hx : |i.dataIn.toInt| ≤ A) (h : Holds (fun v => |v.toInt| ≤ 2 * A - 1) s.delayLineOperator) :
    Holds (fun v => |v.toInt| ≤ 2 * A - 1) (APF.edge N s i).delayLineOperator := by
  have hword : |s.firstInputAdder2.toInt| ≤ 2 * A - 1 := h.dataOut
  refine h.edge fun _ => ?_
  show |(s.outputAdder1 i.dataIn).toInt| ≤ 2 * A - 1
  rw [outputAdder1_toInt _ (by omega)]
  exact abs_step_le hx hword

/-- **Up to this amplitude no input takes the output out of 24 bits.** -/
theorem FromZero.narrowsExactly {N : ℕ} {s : ℕ → APF} {inp : ℕ → In} {T : ℕ → ℕ}
    (h : FromZero N s inp T) (hx : ∀ t, |(inp t).dataIn.toInt| ≤ 3328813) (t : ℕ) :
    (s t).NarrowsExactly (inp t).dataIn := by
  have hrun : Holds (fun v => |v.toInt| ≤ 2 * 3328813 - 1) (s t).delayLineOperator := by
    refine h.run.invariant (P := fun s => Holds _ s.delayLineOperator)
      (Q := fun i => |i.dataIn.toInt| ≤ 3328813) (h.zero.mono ?_) hx
      (fun s i hi hs => contained_edge N (by norm_num) hi hs) t
    rintro v rfl
    decide
  have hword : |(s t).firstInputAdder2.toInt| ≤ 2 * 3328813 - 1 := hrun.dataOut
  have hxt := hx t
  have hsub := abs_sub (s t).firstInputAdder2.toInt (inp t).dataIn.toInt
  rw [narrowsExactly_iff, outputAdder2_toInt _ (by omega)]
  omega

/-! ### The amplitude 3328814 -/

/-- **The loop settles**: after `k` passes of a constant input it is `(a - 1) / 2 ^ k` below the
    bound. -/
theorem loopSum_const {M : ℕ} {x : ℕ → ℤ} {a : ℤ} (hM : 0 < M) (ha : 0 < a) (heven : a % 2 = 0)
    {k : ℕ} (hx : ∀ m ≤ k * M, x m = a) :
    loopSum M x (k * M) = 2 * a - 1 - (a - 1) / 2 ^ k := by
  induction k with
  | zero =>
    have hhalf := tdiv_two_cases a
    have hneg := tdiv_two_cases (0 - a)
    rw [loopSum_eq hM, output, delayedSum, if_neg (by omega), hx _ le_rfl, pow_zero, Int.ediv_one]
    omega
  | succ k ih =>
    have hstep : (k + 1) * M = k * M + M := Nat.succ_mul k M
    have hword : delayedSum M x ((k + 1) * M) = 2 * a - 1 - (a - 1) / 2 ^ k := by
      rw [delayedSum, if_pos (by omega), hstep, Nat.add_sub_cancel]
      exact ih fun m hm => hx m (by omega)
    have hhalf := tdiv_two_cases a
    have hsum := tdiv_two_cases (2 * a - 1 - (a - 1) / 2 ^ k - a)
    have hpos : 0 ≤ (a - 1) / 2 ^ k := Int.ediv_nonneg (by omega) (by positivity)
    have hle : (a - 1) / 2 ^ k ≤ a - 1 := Int.ediv_le_self _ (by omega)
    rw [loopSum_eq hM, output, hword, hx _ le_rfl, pow_succ,
      ← Int.ediv_ediv_of_nonneg (by positivity)]
    omega

/-- Inverted once the loop has settled, the input takes the output to three times its amplitude. -/
theorem output_peak {M : ℕ} {x : ℕ → ℤ} (hM : 0 < M) (hx : ∀ m < 23 * M, x m = 3328814)
    (hlast : x (23 * M) = -3328814) : output M x (23 * M) = 9986441 := by
  have hsettled := loopSum_const (k := 22) hM (by norm_num) (by norm_num)
    fun m hm => hx m (by omega)
  rw [output, hlast, delayedSum, if_pos (by omega), show 23 * M - M = 22 * M by omega, hsettled]
  norm_num

/-- The input that does so. -/
def peak (N : ℕ) : ℕ → In := flipped (N + 2) ((N + 2) * (23 * (N - 1))) 3328814#24

/-- The peak input stays within the amplitude of the theorem. -/
theorem abs_peak_le (N t : ℕ) : |(peak N t).dataIn.toInt| ≤ 3328814 := by
  rcases Nat.lt_or_ge t ((N + 2) * (23 * (N - 1))) with hlt | hge
  · rw [peak, flipped_of_lt _ hlt]
    decide
  · rw [peak, flipped_of_le _ hge]
    decide

/-- When the input turns, the loop is so full that the difference has more than 24 bits. -/
theorem not_narrowsExactly_peak {N : ℕ} (hN : 5 ≤ N) :
    let s := run (edge N) empty (peak N)
    let t := 0 + (N + 2) * (23 * (N - 1)) + N + 1
    ¬ (s t).NarrowsExactly (peak N t).dataIn := by
  intro s t
  have h : FromZero N s (peak N) fun n => 0 + (N + 2) * n := fromZero_flipped N _ _
  have hbefore : ∀ m < 23 * (N - 1), sample N (peak N) (fun n => 0 + (N + 2) * n) m = 3328814 := by
    intro m hm
    have hle := Nat.mul_le_mul_left (N + 2) (Nat.succ_le_of_lt hm)
    have hlt : 0 + (N + 2) * m + N + 1 < (N + 2) * (23 * (N - 1)) := by
      rw [Nat.mul_succ] at hle
      omega
    rw [sample, peak, flipped_of_lt _ hlt]
    decide
  have hafter : sample N (peak N) (fun n => 0 + (N + 2) * n) (23 * (N - 1)) = -3328814 := by
    rw [sample, peak, flipped_of_le _ (by omega)]
    decide
  rw [narrowsExactly_iff, h.outputAdder2_push hN, output_peak (by omega) hbefore hafter]
  norm_num

end APF

/-! ### The filters of the late reverb -/

namespace LateReverb

/-- **When narrowing loses nothing.**  From empty memories, at the ticks and at the edges at which
    their passes push.  For each comb, each damping and each decay from 0.25 to 0.95: under every
    input exactly when the damping is `2 ^ 25 - 1`, or `2 ^ 25 - 4` with a decay of at most
    `2 ^ 23`.  For each all-pass: under every input of amplitude `A` exactly when `A ≤ 3328813`,
    which the full scale of 24 bits is not. -/
theorem narrowing_exact_iff (j : Fin 8) (k : Fin 4) {d g : BitVec 25}
    (hg : (2 ^ 25 - 1) / 4 ≤ g.toNat ∧ g.toNat ≤ 95 * (2 ^ 25 - 1) / 100) (A : ℤ) :
    ((∀ s inp T, LFCF.FromZero (nLFCF j) d g s inp T → ∀ n,
      (s (T n)).NarrowsExactly ∧ (s (T n + nLFCF j / 2 + 1)).NarrowsExactly) ↔
      d.toNat = 2 ^ 25 - 1 ∨ d.toNat = 2 ^ 25 - 4 ∧ g.toNat ≤ 2 ^ 23) ∧
    ((∀ s inp T, APF.FromZero (nAPF k) s inp T → (∀ t, |(inp t).dataIn.toInt| ≤ A) → ∀ n,
      (s (T n)).NarrowsExactly (inp (T n)).dataIn ∧
        (s (T n + nAPF k + 1)).NarrowsExactly (inp (T n + nAPF k + 1)).dataIn) ↔
      A ≤ 3328813) := by
  constructor
  · have hN : 5 ≤ nLFCF j / 2 := by revert j; decide
    constructor
    -- the run under the lowest input is one of those that narrow exactly
    · intro hall
      have h := LFCF.fromZero_lowest (nLFCF j) d g
      exact h.damping_of_narrow hN hg.1 (fun _ => rfl) fun n => (hall _ _ _ h n).2
    · intro hd s inp T h n
      obtain ⟨P, hP⟩ := LFCF.settles hd
      exact ⟨h.narrowsExactly hP _, h.narrowsExactly hP _⟩
  · have hN : 5 ≤ nAPF k := by revert k; decide
    constructor
    -- the run that inverts the amplitude 3328814 is not
    · intro hall
      by_contra hA
      have hx : ∀ t, |(APF.peak (nAPF k) t).dataIn.toInt| ≤ A := by
        intro t
        have := APF.abs_peak_le (nAPF k) t
        omega
      exact APF.not_narrowsExactly_peak hN
        (hall _ _ _ (APF.fromZero_flipped _ _ _) hx (23 * (nAPF k - 1))).2
    · intro hA s inp T h hx n
      have hle : ∀ t, |(inp t).dataIn.toInt| ≤ 3328813 := fun t => le_trans (hx t) hA
      exact ⟨h.narrowsExactly hle _, h.narrowsExactly hle _⟩

/-- With the highest damping the first comb narrows the lowest input exactly. -/
theorem narrowing_exact_iff_muted :
    (run (LFCF.edge (nLFCF 0)) LFCF.empty (LFCF.lowest (nLFCF 0 / 2 + 2) 0x1FFFFFF 0x1E66665)
      (0 + (nLFCF 0 / 2 + 2) * 2000)).NarrowsExactly :=
  ((narrowing_exact_iff 0 0 (d := 0x1FFFFFF) (g := 0x1E66665) ⟨by decide, by decide⟩ 0).1.mpr
    (Or.inl (by decide)) _ _ _ (LFCF.fromZero_lowest _ _ _) 2000).1

/-- Without damping and with the highest decay, the lowest input makes the first comb lose bits; an
    input of amplitude 3328814 that is held for 23 passes and then inverted makes the first
    all-pass lose bits. -/
theorem narrowing_loses_bits :
    (let inp := LFCF.lowest (nLFCF 0 / 2 + 2) 0 0x1E66665
      let s := run (LFCF.edge (nLFCF 0)) LFCF.empty inp
      let T := fun n => 0 + (nLFCF 0 / 2 + 2) * n
      LFCF.FromZero (nLFCF 0) 0 0x1E66665 s inp T ∧
        (2 ^ 25 - 1) / 4 ≤ (0x1E66665#25).toNat ∧
        (0x1E66665#25).toNat ≤ 95 * (2 ^ 25 - 1) / 100 ∧
        ¬ ∀ n, (s (T n)).NarrowsExactly ∧ (s (T n + nLFCF 0 / 2 + 1)).NarrowsExactly) ∧
    (let inp := APF.peak (nAPF 0)
      let s := run (APF.edge (nAPF 0)) APF.empty inp
      let T := fun n => 0 + (nAPF 0 + 2) * n
      let n := 23 * (nAPF 0 - 1)
      APF.FromZero (nAPF 0) s inp T ∧
        ¬ (s (T n + nAPF 0 + 1)).NarrowsExactly (inp (T n + nAPF 0 + 1)).dataIn) := by
  refine ⟨?_, ?_⟩
  · intro inp s T
    have h : LFCF.FromZero (nLFCF 0) 0 0x1E66665 s inp T := LFCF.fromZero_lowest _ _ _
    refine ⟨h, by decide, by decide, fun hall => ?_⟩
    have hdamping := h.damping_of_narrow (by decide) (by decide) (fun _ => rfl)
      fun n => (hall n).2
    exact absurd hdamping (by decide)
  · intro inp s T n
    exact ⟨APF.fromZero_flipped _ _ _, APF.not_narrowsExactly_peak (by decide)⟩

end LateReverb

end Reverb
