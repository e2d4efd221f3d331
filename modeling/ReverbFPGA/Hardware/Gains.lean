import ReverbFPGA.Hardware.Channel

namespace Reverb

/-!
# Gains and complementary pairs of gains

`coefMult` at every width, and the two places in which the design adds the outputs of two of
them with complementary coefficients, without a guard bit: the adder of `LPF` and the dry/wet
adder of a channel.

* `coefMult_exact` — the exact product, rounded down: the final `resize` drops nothing;
* `fits_pair`, `pair_between` — the sum of a complementary pair fits, and lies between the two
  inputs but for its roundings;
* `gain_pair_exact` — for every such pair, and for the adders of the design.
-/

open FixedPoint Signed

variable {w : ℕ}

/-! ### `coefMult` -/

/-- The product of `coefMult`, before the slice. -/
theorem multTempValue_toInt (x c : BitVec w) :
    (mul (resize (w + 1) x) (BitVec.cons false c)).toInt = x.toInt * c.toNat := by
  rw [toInt_mul, toInt_resize_of_le _ (by omega), toInt_cons_false]

/-- **`coefMult` is the exact product, rounded down**, at every width: the slice of the product
    has the value that the output has, so the resize drops no significant bit.  The gain is
    monotone, its output lies between 0 and its input, and with the coefficient 0 it is 0. -/
theorem coefMult_exact (hw : 0 < w) (c : BitVec w) :
    (∀ x, (coefMult x c).toInt = x.toInt * c.toNat / 2 ^ w ∧
      (slice w (w + 2) (mul (resize (w + 1) x) (BitVec.cons false c))).toInt =
        (coefMult x c).toInt) ∧
    (∀ x y, x.toInt ≤ y.toInt → (coefMult x c).toInt ≤ (coefMult y c).toInt) ∧
    (∀ x, min x.toInt 0 ≤ (coefMult x c).toInt ∧ (coefMult x c).toInt ≤ max x.toInt 0) ∧
    (c = 0 → ∀ x, coefMult x c = 0) := by
  have hK : (0 : ℤ) < 2 ^ w := by positivity
  have hc0 : (0 : ℤ) ≤ c.toNat := Int.natCast_nonneg _
  have hcK : (c.toNat : ℤ) ≤ 2 ^ w := by exact_mod_cast le_of_lt c.isLt
  refine ⟨fun x => ?_, fun x y hxy => ?_, fun x => ?_, fun hc x => ?_⟩
  · have hvalue : (coefMult x c).toInt = x.toInt * c.toNat / 2 ^ w := by
      rw [coefMult_toInt hw, scale, mul_comm]
    refine ⟨hvalue, ?_⟩
    rw [hvalue, toInt_slice _ (by omega) (by omega), multTempValue_toInt]
  · rw [coefMult_toInt hw, coefMult_toInt hw]
    exact scale_mono hK hc0 hxy
  · rw [coefMult_toInt hw]
    exact ⟨le_scale hK hc0 hcK (min_le_right _ _) (min_le_left _ _),
      scale_le hK hc0 hcK (le_max_right _ _) (le_max_left _ _)⟩
  · apply BitVec.eq_of_toInt_eq
    rw [coefMult_toInt hw, hc]
    simp [scale]

/-- The lowest sample of 24 bits with the highest coefficient. -/
theorem coefMult_exact_lowest :
    (coefMult 0x800000#24 0xFFFFFF#24).toInt =
      (0x800000#24).toInt * (0xFFFFFF#24).toNat / 2 ^ 24 :=
  ((coefMult_exact (by decide) 0xFFFFFF#24).1 0x800000#24).1

/-! ### Complementary pairs -/

/-- The outputs of a complementary pair of gains are the two terms of `LPF.sum`. -/
theorem pair_toInt (hw : 0 < w) (x y d : BitVec w) :
    (coefMult x (~~~d)).toInt + (coefMult y d).toInt = LPF.sum w d.toNat x.toInt y.toInt := by
  rw [coefMult_not_toInt hw, coefMult_toInt hw, LPF.sum]

/-- Their sum needs no guard bit. -/
theorem fits_pair (hw : 0 < w) (x y d : BitVec w) :
    Fits w ((coefMult x (~~~d)).toInt + (coefMult y d).toInt) := by
  have hd : (d.toNat : ℤ) < 2 ^ w := by exact_mod_cast d.isLt
  rw [pair_toInt hw]
  exact LPF.fits_sum hw (Int.natCast_nonneg _) hd (fits_toInt x) (fits_toInt y)

/-- Their sum lies between the two inputs, or at most two units below. -/
theorem pair_between (hw : 0 < w) (x y d : BitVec w) :
    min x.toInt y.toInt - 2 ≤ (coefMult x (~~~d)).toInt + (coefMult y d).toInt ∧
      (coefMult x (~~~d)).toInt + (coefMult y d).toInt ≤ max x.toInt y.toInt := by
  have hd0 : (0 : ℤ) ≤ d.toNat := Int.natCast_nonneg _
  have hdK : (d.toNat : ℤ) < 2 ^ w := by exact_mod_cast d.isLt
  obtain ⟨hxlo, hxhi⟩ := fits_toInt x
  have hlow : -2 ^ w < max x.toInt y.toInt := lt_of_lt_of_le (by omega) (le_max_left _ _)
  have hhigh : min x.toInt y.toInt ≤ 2 ^ w := le_trans (min_le_left _ _) (by omega)
  -- the two fractions add up to one unit less than one, and both terms are rounded down
  rw [pair_toInt hw]
  exact ⟨pair_ge hd0 hdK hhigh (min_le_left _ _) (min_le_right _ _),
    pair_le hd0 hdK hlow (le_max_left _ _) (le_max_right _ _)⟩

/-- The adder after a complementary pair is exact. -/
theorem toInt_add_pair (hw : 0 < w) (x y d : BitVec w) :
    (coefMult x (~~~d) + coefMult y d).toInt =
      (coefMult x (~~~d)).toInt + (coefMult y d).toInt :=
  toInt_add (fits_pair hw x y d)

/-- The halved sum of the early and the late reverb. -/
theorem Channel.halved_toInt (s : Channel) :
    (slice 1 24 s.sumEarlyLate).toInt =
      (s.earlyReverb.dataOutEarlyReverb.toInt + s.lateReverb.dataOut.toInt) / 2 := by
  obtain ⟨he1, he2⟩ := fits_toInt s.earlyReverb.dataOutEarlyReverb
  obtain ⟨hl1, hl2⟩ := fits_toInt s.lateReverb.dataOut
  have hfits : Fits 25 (s.earlyReverb.dataOutEarlyReverb.toInt + s.lateReverb.dataOut.toInt) :=
    ⟨by omega, by omega⟩
  have hearly := toInt_resize_of_le (n := 25) s.earlyReverb.dataOutEarlyReverb (by decide)
  have hlate := toInt_resize_of_le (n := 25) s.lateReverb.dataOut (by decide)
  have hsum : s.sumEarlyLate.toInt =
      s.earlyReverb.dataOutEarlyReverb.toInt + s.lateReverb.dataOut.toInt :=
    toInt_add_of hearly hlate hfits
  rw [toInt_slice _ (by decide) (by decide), hsum]
  rfl

/-- The dry/wet adder of a channel is exact. -/
theorem Channel.dataOut_toInt (s : Channel) (i : Channel.In) :
    (s.dataOut i).toInt = (Channel.dryGain i).toInt + (s.wetGain i).toInt :=
  toInt_add_pair (by decide) _ _ _

/-- **A complementary pair of gains never overflows, and interpolates**, at every width, for all
    inputs and every coefficient; so neither the adder of an `LPF` wraps, in any state and
    with any damping, nor the dry/wet adder of a channel, for any dry sample, any words of the
    early and the late reverb and any mix. -/
theorem gain_pair_exact (hw : 0 < w) :
    (∀ x y d : BitVec w,
      (coefMult x (~~~d)).toInt + (coefMult y d).toInt =
        (2 ^ w - 1 - d.toNat) * x.toInt / 2 ^ w + d.toNat * y.toInt / 2 ^ w ∧
      -2 ^ (w - 1) ≤ (coefMult x (~~~d)).toInt + (coefMult y d).toInt ∧
      (coefMult x (~~~d)).toInt + (coefMult y d).toInt ≤ 2 ^ (w - 1) - 1 ∧
      (coefMult x (~~~d) + coefMult y d).toInt =
        (coefMult x (~~~d)).toInt + (coefMult y d).toInt ∧
      min x.toInt y.toInt - 2 ≤ (coefMult x (~~~d)).toInt + (coefMult y d).toInt ∧
      (coefMult x (~~~d)).toInt + (coefMult y d).toInt ≤ max x.toInt y.toInt) ∧
    (∀ (s : LPF w) (i : LPF.In w), (s.outputAdder i).toInt =
      (LPF.firstInputAdder i).toInt + (s.secondInputAdder i).toInt) ∧
    ∀ (s : ReverbFPGA) (i : ReverbFPGA.In),
      (s.audioLOutData i).toInt = (Channel.dryGain (ReverbFPGA.channelLIn i)).toInt +
        (s.channelL.wetGain (ReverbFPGA.channelLIn i)).toInt ∧
      (i.stereoNMono = true → (s.audioROutData i).toInt =
        (Channel.dryGain (ReverbFPGA.channelRIn i)).toInt +
          (s.channelR.wetGain (ReverbFPGA.channelRIn i)).toInt) ∧
      (slice 1 24 s.channelL.sumEarlyLate).toInt =
        (s.channelL.earlyReverb.dataOutEarlyReverb.toInt +
          s.channelL.lateReverb.dataOut.toInt) / 2 ∧
      (slice 1 24 s.channelR.sumEarlyLate).toInt =
        (s.channelR.earlyReverb.dataOutEarlyReverb.toInt +
          s.channelR.lateReverb.dataOut.toInt) / 2 := by
  refine ⟨fun x y d => ?_, fun s i => toInt_add_pair hw _ _ _, fun s i => ?_⟩
  · obtain ⟨hlo, hhi⟩ := fits_pair hw x y d
    obtain ⟨hmin, hmax⟩ := pair_between hw x y d
    -- `-2 ^ (w - 1)` is the lowest word of `w` bits
    have hpow : (2 : ℤ) ^ w = 2 * 2 ^ (w - 1) := by
      rw [← pow_succ', show w - 1 + 1 = w by omega]
    refine ⟨pair_toInt hw x y d, by omega, by omega, toInt_add_pair hw x y d, hmin, hmax⟩
  · refine ⟨s.channelL.dataOut_toInt _, fun hstereo => ?_, s.channelL.halved_toInt,
      s.channelR.halved_toInt⟩
    rw [ReverbFPGA.audioROutData, if_pos hstereo]
    exact s.channelR.dataOut_toInt _

/-- At the lowest samples of 24 bits the sum is on the limit. -/
theorem gain_pair_exact_corner :
    -2 ^ (24 - 1) ≤ (coefMult 0x800000#24 (~~~0x123456#24)).toInt +
      (coefMult 0x800000#24 0x123456#24).toInt :=
  ((gain_pair_exact (w := 24) (by decide)).1 0x800000#24 0x800000#24 0x123456#24).2.1

end Reverb
