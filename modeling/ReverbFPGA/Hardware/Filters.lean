import ReverbFPGA.Lib.FixedPoint
import ReverbFPGA.Hardware.DelayLine

namespace Reverb

/-!
# The gain and the three filters

`coefMult.vhd`, `LPF.vhd`, `LFCF.vhd` and `APF.vhd`.  A filter is the structure of the registers
of the instances in it; each concurrent signal assignment is a function of the registers and
of the input ports, under the signal's name, and `edge` is a rising edge of `clk50M`.

The literals that `LFCF` and `APF` pass to their `reductionGain` have 25 and 26 bits, so that
the two entities only elaborate with the `dataSize` that the design gives them, 24.  With
`nbrExtraBits` guard bits their adders have `24 + 1` and `24 + 2` bits.
-/

open Clocked FixedPoint Signed

variable {w : ℕ}

/-! ### `coefMult.vhd` -/

/-- The product at `2 * dataSize + 2` bits, its bits from `dataSize` up, and those resized. -/
def coefMult (dataIn coef : BitVec w) : BitVec w :=
  -- the coefficient is unsigned, a sign bit 0 makes it `signed`
  let multTempValue := mul (resize (w + 1) dataIn) (BitVec.cons false coef)
  resize w (slice w (w + 2) multTempValue)

/-- The gain of a `w`-bit coefficient `c` is `c / 2 ^ w`, rounded down. -/
theorem coefMult_toInt (hw : 0 < w) (x c : BitVec w) :
    (coefMult x c).toInt = scale (2 ^ w) c.toNat x.toInt := by
  have hprod : (slice w (w + 2) (mul (resize (w + 1) x) (BitVec.cons false c))).toInt
      = scale (2 ^ w) c.toNat x.toInt := by
    rw [toInt_slice _ (by omega) (by omega), toInt_mul, toInt_resize_of_le _ (by omega),
      toInt_cons_false, scale, mul_comm]
  have hc : (c.toNat : ℤ) ≤ 2 ^ w := by exact_mod_cast le_of_lt c.isLt
  have hfits : Fits w (scale (2 ^ w) c.toNat x.toInt) :=
    fits_scale hw (Int.natCast_nonneg _) hc (fits_toInt x)
  rw [coefMult, toInt_resize _ (by rw [hprod]; exact hfits), hprod]

/-- The gain of the complement of `c` is `(2 ^ w - 1 - c) / 2 ^ w`, rounded down. -/
theorem coefMult_not_toInt (hw : 0 < w) (x c : BitVec w) :
    (coefMult x (~~~c)).toInt = scale (2 ^ w) (2 ^ w - 1 - c.toNat) x.toInt := by
  have hnot : ((~~~c).toNat : ℤ) = 2 ^ w - 1 - c.toNat := by
    rw [BitVec.toNat_not]
    have := c.isLt
    have hcast : ((2 ^ w : ℕ) : ℤ) = 2 ^ w := by push_cast; rfl
    omega
  rw [coefMult_toInt hw, hnot]

/-! ### `LPF.vhd` -/

/-- The register of an `LPF`. -/
structure LPF (w : ℕ) where
  prevOutputAdder : BitVec w

/-- The input ports of an `LPF`. -/
structure LPF.In (w : ℕ) where
  rst : Bool
  dataSampledValid : Bool
  dataIn : BitVec w
  dampingValue : BitVec w

namespace LPF

/-- `gain1`, the gain `1 - d`. -/
def firstInputAdder (i : In w) : BitVec w := coefMult i.dataIn (~~~i.dampingValue)

/-- `gain2`, the gain `d` of the loop. -/
def secondInputAdder (s : LPF w) (i : In w) : BitVec w :=
  coefMult s.prevOutputAdder i.dampingValue

/-- The sum, which is also `dataOUT`. -/
def outputAdder (s : LPF w) (i : In w) : BitVec w := firstInputAdder i + s.secondInputAdder i

/-- The process of the register. -/
def edge (s : LPF w) (i : In w) : LPF w :=
  if i.rst = false then ⟨0⟩
  else if i.dataSampledValid then ⟨s.outputAdder i⟩
  else s

/-- The two gains of the filter, over the integers. -/
def sum (w : ℕ) (d x y : ℤ) : ℤ := scale (2 ^ w) (2 ^ w - 1 - d) x + scale (2 ^ w) d y

/-- The gains are a complementary pair, so their sum is a `w`-bit value. -/
theorem fits_sum (hw : 0 < w) {d x y : ℤ} (hd : 0 ≤ d) (hdK : d < 2 ^ w) (hx : Fits w x)
    (hy : Fits w y) : Fits w (sum w d x y) := by
  obtain ⟨w, rfl⟩ : ∃ k, w = k + 1 := ⟨w - 1, by omega⟩
  have hpow : (2 : ℤ) ^ (w + 1) = 2 * 2 ^ w := by ring
  have hpos : (0 : ℤ) < 2 ^ w := by positivity
  obtain ⟨hx1, hx2⟩ := hx
  obtain ⟨hy1, hy2⟩ := hy
  -- two roundings down could reach `-2 ^ w - 1`, but not with these two fractions
  have hlo : -2 ^ w ≤ sum (w + 1) d x y := pair_ge_half hpow hd hdK (by omega) (by omega)
  have hhi : sum (w + 1) d x y ≤ 2 ^ w - 1 :=
    pair_le hd hdK (by omega) (by omega) (by omega)
  exact ⟨by omega, by omega⟩

/-- **The adder of the filter is exact**, whatever its input, its register and the damping. -/
theorem outputAdder_toInt (hw : 0 < w) (s : LPF w) (i : In w) :
    (s.outputAdder i).toInt =
      sum w i.dampingValue.toNat i.dataIn.toInt s.prevOutputAdder.toInt := by
  have hd : (i.dampingValue.toNat : ℤ) < 2 ^ w := by exact_mod_cast i.dampingValue.isLt
  have hfirst : (firstInputAdder i).toInt =
      scale (2 ^ w) (2 ^ w - 1 - i.dampingValue.toNat) i.dataIn.toInt := coefMult_not_toInt hw _ _
  have hsecond : (s.secondInputAdder i).toInt =
      scale (2 ^ w) i.dampingValue.toNat s.prevOutputAdder.toInt := by
    rw [secondInputAdder, coefMult_toInt hw]
  have hfits := fits_sum hw (Int.natCast_nonneg _) hd (fits_toInt i.dataIn)
    (fits_toInt s.prevOutputAdder)
  exact toInt_add_of hfirst hsecond hfits

/-- At a tick the register takes the sum. -/
theorem edge_tick {s : LPF w} {i : In w} (hr : i.rst = true) (hv : i.dataSampledValid = true) :
    s.edge i = ⟨s.outputAdder i⟩ := by
  simp [edge, hr, hv]

/-- Between ticks it keeps its word. -/
theorem edge_rest {s : LPF w} {i : In w} (hr : i.rst = true) (hv : i.dataSampledValid = false) :
    s.edge i = s := by
  simp [edge, hr, hv]

/-- A reset clears it. -/
theorem edge_reset {s : LPF w} {i : In w} (hr : i.rst = false) : s.edge i = ⟨0⟩ := by
  simp [edge, hr]

/-- What the register holds is 0, its last value or what the adder puts out. -/
theorem edge_register {P : BitVec w → Prop} {s : LPF w} {i : In w} (h0 : i.rst = false → P 0)
    (hout : P (s.outputAdder i)) (h : P s.prevOutputAdder) : P (s.edge i).prevOutputAdder := by
  unfold edge
  split_ifs with hr hv
  · exact h0 hr
  · exact hout
  · exact h

/-- Up to the first tick the register keeps its value. -/
theorem run_before {s : ℕ → LPF w} {inp : ℕ → In w} {T : ℕ → ℕ} {gap : ℕ}
    (h : IsRun edge s inp) (hrst : ∀ t, (inp t).rst = true)
    (hp : Pulses (fun t => (inp t).dataSampledValid) T gap) {t : ℕ} (ht : t ≤ T 0) :
    s t = s 0 := by
  induction t with
  | zero => rfl
  | succ t ih => rw [h t, edge_rest (hrst t) (hp.quiet_before ht), ih (by omega)]

/-- **Tick by tick.** The register is loaded at the edge of tick `n`, before any delay line
    moves, and keeps that value up to the next tick. -/
theorem run_after {s : ℕ → LPF w} {inp : ℕ → In w} {T : ℕ → ℕ} {gap : ℕ}
    (h : IsRun edge s inp) (hrst : ∀ t, (inp t).rst = true)
    (hp : Pulses (fun t => (inp t).dataSampledValid) T gap) {n t : ℕ} (h1 : T n + 1 ≤ t)
    (h2 : t ≤ T (n + 1)) : s t = ⟨(s (T n)).outputAdder (inp (T n))⟩ := by
  induction t, h1 using Nat.le_induction with
  | base => rw [h (T n), edge_tick (hrst _) (hp.tick_at n)]
  | succ t h1 ih =>
    rw [h t, edge_rest (hrst t) (hp.quiet (n := n) (by omega) (by omega)), ih (by omega)]

end LPF

/-! ### `LFCF.vhd` -/

/-- The registers of an `LFCF`: those of its low-pass filter and of its two delay lines. -/
structure LFCF where
  lpFilter : LPF 25
  delayLineOperator1 : DelayLine 25
  delayLineOperator2 : DelayLine 25

/-- The input ports of an `LFCF`. -/
structure LFCF.In where
  rst : Bool
  dataSampledValid : Bool
  dataIn : BitVec 24
  dampingValue : BitVec 25
  decayValue : BitVec 25

namespace LFCF

/-- The output of the first delay line, which feeds the second one. -/
def firstDelayedOutputAdder (s : LFCF) : BitVec 25 := s.delayLineOperator1.dataOut

/-- The output of the second delay line, which feeds the filter. -/
def secondDelayedOutputAdder (s : LFCF) : BitVec 25 := s.delayLineOperator2.dataOut

/-- The ports of `LPFilter`. -/
def lpFilterIn (s : LFCF) (i : In) : LPF.In 25 where
  rst := i.rst
  dataSampledValid := i.dataSampledValid
  dataIn := s.secondDelayedOutputAdder
  dampingValue := i.dampingValue

/-- The output of the filter in the loop. -/
def outLPFilter (s : LFCF) (i : In) : BitVec 25 := s.lpFilter.outputAdder (s.lpFilterIn i)

/-- The input, sign-extended by a bit. -/
def firstInputAdder (i : In) : BitVec 25 := resize 25 i.dataIn

/-- `gain`, the decay of the loop. -/
def secondInputAdder (s : LFCF) (i : In) : BitVec 25 := coefMult (s.outLPFilter i) i.decayValue

/-- The sum that the loop pushes. -/
def outputAdder (s : LFCF) (i : In) : BitVec 25 := firstInputAdder i + s.secondInputAdder i

/-- `reductionGain`, 0.8. -/
def llpfOutput (s : LFCF) : BitVec 25 :=
  coefMult s.secondDelayedOutputAdder 0b1100110011001100110011001

/-- The output narrowed to 24 bits. -/
def dataOut (s : LFCF) : BitVec 24 := resize 24 s.llpfOutput

/-- The ports of `delayLineOperator1`. -/
def delayLine1In (N : ℕ) (s : LFCF) (i : In) : DelayLine.In 25 where
  rst := i.rst
  dataSampledValid := i.dataSampledValid
  dataIn := s.outputAdder i
  currentN := N / 2

/-- The ports of `delayLineOperator2`. -/
def delayLine2In (N : ℕ) (s : LFCF) (i : In) : DelayLine.In 25 where
  rst := i.rst
  dataSampledValid := i.dataSampledValid
  dataIn := s.firstDelayedOutputAdder
  currentN := N / 2

/-- A rising edge of the filter and of both delay lines. -/
def edge (N : ℕ) (s : LFCF) (i : In) : LFCF where
  lpFilter := s.lpFilter.edge (s.lpFilterIn i)
  delayLineOperator1 := s.delayLineOperator1.edge (s.delayLine1In N i)
  delayLineOperator2 := s.delayLineOperator2.edge (s.delayLine2In N i)

/-- The filter of a comb runs on its own ports. -/
theorem isRun_lpFilter {N : ℕ} {s : ℕ → LFCF} {inp : ℕ → In} (h : IsRun (edge N) s inp) :
    IsRun LPF.edge (fun t => (s t).lpFilter) (fun t => (s t).lpFilterIn (inp t)) :=
  h.component lpFilter lpFilterIn fun _ _ => rfl

/-- The sum that `outputAdder` has 25 bits for, over the integers. -/
def exactSum (s : LFCF) (i : In) : ℤ :=
  i.dataIn.toInt + scale (2 ^ 25) i.decayValue.toNat (s.outLPFilter i).toInt

/-- **The low-pass filter in the loop is exact.** -/
theorem outLPFilter_toInt (s : LFCF) (i : In) :
    (s.outLPFilter i).toInt = LPF.sum 25 i.dampingValue.toNat
      s.secondDelayedOutputAdder.toInt s.lpFilter.prevOutputAdder.toInt :=
  LPF.outputAdder_toInt (by decide) _ _

/-- The adder of the loop is the exact sum, wrapped to 25 bits. -/
theorem outputAdder_bmod (s : LFCF) (i : In) :
    (s.outputAdder i).toInt = (s.exactSum i).bmod (2 ^ 25) := by
  have hfirst : (firstInputAdder i).toInt = i.dataIn.toInt := toInt_resize_of_le _ (by decide)
  have hsecond : (s.secondInputAdder i).toInt =
      scale (2 ^ 25) i.decayValue.toNat (s.outLPFilter i).toInt := coefMult_toInt (by decide) _ _
  rw [outputAdder, BitVec.toInt_add, hfirst, hsecond, exactSum]

/-- It is the exact sum where that has 25 bits. -/
theorem outputAdder_toInt {s : LFCF} {i : In} (h : Fits 25 (s.exactSum i)) :
    (s.outputAdder i).toInt = s.exactSum i := by
  rw [outputAdder_bmod, bmod_of_fits h]

end LFCF

/-! ### `APF.vhd` -/

/-- The registers of an `APF`: those of its delay line. -/
structure APF where
  delayLineOperator : DelayLine 26

/-- The input ports of an `APF`. -/
structure APF.In where
  rst : Bool
  dataSampledValid : Bool
  dataIn : BitVec 24

namespace APF

/-- The input times `1 + g = 1.5`; `/` on `signed` truncates toward zero, as `sdiv`. -/
def firstInputAdder1 (dataIn : BitVec 24) : BitVec 26 :=
  resize 26 dataIn + (resize 26 dataIn).sdiv 2

/-- The delayed sum. -/
def firstInputAdder2 (s : APF) : BitVec 26 := s.delayLineOperator.dataOut

/-- The delayed sum less the input. -/
def outputAdder2 (s : APF) (dataIn : BitVec 24) : BitVec 26 :=
  s.firstInputAdder2 - resize 26 dataIn

/-- The gain `g = 0.5` of the loop. -/
def secondInputAdder1 (s : APF) (dataIn : BitVec 24) : BitVec 26 :=
  (s.outputAdder2 dataIn).sdiv 2

/-- The sum that the loop pushes. -/
def outputAdder1 (s : APF) (dataIn : BitVec 24) : BitVec 26 :=
  firstInputAdder1 dataIn + s.secondInputAdder1 dataIn

/-- `reductionGain`, 0.84. -/
def apfOutput (s : APF) (dataIn : BitVec 24) : BitVec 26 :=
  coefMult (s.outputAdder2 dataIn) 0b11010111000010100011110101

/-- The output narrowed to 24 bits. -/
def dataOut (s : APF) (dataIn : BitVec 24) : BitVec 24 := resize 24 (s.apfOutput dataIn)

/-- The ports of `delayLineOperator`. -/
def delayLineIn (N : ℕ) (s : APF) (i : In) : DelayLine.In 26 where
  rst := i.rst
  dataSampledValid := i.dataSampledValid
  dataIn := s.outputAdder1 i.dataIn
  currentN := N

/-- A rising edge of the delay line. -/
def edge (N : ℕ) (s : APF) (i : In) : APF where
  delayLineOperator := s.delayLineOperator.edge (s.delayLineIn N i)

end APF

end Reverb
