import ReverbFPGA.Hardware.DelayLineRun
import ReverbFPGA.Hardware.EarlyLate

namespace Reverb

/-!
# The tail of a comb

With silence at its input a comb only feeds back what it holds.  Each `coefMult` rounds toward
minus infinity, and the recursion of the low-pass filter adds up these losses: with the damping
`d` it drifts by up to `k = ⌈2 ^ 25 / (2 ^ 25 - d)⌉` units below the words in the lines
(`LPF.roundingUnits`).  A decay of 0.95 makes up for `k` units once the words are `19 * k` units
large.

`LFCF.Tail` is the invariant, over every edge and any ticks, and `zero_input_tail` what it says
of a run.
-/

open Clocked FixedPoint Signed DelayLine

/-! ### The drift of the filter -/

/-- `⌈2 ^ 25 / (2 ^ 25 - d)⌉`: the rounding units that the recursion of the filter can add up at
    the damping `d`. -/
def LPF.roundingUnits (d : BitVec 25) : ℤ := (2 ^ 25 + (2 ^ 25 - d.toNat) - 1) / (2 ^ 25 - d.toNat)

/-- What the rounding up of the quotient says of the product. -/
theorem LPF.le_roundingUnits (d : BitVec 25) :
    2 ^ 25 ≤ LPF.roundingUnits d * (2 ^ 25 - d.toNat) := by
  have hd : (d.toNat : ℤ) < 2 ^ 25 := by exact_mod_cast d.isLt
  have hpos : (0 : ℤ) < 2 ^ 25 - d.toNat := by omega
  have hlt := Int.lt_ediv_add_one_mul_self (2 ^ 25 + (2 ^ 25 - d.toNat) - 1) hpos
  unfold LPF.roundingUnits
  linarith

theorem LPF.roundingUnits_pos (d : BitVec 25) : 0 < LPF.roundingUnits d := by
  have hd : (d.toNat : ℤ) < 2 ^ 25 := by exact_mod_cast d.isLt
  have h := LPF.le_roundingUnits d
  by_contra hle
  nlinarith

namespace LFCF

/-- The value of a word is in `-B .. A`. -/
def Between (B A : ℤ) (v : BitVec 25) : Prop := -B ≤ v.toInt ∧ v.toInt ≤ A

/-- **The invariant of the tail**: the words of both lines are in `-B .. A`, and the register of
    the filter is at most `k` units below. -/
structure Tail (A B k : ℤ) (s : LFCF) : Prop where
  line1 : Holds (Between B A) s.delayLineOperator1
  line2 : Holds (Between B A) s.delayLineOperator2
  lpFilter : Between (B + k) A s.lpFilter.prevOutputAdder

namespace Tail

variable {A B k : ℤ} {s : LFCF} {i : In}

/-- The filter puts out a value as far down as its register may be. -/
theorem outLPFilter (h : Tail A B k s) (hA : 0 ≤ A) (hB : 0 ≤ B)
    (hk : 2 ^ 25 ≤ k * (2 ^ 25 - i.dampingValue.toNat)) :
    Between (B + k) A (s.outLPFilter i) := by
  have hd : (i.dampingValue.toNat : ℤ) < 2 ^ 25 := by exact_mod_cast i.dampingValue.isLt
  have h0 : (0 : ℤ) ≤ i.dampingValue.toNat := Int.natCast_nonneg _
  unfold Between
  rw [outLPFilter_toInt]
  exact ⟨pair_ge_biased h0 hd hB hk h.line2.dataOut.1 h.lpFilter.1,
    pair_le h0 hd (by linarith) h.line2.dataOut.2 h.lpFilter.2⟩

/-- The decay brings what the filter puts out back to where the words are. -/
theorem outputAdder (h : Tail A B k s) (hA : 0 ≤ A) (hB : 0 ≤ B) (hx : i.dataIn = 0)
    (hg : i.decayValue.toNat ≤ 95 * (2 ^ 25 - 1) / 100)
    (hk : 2 ^ 25 ≤ k * (2 ^ 25 - i.dampingValue.toNat)) (hkB : 19 * k ≤ B) :
    Between B A (s.outputAdder i) := by
  obtain ⟨hlo, hhi⟩ := h.outLPFilter hA hB hk
  have hgK : (i.decayValue.toNat : ℤ) ≤ 31876709 := by
    have : i.decayValue.toNat ≤ 31876709 := hg
    exact_mod_cast this
  have h0 : (0 : ℤ) ≤ i.decayValue.toNat := Int.natCast_nonneg _
  have hexact : s.exactSum i = scale (2 ^ 25) i.decayValue.toNat (s.outLPFilter i).toInt := by
    unfold exactSum
    rw [hx]
    simp
  have hfits : Fits 25 (s.exactSum i) := by
    rw [hexact]
    exact fits_scale (by decide) h0 (by omega) (fits_toInt _)
  unfold Between
  rw [outputAdder_toInt hfits, hexact]
  constructor
  -- `0.95 * (B + k) ≤ B`, as `19 * k ≤ B`
  · apply le_scale_of (by norm_num)
    have hdown := mul_le_mul_of_nonneg_left hlo h0
    have hup : (i.decayValue.toNat : ℤ) * (B + k) ≤ 31876709 * (B + k) :=
      mul_le_mul_of_nonneg_right hgK (by nlinarith [i.dampingValue.isLt])
    linarith
  · exact scale_le (by norm_num) h0 (by omega) hA hhi

/-- Every edge keeps the tail where it is, at any pace of the ticks. -/
theorem edge (h : Tail A B k s) (N : ℕ) (hA : 0 ≤ A) (hB : 0 ≤ B) (hk0 : 0 ≤ k)
    (hx : i.dataIn = 0) (hg : i.decayValue.toNat ≤ 95 * (2 ^ 25 - 1) / 100)
    (hk : 2 ^ 25 ≤ k * (2 ^ 25 - i.dampingValue.toNat)) (hkB : 19 * k ≤ B) :
    Tail A B k (LFCF.edge N s i) := by
  have hzero : Between (B + k) A 0 := ⟨by simp; omega, by simpa using hA⟩
  exact ⟨h.line1.edge fun _ => h.outputAdder hA hB hx hg hk hkB,
    h.line2.edge fun _ => h.line1.dataOut,
    LPF.edge_register (fun _ => hzero) (h.outLPFilter hA hB hk) h.lpFilter⟩

end Tail

/-- **The tail grows by its rounding units at most.** With silence at the input, all words and
    the filter's register of magnitude at most `A`, and a decay of at most 0.95, the delayed
    value and the fed-back sum stay in `-max A (19 * k) .. A` and the filter's output at most
    `k` below, whatever the ticks. -/
theorem zero_input_tail {s : ℕ → LFCF} {inp : ℕ → In} {d g : BitVec 25} {A : ℤ} (j : Fin 8)
    (hrun : IsRun (edge (nLFCF j)) s inp) (hx : ∀ t, (inp t).dataIn = 0)
    (hdamping : ∀ t, (inp t).dampingValue = d) (hdecay : ∀ t, (inp t).decayValue = g)
    (hg : g.toNat ≤ 95 * (2 ^ 25 - 1) / 100) (hA : 0 ≤ A)
    (h1 : Holds (fun v => |v.toInt| ≤ A) (s 0).delayLineOperator1)
    (h2 : Holds (fun v => |v.toInt| ≤ A) (s 0).delayLineOperator2)
    (hlp : |(s 0).lpFilter.prevOutputAdder.toInt| ≤ A) (t : ℕ) :
    Between (max A (19 * LPF.roundingUnits d)) A (s t).secondDelayedOutputAdder ∧
    Between (max A (19 * LPF.roundingUnits d) + LPF.roundingUnits d) A
      ((s t).outLPFilter (inp t)) ∧
    Between (max A (19 * LPF.roundingUnits d)) A ((s t).outputAdder (inp t)) := by
  have hk0 := LPF.roundingUnits_pos d
  have hk := LPF.le_roundingUnits d
  -- what the proof needs of `k` and of the bound `B`
  generalize LPF.roundingUnits d = k at hk hk0
  have hAB : A ≤ max A (19 * k) := le_max_left _ _
  have hkB : 19 * k ≤ max A (19 * k) := le_max_right _ _
  generalize max A (19 * k) = B at hAB hkB
  have habs : ∀ v : BitVec 25, |v.toInt| ≤ A → Between B A v := fun v hv =>
    ⟨by have := (abs_le.mp hv).1; omega, (abs_le.mp hv).2⟩
  have hstart : Tail A B k (s 0) := by
    have hreg := habs _ hlp
    exact ⟨h1.mono habs, h2.mono habs, by have := hreg.1; omega, hreg.2⟩
  have h : Tail A B k (s t) := by
    refine hrun.invariant (Q := fun i => i.dataIn = 0 ∧ i.dampingValue = d ∧ i.decayValue = g)
      hstart (fun t => ⟨hx t, hdamping t, hdecay t⟩) ?_ t
    rintro s i ⟨hxi, hdi, hgi⟩ hs
    exact hs.edge _ hA (by omega) (le_of_lt hk0) hxi (by rw [hgi]; exact hg)
      (by rw [hdi]; exact hk) hkB
  have hkt : 2 ^ 25 ≤ k * (2 ^ 25 - (inp t).dampingValue.toNat) := by rw [hdamping]; exact hk
  exact ⟨h.line2.dataOut, h.outLPFilter hA (by omega) hkt,
    h.outputAdder hA (by omega) (hx t) (by rw [hdecay]; exact hg) hkt hkB⟩

/-! ### A tail that grows -/

/-- A comb with the value `-1` in every register that holds a word, and in every cell. -/
def flat : LFCF where
  lpFilter := ⟨-1⟩
  delayLineOperator1 := { powerUp 25 with dataOut := -1, ram := ⟨fun _ => -1, -1⟩ }
  delayLineOperator2 := { powerUp 25 with dataOut := -1, ram := ⟨fun _ => -1, -1⟩ }

/-- Silence, a tick every 930 edges, and the parameters `d` and `g`. -/
def silence (d g : BitVec 25) (t : ℕ) : In where
  rst := true
  dataSampledValid := every 0 930 t
  dataIn := 0
  dampingValue := d
  decayValue := g

/-- The flat comb holds one word only. -/
theorem holds_flat {P : BitVec 25 → Prop} (h : P (-1)) :
    Holds P flat.delayLineOperator1 ∧ Holds P flat.delayLineOperator2 :=
  ⟨⟨fun _ => h, fun hwe => absurd hwe (by decide), fun _ => h, h⟩,
    ⟨fun _ => h, fun hwe => absurd hwe (by decide), fun _ => h, h⟩⟩

/-- With half damping and the highest decay, after 2000 edges the delayed value of the longest
    comb is where it was. -/
theorem zero_input_tail_flat :
    Between (max 1 (19 * LPF.roundingUnits 0x1000000)) 1
      (run (edge (nLFCF 1)) flat (silence 0x1000000 0x1E66665) 2000).secondDelayedOutputAdder := by
  obtain ⟨h1, h2⟩ := holds_flat (P := fun v => |v.toInt| ≤ 1) (by decide)
  have hrun : IsRun (edge (nLFCF 1)) _ _ := isRun_run flat (silence 0x1000000 0x1E66665)
  exact (zero_input_tail 1 hrun (fun _ => rfl) (fun _ => rfl) (fun _ => rfl) (by decide)
    (by decide) h1 h2 (by decide) 2000).1

/-- At the damping `2 ^ 25 - 2` and the decay 1 of `2 ^ 25`, a comb full of `-1` stays full of
    `-1`, and its filter stays below zero. -/
theorem flat_run (t : ℕ) :
    let s := run (edge (nLFCF 0)) flat (silence 0x1FFFFFE 1)
    Holds (· = -1) (s t).delayLineOperator1 ∧ Holds (· = -1) (s t).delayLineOperator2 ∧
      (s t).lpFilter.prevOutputAdder.toInt < 0 := by
  intro s
  induction t with
  | zero =>
    obtain ⟨h1, h2⟩ := holds_flat (P := (· = -1)) rfl
    exact ⟨h1, h2, by decide⟩
  | succ t ih =>
    obtain ⟨h1, h2, hlp⟩ := ih
    have hout : ((s t).outLPFilter (silence 0x1FFFFFE 1 t)).toInt < 0 := by
      rw [outLPFilter_toInt, secondDelayedOutputAdder, h2.dataOut]
      have hreg : scale (2 ^ 25) 0x1FFFFFE (s t).lpFilter.prevOutputAdder.toInt ≤ -1 :=
        scale_le_of (by norm_num) (by omega)
      have hword : scale (2 ^ 25) (2 ^ 25 - 1 - 0x1FFFFFE) (-1) = -1 := by decide
      show scale (2 ^ 25) (2 ^ 25 - 1 - 0x1FFFFFE) (-1) + scale (2 ^ 25) 0x1FFFFFE _ < 0
      omega
    have hsum : (s t).outputAdder (silence 0x1FFFFFE 1 t) = -1 := by
      -- a value in `-2 ^ 24 .. -1` times `1 / 2 ^ 25` is rounded to `-1`
      have hfit := fits_toInt ((s t).outLPFilter (silence 0x1FFFFFE 1 t))
      unfold Fits at hfit
      have hexact : (s t).exactSum (silence 0x1FFFFFE 1 t) = -1 := by
        show (0 : BitVec 24).toInt + scale (2 ^ 25) 1 _ = -1
        rw [scale, one_mul, show (0 : BitVec 24).toInt = 0 from rfl]
        omega
      apply BitVec.eq_of_toInt_eq
      rw [outputAdder_toInt (by rw [hexact]; decide), hexact]
      rfl
    exact ⟨h1.edge fun _ => hsum, h2.edge fun _ => h1.dataOut,
      LPF.edge_register (P := fun v => v.toInt < 0) (fun hr => absurd hr Bool.noConfusion) hout hlp⟩

/-- From all words at `-1` the filter drifts by a unit at each tick: at tick 2 it puts out `-4`,
    three units below the largest magnitude at the start. -/
theorem zero_input_tail_drift :
    Holds (fun v => |v.toInt| ≤ 1) flat.delayLineOperator1 ∧
      Holds (fun v => |v.toInt| ≤ 1) flat.delayLineOperator2 ∧
      |flat.lpFilter.prevOutputAdder.toInt| ≤ 1 ∧
      ¬ |((run (edge (nLFCF 0)) flat (silence 0x1FFFFFE 1) (0 + 930 * 2)).outLPFilter
        (silence 0x1FFFFFE 1 (0 + 930 * 2))).toInt| ≤ 1 + 2 := by
  obtain ⟨h1, h2⟩ := holds_flat (P := fun v => |v.toInt| ≤ 1) (by decide)
  refine ⟨h1, h2, by decide, ?_⟩
  let s := run (edge (nLFCF 0)) flat (silence 0x1FFFFFE 1)
  have hrun : IsRun LPF.edge (fun t => (s t).lpFilter)
      (fun t => (s t).lpFilterIn (silence 0x1FFFFFE 1 t)) := isRun_lpFilter (isRun_run flat _)
  have hpulses := pulses_every 0 930
  -- what the filter puts out, from the register that the ticks before have left
  have hout : ∀ t, ((s t).outLPFilter (silence 0x1FFFFFE 1 t)).toInt =
      LPF.sum 25 0x1FFFFFE (-1) (s t).lpFilter.prevOutputAdder.toInt := by
    intro t
    rw [outLPFilter_toInt, secondDelayedOutputAdder, (flat_run t).2.1.dataOut]
    rfl
  have hreg0 : (s (0 + 930 * 0)).lpFilter = ⟨-1⟩ := rfl
  have hreg1 : (s (0 + 930 * 1)).lpFilter.prevOutputAdder.toInt = -2 := by
    have h := LPF.run_after hrun (fun _ => rfl) hpulses (n := 0) (by omega) le_rfl
    rw [h]
    show ((s (0 + 930 * 0)).outLPFilter _).toInt = _
    rw [hout, hreg0]
    decide
  have hreg2 : (s (0 + 930 * 2)).lpFilter.prevOutputAdder.toInt = -3 := by
    have h := LPF.run_after hrun (fun _ => rfl) hpulses (n := 1) (by omega) le_rfl
    rw [h]
    show ((s (0 + 930 * 1)).outLPFilter _).toInt = _
    rw [hout, hreg1]
    decide
  rw [show run (edge (nLFCF 0)) flat (silence 0x1FFFFFE 1) = s from rfl, hout, hreg2]
  decide

end LFCF

end Reverb
