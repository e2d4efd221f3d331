import ReverbFPGA.Hardware.Comb
import ReverbFPGA.Hardware.EarlyLate

namespace Reverb

/-!
# The guard bit of a comb

`outputAdder` has one bit more than the input.  How far down the low-pass filter of the loop can
get depends on the damping alone: with words of 25 bits at its input it settles at the depth
`LPF.depth d`, at most `2 ^ 24`.  The adder wraps as soon as the decay of that depth, added to
the lowest input, leaves 25 bits:

* `LFCF.exactSum_fits` — with `g * LPF.depth d ≤ 2 ^ 48` no run wraps, whatever the words in
  the lines;
* `Descent` — under the lowest input a comb that does not wrap descends until it rests, and
  where it rests `g * LPF.depth d ≤ 2 ^ 48` (`Descent.settled`);
* `LFCF.feedback_adder_fits_iff` — the two together.
-/

open Clocked FixedPoint Signed DelayLine

/-! ### How deep the filter settles -/

/-- `⌈2 ^ 25 * ⌊δ / 2⌋ / δ⌉` with `δ = 2 ^ 25 - d`: the magnitude at which the filter settles with
    the damping `d` and the input `-2 ^ 24`. -/
def LPF.depth (d : BitVec 25) : ℤ :=
  (2 ^ 25 * ((2 ^ 25 - (d.toNat : ℤ)) / 2) + (2 ^ 25 - d.toNat) - 1) / (2 ^ 25 - d.toNat)

theorem LPF.damping_lt (d : BitVec 25) : (d.toNat : ℤ) < 2 ^ 25 := by exact_mod_cast d.isLt

/-- What the rounding up of the quotient says of the product. -/
theorem LPF.le_depth (d : BitVec 25) :
    2 ^ 25 * ((2 ^ 25 - (d.toNat : ℤ)) / 2) ≤ (2 ^ 25 - d.toNat) * LPF.depth d := by
  have hpos : (0 : ℤ) < 2 ^ 25 - d.toNat := by have := LPF.damping_lt d; omega
  have hlt := Int.lt_ediv_add_one_mul_self
    (2 ^ 25 * ((2 ^ 25 - (d.toNat : ℤ)) / 2) + (2 ^ 25 - d.toNat) - 1) hpos
  unfold LPF.depth
  linarith

/-- `LPF.depth d` is the least such depth. -/
theorem LPF.depth_le {d : BitVec 25} {P : ℤ}
    (h : 2 ^ 25 * ((2 ^ 25 - (d.toNat : ℤ)) / 2) ≤ (2 ^ 25 - d.toNat) * P) : LPF.depth d ≤ P := by
  have hpos : (0 : ℤ) < 2 ^ 25 - d.toNat := by have := LPF.damping_lt d; omega
  unfold LPF.depth
  rw [Int.ediv_le_iff_le_mul hpos]
  linarith

theorem LPF.depth_nonneg (d : BitVec 25) : 0 ≤ LPF.depth d := by
  have hd := LPF.damping_lt d
  have h := LPF.le_depth d
  have hhalf : (0 : ℤ) ≤ (2 ^ 25 - d.toNat) / 2 := by omega
  by_contra hneg
  nlinarith

/-- The filter never settles below the lowest word. -/
theorem LPF.depth_le_half (d : BitVec 25) : LPF.depth d ≤ 2 ^ 24 := by
  apply LPF.depth_le
  have : 2 * ((2 ^ 25 - (d.toNat : ℤ)) / 2) ≤ 2 ^ 25 - d.toNat := by omega
  linarith

/-- The first product of the filter, for any word of 25 bits. -/
theorem LPF.first_within {d : BitVec 25} {x : ℤ} (hx : Fits 25 x) :
    -((2 ^ 25 - (d.toNat : ℤ)) / 2) ≤ scale (2 ^ 25) (2 ^ 25 - 1 - d.toNat) x ∧
      scale (2 ^ 25) (2 ^ 25 - 1 - d.toNat) x ≤ (2 ^ 25 - (d.toNat : ℤ)) / 2 := by
  have hd := LPF.damping_lt d
  have hc : (0 : ℤ) ≤ 2 ^ 25 - 1 - d.toNat := by omega
  obtain ⟨hlo, hhi⟩ := hx
  have hfloor : 2 ^ 25 - 1 - (d.toNat : ℤ) ≤ 2 * ((2 ^ 25 - (d.toNat : ℤ)) / 2) := by omega
  constructor
  · apply le_scale_of (by norm_num)
    have hdown : (2 ^ 25 - 1 - (d.toNat : ℤ)) * -2 ^ 24 ≤ (2 ^ 25 - 1 - d.toNat) * x :=
      mul_le_mul_of_nonneg_left (by omega) hc
    linarith
  · apply scale_le_of (by norm_num)
    have hup : (2 ^ 25 - 1 - (d.toNat : ℤ)) * x ≤ (2 ^ 25 - 1 - d.toNat) * 2 ^ 24 :=
      mul_le_mul_of_nonneg_left (by omega) hc
    linarith

/-- The register of the filter stays within the depth, whatever the words at its input. -/
theorem LPF.sum_within {d : BitVec 25} {x y : ℤ} (hx : Fits 25 x)
    (hy : -LPF.depth d ≤ y ∧ y ≤ LPF.depth d) :
    -LPF.depth d ≤ LPF.sum 25 d.toNat x y ∧ LPF.sum 25 d.toNat x y ≤ LPF.depth d :=
  pair_within (by norm_num) (Int.natCast_nonneg _) (LPF.le_depth d) (LPF.first_within hx) hy

namespace LFCF

/-! ### Shallow enough: no run wraps -/

/-- The feedback adder does not wrap: the exact sum is a 25-bit value, and what the adder puts
    out. -/
def NoWrap (s : LFCF) (i : In) : Prop :=
  Fits 25 (s.exactSum i) ∧ (s.outputAdder i).toInt = s.exactSum i

/-- A sum of 25 bits does not wrap. -/
theorem noWrap_of_fits {s : LFCF} {i : In} (h : Fits 25 (s.exactSum i)) : s.NoWrap i :=
  ⟨h, outputAdder_toInt h⟩

/-- The register of the filter is within the depth at which it settles. -/
def Shallow (d : BitVec 25) (s : LFCF) : Prop :=
  -LPF.depth d ≤ s.lpFilter.prevOutputAdder.toInt ∧
    s.lpFilter.prevOutputAdder.toInt ≤ LPF.depth d

/-- From a shallow register the filter puts out a word within its depth. -/
theorem Shallow.outLPFilter {s : LFCF} {i : In} (h : Shallow i.dampingValue s) :
    -LPF.depth i.dampingValue ≤ (s.outLPFilter i).toInt ∧
      (s.outLPFilter i).toInt ≤ LPF.depth i.dampingValue := by
  rw [outLPFilter_toInt]
  exact LPF.sum_within (fits_toInt _) h

/-- **Step lemma.** No edge takes the register below the depth. -/
theorem Shallow.edge {s : LFCF} {i : In} (h : Shallow i.dampingValue s) (N : ℕ) :
    Shallow i.dampingValue (LFCF.edge N s i) := by
  have hdepth := LPF.depth_nonneg i.dampingValue
  have hzero : (0 : BitVec 25).toInt = 0 := rfl
  exact LPF.edge_register (P := fun v => -LPF.depth i.dampingValue ≤ v.toInt ∧
    v.toInt ≤ LPF.depth i.dampingValue) (fun _ => by omega) h.outLPFilter h

/-- With a filter that is shallow enough for the decay, the sum has 25 bits. -/
theorem exactSum_fits {s : LFCF} {i : In} (h : Shallow i.dampingValue s)
    (hg : i.decayValue.toNat * LPF.depth i.dampingValue ≤ 2 ^ 48) : Fits 25 (s.exactSum i) := by
  obtain ⟨hlo, hhi⟩ := h.outLPFilter
  have h0 : (0 : ℤ) ≤ i.decayValue.toNat := Int.natCast_nonneg _
  have hdown := mul_le_mul_of_nonneg_left hlo h0
  have hup := mul_le_mul_of_nonneg_left hhi h0
  have hfed1 : -2 ^ 23 ≤ scale (2 ^ 25) i.decayValue.toNat (s.outLPFilter i).toInt :=
    le_scale_of (by norm_num) (by linarith)
  have hfed2 : scale (2 ^ 25) i.decayValue.toNat (s.outLPFilter i).toInt ≤ 2 ^ 23 :=
    scale_le_of (by norm_num) (by linarith)
  obtain ⟨hx1, hx2⟩ := fits_toInt i.dataIn
  unfold exactSum
  exact ⟨by omega, by omega⟩

end LFCF

/-! ### Too deep: the descent under the lowest input -/

/-- What a comb computes under the lowest input, over the integers, from empty lines of `D`
    cells: the delayed values `x`, the filter's registers `y`, the sums `u`. -/
structure Descent (d g : BitVec 25) (D : ℕ) (x y u : ℕ → ℤ) : Prop where
  early : ∀ n, n < D → x n = 0
  late : ∀ n, x (n + D) = u n
  start : y 0 = 0
  next : ∀ n, y (n + 1) = LPF.sum 25 d.toNat (x n) (y n)
  fed : ∀ n, u n = -2 ^ 23 + scale (2 ^ 25) g.toNat (y (n + 1))

namespace Descent

variable {d g : BitVec 25} {D : ℕ} {x y u : ℕ → ℤ}

/-- The filter is monotone in its input and its register. -/
theorem sum_mono {x₁ x₂ y₁ y₂ : ℤ} (hx : x₁ ≤ x₂) (hy : y₁ ≤ y₂) :
    LPF.sum 25 d.toNat x₁ y₁ ≤ LPF.sum 25 d.toNat x₂ y₂ := by
  have hd := LPF.damping_lt d
  exact add_le_add (scale_mono (by norm_num) (by omega) hx)
    (scale_mono (by norm_num) (Int.natCast_nonneg _) hy)

/-- Where the filter falls, so does the sum. -/
theorem u_le_of_y (h : Descent d g D x y u) {n : ℕ} (hy : y (n + 1 + 1) ≤ y (n + 1)) :
    u (n + 1) ≤ u n := by
  rw [h.fed, h.fed]
  have := scale_mono (K := 2 ^ 25) (by norm_num) (Int.natCast_nonneg g.toNat) hy
  omega

/-- **The filter descends.** By induction over the ticks: a word that is put out is lower than
    the one before because the sum it was is, `D` ticks ago. -/
theorem y_le (h : Descent d g D x y u) (hD : 0 < D) (n : ℕ) : y (n + 1) ≤ y n := by
  induction n using Nat.strong_induction_on with
  | _ n ih =>
    rcases n with _ | n
    · rw [h.next, h.early 0 hD, h.start]
      simp [LPF.sum]
    · have hx : x (n + 1) ≤ x n := by
        rcases Nat.lt_trichotomy (n + 1) D with hlt | heq | hgt
        -- no sum has come round yet
        · rw [h.early _ hlt, h.early n (by omega)]
        -- the first one has: it is the input alone, below zero
        · have hy0 : y 1 = 0 := by
            rw [h.next, h.early 0 hD, h.start]
            simp [LPF.sum]
          rw [show n + 1 = 0 + D by omega, h.late, h.early n (by omega), h.fed, hy0]
          simp
        -- from then on the words are the sums of `D` ticks ago
        · obtain ⟨k, rfl⟩ : ∃ k, n = k + D := ⟨n - D, by omega⟩
          rw [show k + D + 1 = k + 1 + D by omega, h.late, h.late]
          exact h.u_le_of_y (ih (k + 1) (by omega))
      calc y (n + 1 + 1) = LPF.sum 25 d.toNat (x (n + 1)) (y (n + 1)) := h.next _
        _ ≤ LPF.sum 25 d.toNat (x n) (y n) := sum_mono hx (ih n (by omega))
        _ = y (n + 1) := (h.next n).symm

/-- The sums fall from tick to tick. -/
theorem u_le (h : Descent d g D x y u) (hD : 0 < D) (n : ℕ) : u (n + 1) ≤ u n :=
  h.u_le_of_y (h.y_le hD (n + 1))

/-- The register never rises above zero. -/
theorem y_nonpos (h : Descent d g D x y u) (hD : 0 < D) (n : ℕ) : y n ≤ 0 := by
  induction n with
  | zero => exact le_of_eq h.start
  | succ n ih => exact le_trans (h.y_le hD n) ih

/-- While no sum falls below `-2 ^ 24`, the filter does not either. -/
theorem le_y (h : Descent d g D x y u) (hu : ∀ n, -2 ^ 24 ≤ u n) (n : ℕ) : -2 ^ 24 ≤ y n := by
  have hd := LPF.damping_lt d
  induction n with
  | zero => rw [h.start]; norm_num
  | succ n ih =>
    have hx : -2 ^ 24 ≤ x n := by
      by_cases hn : n < D
      · rw [h.early n hn]; norm_num
      · rw [show n = n - D + D by omega, h.late]
        exact hu _
    rw [h.next]
    exact pair_ge_half (by norm_num) (Int.natCast_nonneg _) hd hx ih

/-- **The descent ends** in a fixed point of the loop. -/
theorem exists_fixed {L : ℤ} (h : Descent d g D x y u) (hD : 0 < D) (hL : L ≤ 2 ^ 24)
    (hu : ∀ n, -L ≤ u n) :
    ∃ B P : ℤ, 0 ≤ P ∧ B ≤ L ∧ -P = LPF.sum 25 d.toNat (-B) (-P) ∧
      -B = -2 ^ 23 + scale (2 ^ 25) g.toNat (-P) := by
  have hy : ∀ n, -2 ^ 24 ≤ y n := h.le_y fun n => by linarith [hu n]
  obtain ⟨N₁, hN₁⟩ := exists_rest (h.u_le hD) hu
  obtain ⟨N₂, hN₂⟩ := exists_rest (h.y_le hD) hy
  -- from `N` on neither the sums nor the registers change
  let N := max N₁ N₂
  have h1 : N₁ ≤ N := le_max_left _ _
  have h2 : N₂ ≤ N := le_max_right _ _
  refine ⟨-u N₁, -y N₂, by linarith [h.y_nonpos hD N₂], by linarith [hu N₁], ?_, ?_⟩
  · have hnext := h.next (N + D)
    rw [h.late, hN₁ N h1, hN₂ (N + D) (by omega), hN₂ (N + D + 1) (by omega)] at hnext
    simpa using hnext
  · have hfed := h.fed N
    rw [hN₁ N h1, hN₂ (N + 1) (by omega)] at hfed
    simpa using hfed

/-- The three roundings at a fixed point of the loop, as inequalities. -/
theorem roundings_of_fixed {B P : ℤ} (hlp : -P = LPF.sum 25 d.toNat (-B) (-P))
    (hfed : -B = -2 ^ 23 + scale (2 ^ 25) g.toNat (-P)) :
    ∃ δ q : ℤ, δ = 2 ^ 25 - d.toNat ∧ 0 < δ ∧ (δ - 1) * B ≤ 2 ^ 25 * q ∧ 2 ^ 25 * q ≤ δ * P ∧
      g.toNat * P ≤ 2 ^ 25 * (B - 2 ^ 23) := by
  have hd := LPF.damping_lt d
  unfold LPF.sum at hlp
  have hin := scale_mul_le (K := 2 ^ 25) (by norm_num) (2 ^ 25 - 1 - d.toNat) (-B)
  have hloop := scale_mul_le (K := 2 ^ 25) (by norm_num) (d.toNat : ℤ) (-P)
  have hgain := scale_mul_le (K := 2 ^ 25) (by norm_num) (g.toNat : ℤ) (-P)
  refine ⟨2 ^ 25 - d.toNat, -scale (2 ^ 25) (2 ^ 25 - 1 - d.toNat) (-B), rfl, by omega, ?_, ?_, ?_⟩
  · linarith
  · linarith
  · linarith

/-- What a fixed point of the loop says of the decay and the depth of the filter. -/
theorem depth_of_fixed {B P : ℤ} (hP : 0 ≤ P) (hB : B ≤ 2 ^ 24)
    (hlp : -P = LPF.sum 25 d.toNat (-B) (-P))
    (hfed : -B = -2 ^ 23 + scale (2 ^ 25) g.toNat (-P)) : g.toNat * LPF.depth d ≤ 2 ^ 48 := by
  have hg : (0 : ℤ) ≤ g.toNat := Int.natCast_nonneg _
  obtain ⟨δ, q, hδd, hδ, hqB, hqP, hgP⟩ := roundings_of_fixed hlp hfed
  by_cases hfull : δ / 2 ≤ q
  · -- the words are so low that the filter is as deep as it gets
    have hdepth : LPF.depth d ≤ P := LPF.depth_le (by rw [← hδd]; linarith)
    have := mul_le_mul_of_nonneg_left hdepth hg
    linarith
  · -- they are not, and the decay is at most one half
    have hq2 : 2 * q ≤ δ - 2 := by omega
    have hB0 : 2 ^ 23 ≤ B := by
      have := mul_nonneg hg hP
      linarith
    have hδ1 : 0 ≤ δ - 1 := by omega
    have hhalf : 2 * (g.toNat : ℤ) ≤ 2 ^ 25 := by
      by_contra hlt
      have hgB : g.toNat * ((δ - 1) * B) ≤ δ * (2 ^ 25 * (B - 2 ^ 23)) := calc
        g.toNat * ((δ - 1) * B) ≤ g.toNat * (δ * P) :=
          mul_le_mul_of_nonneg_left (by linarith) hg
        _ = δ * (g.toNat * P) := by ring
        _ ≤ δ * (2 ^ 25 * (B - 2 ^ 23)) := mul_le_mul_of_nonneg_left hgP hδ.le
      have hprod : 0 ≤ (δ - 1) * B := mul_nonneg hδ1 (by linarith)
      have hKB : 2 ^ 25 * ((δ - 1) * B) ≤ 2 * g.toNat * ((δ - 1) * B) :=
        mul_le_mul_of_nonneg_right (by linarith) hprod
      have hδB : δ * 2 ^ 24 ≤ (δ + 1) * B := by linarith
      have hsq : (δ - 1) * (δ * 2 ^ 24) ≤ (δ + 1) * (2 ^ 24 * (δ - 2)) := calc
        (δ - 1) * (δ * 2 ^ 24) ≤ (δ - 1) * ((δ + 1) * B) :=
          mul_le_mul_of_nonneg_left hδB hδ1
        _ = (δ + 1) * ((δ - 1) * B) := by ring
        _ ≤ (δ + 1) * (2 ^ 24 * (δ - 2)) := mul_le_mul_of_nonneg_left (by linarith) (by omega)
      linarith
    have hdepth := LPF.depth_le_half d
    have := mul_le_mul_of_nonneg_left hdepth hg
    linarith

/-- A descent that never leaves the range comes to rest, and at rest the decay is small enough. -/
theorem settled (h : Descent d g D x y u) (hD : 0 < D) (hu : ∀ n, -2 ^ 24 ≤ u n) :
    g.toNat * LPF.depth d ≤ 2 ^ 48 := by
  obtain ⟨B, P, hP, hB, hlp, hfed⟩ := h.exists_fixed hD le_rfl hu
  exact depth_of_fixed hP hB hlp hfed

end Descent

/-! ### Runs of a comb -/

namespace LFCF

/-- All words of the comb are zero, and both lines are idle. -/
structure Zero (s : LFCF) : Prop where
  line1 : Holds (· = 0) s.delayLineOperator1
  line2 : Holds (· = 0) s.delayLineOperator2
  lpFilter : s.lpFilter = ⟨0⟩
  idle1 : s.delayLineOperator1.shiftState = .idle
  idle2 : s.delayLineOperator2.shiftState = .idle

/-- A run of the comb with `N` cells from empty lines, with the damping `d` and the decay `g`,
    under ticks that leave time for a pass. -/
structure FromZero (N : ℕ) (d g : BitVec 25) (s : ℕ → LFCF) (inp : ℕ → In) (T : ℕ → ℕ) :
    Prop where
  run : IsRun (edge N) s inp
  zero : Zero (s 0)
  rst : ∀ t, (inp t).rst = true
  dampingValue : ∀ t, (inp t).dampingValue = d
  decayValue : ∀ t, (inp t).decayValue = g
  pulses : Pulses (fun t => (inp t).dataSampledValid) T (N / 2 + 2)

namespace FromZero

variable {N : ℕ} {d g : BitVec 25} {s : ℕ → LFCF} {inp : ℕ → In} {T : ℕ → ℕ}

/-- An empty comb under ticks is one of those of the comb lemmas. -/
theorem paced (h : FromZero N d g s inp T) : Paced N d g s inp T :=
  ⟨h.run, h.zero.idle1, h.zero.idle2, h.rst, h.dampingValue, h.decayValue, h.pulses⟩

/-- Its register never leaves the depth of the filter. -/
theorem shallow (h : FromZero N d g s inp T) (t : ℕ) : Shallow d (s t) := by
  have hstart : Shallow d (s 0) := by
    have := LPF.depth_nonneg d
    have hzero : (0 : BitVec 25).toInt = 0 := rfl
    unfold Shallow
    rw [h.zero.lpFilter, hzero]
    omega
  refine h.run.invariant (Q := fun i => i.dampingValue = d) hstart h.dampingValue ?_ t
  rintro s i rfl hs
  exact hs.edge N

/-- **The adder does not wrap at any edge** if the filter is shallow enough for the decay. -/
theorem noWrap (h : FromZero N d g s inp T) (hg : g.toNat * LPF.depth d ≤ 2 ^ 48) (t : ℕ) :
    (s t).NoWrap (inp t) := by
  apply noWrap_of_fits
  apply exactSum_fits
  · rw [h.dampingValue]; exact h.shallow t
  · rw [h.dampingValue, h.decayValue]; exact hg

/-- The words in the lines before the first tick. -/
theorem loopSum_negSucc (h : FromZero N d g s inp T) (i : ℕ) :
    loopSum N s inp T (.negSucc i) = 0 := by
  rw [loopSum]
  split_ifs
  · exact h.zero.line1.content _
  · exact h.zero.line2.content _

/-- The delayed value before the first sum has come round. -/
theorem loopSum_early (h : FromZero N d g s inp T) {n : ℕ} (hn : n < 2 * (N / 2 - 1)) :
    (loopSum N s inp T (n - (2 * (N / 2 - 1) : ℕ))).toInt = 0 := by
  have hneg : (n : ℤ) - (2 * (N / 2 - 1) : ℕ) = .negSucc (2 * (N / 2 - 1) - n - 1) := by
    rw [Int.negSucc_eq]
    omega
  rw [hneg, h.loopSum_negSucc]
  rfl

/-- The filter before the first tick. -/
theorem loopFilter_negSucc (h : FromZero N d g s inp T) (hN : 5 ≤ N / 2) (i : ℕ) :
    (loopFilter N s inp T (.negSucc i)).toInt = 0 := by
  have hregs : (s (T 0)).lpFilter = ⟨0⟩ :=
    (LPF.run_before (isRun_lpFilter h.run) h.rst h.pulses le_rfl).trans h.zero.lpFilter
  have hword : (s (T 0)).secondDelayedOutputAdder = 0 :=
    ((h.paced.ticked2 hN).dataOut_before (by omega)).trans h.zero.line2.dataOut
  rw [loopFilter, outLPFilter_toInt, hregs, hword]
  simp [LPF.sum]

/-- Nothing is fed back at the first tick. -/
theorem loopFilter_zero (h : FromZero N d g s inp T) (hN : 5 ≤ N / 2) :
    (loopFilter N s inp T (0 : ℕ)).toInt = 0 := by
  have hstart : (loopFilter N s inp T ((0 : ℕ) - 1)).toInt = 0 := h.loopFilter_negSucc hN 0
  rw [h.paced.loopFilter_toInt hN, h.loopSum_early (by omega), hstart]
  simp [LPF.sum]

/-- The exact sum under the lowest input. -/
theorem exactSum_lowest (h : FromZero N d g s inp T)
    (hx : ∀ t, (inp t).dataIn = BitVec.intMin 24) (n : ℕ) :
    (s (T n + N / 2 + 1)).exactSum (inp (T n + N / 2 + 1)) =
      -2 ^ 23 + scale (2 ^ 25) g.toNat (loopFilter N s inp T n).toInt := by
  rw [h.paced.exactSum_push, hx]
  rfl

/-- **A run under the lowest input that does not wrap is a descent.** -/
theorem descent (h : FromZero N d g s inp T) (hN : 5 ≤ N / 2)
    (hx : ∀ t, (inp t).dataIn = BitVec.intMin 24)
    (hwrap : ∀ n, (s (T n + N / 2 + 1)).NoWrap (inp (T n + N / 2 + 1))) :
    Descent d g (2 * (N / 2 - 1))
      (fun n => (loopSum N s inp T (n - (2 * (N / 2 - 1) : ℕ))).toInt)
      (fun n => (loopFilter N s inp T (n - 1)).toInt)
      (fun n => (loopSum N s inp T n).toInt) where
  early := fun n hn => h.loopSum_early hn
  late := fun n => by
    rw [Nat.cast_add, add_sub_cancel_right]
  start := h.loopFilter_negSucc hN 0
  next := fun n => by
    rw [Nat.cast_succ, add_sub_cancel_right]
    exact h.paced.loopFilter_toInt hN n
  fed := fun n => by
    have hsum := (hwrap n).2
    rw [h.exactSum_lowest hx] at hsum
    rw [Nat.cast_succ, add_sub_cancel_right]
    exact hsum

/-- Where it comes to rest the filter is shallow enough for the decay. -/
theorem settled (h : FromZero N d g s inp T) (hN : 5 ≤ N / 2)
    (hx : ∀ t, (inp t).dataIn = BitVec.intMin 24)
    (hwrap : ∀ n, (s (T n + N / 2 + 1)).NoWrap (inp (T n + N / 2 + 1))) :
    g.toNat * LPF.depth d ≤ 2 ^ 48 :=
  (h.descent hN hx hwrap).settled (by omega) fun n => by
    have := (fits_toInt (loopSum N s inp T n)).1
    omega

end FromZero

/-- The empty comb holds zeros only. -/
theorem empty_zero : Zero empty := ⟨holds_powerUp, holds_powerUp, rfl, rfl, rfl⟩

/-- From the empty comb, the lowest input at the closest admissible ticks. -/
theorem fromZero_lowest (N : ℕ) (d g : BitVec 25) :
    FromZero N d g (run (edge N) empty (lowest (N / 2 + 2) d g)) (lowest (N / 2 + 2) d g)
      (fun n => 0 + (N / 2 + 2) * n) :=
  ⟨isRun_run _ _, empty_zero, fun _ => rfl, fun _ => rfl, fun _ => rfl, pulses_every 0 _⟩

/-- **When the feedback adder never wraps.** For each comb of the late reverb, each damping and
    each decay: no input sequence makes the adder wrap at a tick, or at the edge at which the
    pass of a tick pushes the sum, exactly when the decay of the depth at which the filter
    settles is at most `2 ^ 23`. -/
theorem feedback_adder_fits_iff (j : Fin 8) (d g : BitVec 25) :
    (∀ s inp T, FromZero (nLFCF j) d g s inp T → ∀ n,
      (s (T n)).NoWrap (inp (T n)) ∧
        (s (T n + nLFCF j / 2 + 1)).NoWrap (inp (T n + nLFCF j / 2 + 1))) ↔
      g.toNat * LPF.depth d ≤ 2 ^ 48 := by
  have hN : 5 ≤ nLFCF j / 2 := by revert j; decide
  constructor
  -- the run under the lowest input is one of those that do not wrap
  · intro hall
    have h := fromZero_lowest (nLFCF j) d g
    exact h.settled hN (fun _ => rfl) fun n => (hall _ _ _ h n).2
  · intro hg s inp T h n
    exact ⟨h.noWrap hg _, h.noWrap hg _⟩

/-- Without damping, and with the decay at its maximum, the lowest input makes the adder of the
    first comb wrap. -/
theorem feedback_adder_wraps :
    let inp := lowest (nLFCF 0 / 2 + 2) 0 0x1E66665
    let s := run (edge (nLFCF 0)) empty inp
    let T := fun n => 0 + (nLFCF 0 / 2 + 2) * n
    (2 ^ 25 - 1) / 4 ≤ (0x1E66665#25).toNat ∧
      (0x1E66665#25).toNat ≤ 95 * (2 ^ 25 - 1) / 100 ∧
      FromZero (nLFCF 0) 0 0x1E66665 s inp T ∧
      ¬ ∀ n, (s (T n)).NoWrap (inp (T n)) ∧
        (s (T n + nLFCF 0 / 2 + 1)).NoWrap (inp (T n + nLFCF 0 / 2 + 1)) := by
  intro inp s T
  have h : FromZero (nLFCF 0) 0 0x1E66665 s inp T := fromZero_lowest _ _ _
  refine ⟨by decide, by decide, h, fun hwrap => ?_⟩
  have hsettled := h.settled (by decide) (fun _ => rfl) fun n => (hwrap n).2
  exact absurd hsettled (by decide)

end LFCF

end Reverb
