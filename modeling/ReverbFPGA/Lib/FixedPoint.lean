import Mathlib.Algebra.Order.Field.Basic
import Mathlib.Tactic.FieldSimp
import Mathlib.Tactic.Ring
import Mathlib.Tactic.Linarith
import Mathlib.Tactic.Positivity
import Mathlib.Order.OrderIsoNat
import ReverbFPGA.Lib.Signed

namespace FixedPoint

/-!
# Products with a fixed-point fraction, rounded down

`scale K c x` is `x` times the fraction `c / K`, rounded toward minus infinity.  The gains of a
recursive filter are fractions `0 ≤ c < K`, and what matters of them is in which intervals they
keep a value:

* `scale_mono`, `le_scale`, `scale_le` — monotone in `x`, and between `0` and `x`;
* `scale_cast_le`, `le_scale_cast` — less than one unit below the exact product;
* `pair_le`, `pair_ge`, `pair_ge_half` — two products with complementary fractions `K - 1 - d`
  and `d` are summed without leaving the range of their arguments, but for their roundings;
* `pair_ge_biased` — in a recursion each rounding of such a pair loses up to one unit, and the
  loss is amplified by `K / (K - d)`: how far below their arguments' bound the sums can drift;
* `pair_within` — the magnitude at which such a recursion settles.
-/

variable {K c d x y B : ℤ}

/-- The product with the fraction `c / K`, rounded toward minus infinity. -/
def scale (K c x : ℤ) : ℤ := c * x / K

@[simp] theorem scale_zero (K c : ℤ) : scale K c 0 = 0 := by simp [scale]

/-- A nonnegative fraction keeps the order. -/
theorem scale_mono (hK : 0 < K) (hc : 0 ≤ c) (h : x ≤ y) : scale K c x ≤ scale K c y :=
  Int.ediv_le_ediv hK (mul_le_mul_of_nonneg_left h hc)

/-- The rounding loses less than one unit. -/
theorem scale_mul_le (hK : 0 < K) (c x : ℤ) : K * scale K c x ≤ c * x := by
  have := Int.mul_ediv_add_emod (c * x) K
  have := Int.emod_nonneg (c * x) (ne_of_gt hK)
  unfold scale
  linarith

/-- It rounds down, and never by a whole unit. -/
theorem lt_scale_mul (hK : 0 < K) (c x : ℤ) : c * x < K * scale K c x + K := by
  have := Int.mul_ediv_add_emod (c * x) K
  have := Int.emod_lt_of_pos (c * x) hK
  unfold scale
  linarith

/-- To bound a rounded value from below it is enough to bound the exact one. -/
theorem le_scale_of (hK : 0 < K) (h : K * B ≤ c * x) : B ≤ scale K c x := by
  have h1 := lt_scale_mul hK c x
  by_contra hlt
  have : scale K c x + 1 ≤ B := by omega
  nlinarith

/-- To bound a rounded value from above it is enough to bound the exact one, with a margin
    below the next integer. -/
theorem scale_le_of (hK : 0 < K) (h : c * x < K * B + K) : scale K c x ≤ B := by
  have h1 := scale_mul_le hK c x
  by_contra hlt
  have : B + 1 ≤ scale K c x := by omega
  nlinarith

/-- One rounding loses no more than two. -/
theorem scale_add_le (hK : 0 < K) (c x y : ℤ) :
    scale K c x + scale K c y ≤ scale K c (x + y) := by
  have hx := scale_mul_le hK c x
  have hy := scale_mul_le hK c y
  exact le_scale_of hK (by linarith)

/-- A fraction of a value is not below the smaller of `0` and the value. -/
theorem le_scale (hK : 0 < K) (hc : 0 ≤ c) (hcK : c ≤ K) (hB : B ≤ 0) (h : B ≤ x) :
    B ≤ scale K c x := by
  refine le_scale_of hK ?_
  calc K * B ≤ c * B := mul_le_mul_of_nonpos_right hcK hB
    _ ≤ c * x := mul_le_mul_of_nonneg_left h hc

/-- A fraction of a value is not above the larger of `0` and the value. -/
theorem scale_le (hK : 0 < K) (hc : 0 ≤ c) (hcK : c ≤ K) (hB : 0 ≤ B) (h : x ≤ B) :
    scale K c x ≤ B := by
  refine scale_le_of hK ?_
  have : c * x ≤ K * B := calc
    c * x ≤ c * B := mul_le_mul_of_nonneg_left h hc
    _ ≤ K * B := mul_le_mul_of_nonneg_right hcK hB
  linarith

/-- A fraction of a `w`-bit value is a `w`-bit value. -/
theorem fits_scale {w : ℕ} (hw : 0 < w) (hc : 0 ≤ c) (hcK : c ≤ 2 ^ w) (h : Signed.Fits w x) :
    Signed.Fits w (scale (2 ^ w) c x) := by
  obtain ⟨w, rfl⟩ : ∃ k, w = k + 1 := ⟨w - 1, by omega⟩
  have hK : (0 : ℤ) < 2 ^ (w + 1) := by positivity
  have hpow : (2 : ℤ) ^ (w + 1) = 2 * 2 ^ w := by ring
  have hpos : (0 : ℤ) < 2 ^ w := by positivity
  obtain ⟨h1, h2⟩ := h
  have hlo : -2 ^ w ≤ scale (2 ^ (w + 1)) c x := le_scale hK hc hcK (by omega) (by omega)
  have hhi : scale (2 ^ (w + 1)) c x ≤ 2 ^ w - 1 := scale_le hK hc hcK (by omega) (by omega)
  exact ⟨by omega, by omega⟩

/-! ### The exact product -/

section

variable {F : Type*} [Field F] [LinearOrder F] [IsStrictOrderedRing F]

/-- The rounded product is not above the exact one. -/
theorem scale_cast_le (hK : 0 < K) (c x : ℤ) : (scale K c x : F) ≤ c / K * x := by
  have hK' : (0 : F) < K := by exact_mod_cast hK
  have hle : (K : F) * scale K c x ≤ c * x := by exact_mod_cast scale_mul_le hK c x
  rw [div_mul_eq_mul_div, le_div_iff₀ hK', mul_comm]
  exact hle

/-- It is less than one unit below. -/
theorem le_scale_cast (hK : 0 < K) (c x : ℤ) : (c : F) / K * x - 1 ≤ scale K c x := by
  have hK' : (0 : F) < K := by exact_mod_cast hK
  have hlt : (c : F) * x < K * scale K c x + K := by exact_mod_cast lt_scale_mul hK c x
  rw [sub_le_iff_le_add, div_mul_eq_mul_div, div_le_iff₀ hK']
  linarith

end

/-! ### Complementary pairs -/

/-- Neither argument above `B`, the sum is not above `B`. -/
theorem pair_le (hd : 0 ≤ d) (hdK : d < K) (hB : -K < B) (hx : x ≤ B) (hy : y ≤ B) :
    scale K (K - 1 - d) x + scale K d y ≤ B := by
  have hK : 0 < K := by linarith
  have h1 := scale_mul_le hK (K - 1 - d) x
  have h2 := scale_mul_le hK d y
  have h3 : (K - 1 - d) * x ≤ (K - 1 - d) * B := mul_le_mul_of_nonneg_left hx (by linarith)
  have h4 : d * y ≤ d * B := mul_le_mul_of_nonneg_left hy hd
  by_contra hlt
  have : B + 1 ≤ scale K (K - 1 - d) x + scale K d y := by omega
  nlinarith

/-- Neither argument below `B`, the two roundings take the sum to `B - 2` at most. -/
theorem pair_ge (hd : 0 ≤ d) (hdK : d < K) (hB : B ≤ K) (hx : B ≤ x) (hy : B ≤ y) :
    B - 2 ≤ scale K (K - 1 - d) x + scale K d y := by
  have hK : 0 < K := by linarith
  have h1 := lt_scale_mul hK (K - 1 - d) x
  have h2 := lt_scale_mul hK d y
  have h3 : (K - 1 - d) * B ≤ (K - 1 - d) * x := mul_le_mul_of_nonneg_left hx (by linarith)
  have h4 : d * B ≤ d * y := mul_le_mul_of_nonneg_left hy hd
  by_contra hlt
  have : scale K (K - 1 - d) x + scale K d y + 3 ≤ B := by omega
  nlinarith

/-- **No underflow at the corner.** With an even `K`, neither argument below `-K / 2`, the
    sum is not below `-K / 2`: at the corner one of the two products is exact. -/
theorem pair_ge_half {H : ℤ} (hK : K = 2 * H) (hd : 0 ≤ d) (hdK : d < K) (hx : -H ≤ x)
    (hy : -H ≤ y) : -H ≤ scale K (K - 1 - d) x + scale K d y := by
  have hK0 : 0 < K := by linarith
  have hH : 0 < H := by linarith
  have hx' := scale_mono hK0 (c := K - 1 - d) (by linarith) hx
  have hy' := scale_mono hK0 hd hy
  -- of `(K - 1 - d) / 2` and `d / 2` one is an integer, as `K - 1` is odd
  have hhalf : ∀ c : ℤ, scale K c (-H) = -c / 2 := by
    intro c
    unfold scale
    rw [hK, show c * -H = H * -c by ring, show 2 * H = H * 2 by ring,
      Int.mul_ediv_mul_of_pos _ _ hH]
  rw [hhalf] at hx' hy'
  omega

/-- **Drift of a recursion.** With `x ≥ -B` and the fed-back `y ≥ -(B + k)`, where `k` is at
    least the amplification `K / (K - d)`, the sum is again at least `-(B + k)`. -/
theorem pair_ge_biased {k : ℤ} (hd : 0 ≤ d) (hdK : d < K) (hB : 0 ≤ B) (hk : K ≤ k * (K - d))
    (hx : -B ≤ x) (hy : -(B + k) ≤ y) :
    -(B + k) ≤ scale K (K - 1 - d) x + scale K d y := by
  have hK : 0 < K := by linarith
  have h1 := lt_scale_mul hK (K - 1 - d) x
  have h2 := lt_scale_mul hK d y
  have h3 : (K - 1 - d) * -B ≤ (K - 1 - d) * x := mul_le_mul_of_nonneg_left hx (by linarith)
  have h4 : d * -(B + k) ≤ d * y := mul_le_mul_of_nonneg_left hy hd
  by_contra hlt
  have : scale K (K - 1 - d) x + scale K d y + 1 ≤ -(B + k) := by omega
  nlinarith

/-- **Settling depth of a recursion.** With a first term of magnitude at most `q` and the
    fed-back `y` of magnitude at most `P ≥ K * q / (K - d)`, so is the sum. -/
theorem pair_within {P q f : ℤ} (hK : 0 < K) (hd : 0 ≤ d) (hP : K * q ≤ (K - d) * P)
    (hf : -q ≤ f ∧ f ≤ q) (hy : -P ≤ y ∧ y ≤ P) :
    -P ≤ f + scale K d y ∧ f + scale K d y ≤ P := by
  have h1 := lt_scale_mul hK d y
  have h2 := scale_mul_le hK d y
  have h3 : d * -P ≤ d * y := mul_le_mul_of_nonneg_left hy.1 hd
  have h4 : d * y ≤ d * P := mul_le_mul_of_nonneg_left hy.2 hd
  constructor
  · by_contra hlt
    have : f + scale K d y + 1 ≤ -P := by omega
    nlinarith
  · by_contra hlt
    have : P + 1 ≤ f + scale K d y := by omega
    nlinarith

/-- A sequence of integers that never rises and never falls below `B` comes to rest. -/
theorem exists_rest {f : ℕ → ℤ} (hf : ∀ n, f (n + 1) ≤ f n) (hB : ∀ n, B ≤ f n) :
    ∃ N, ∀ n, N ≤ n → f n = f N := by
  have hanti : Antitone fun n => (f n - B).toNat :=
    antitone_nat_of_succ_le fun n => Int.toNat_le_toNat (by linarith [hf n])
  obtain ⟨N, hN⟩ := WellFoundedLT.antitone_chain_condition hanti
  refine ⟨N, fun n hn => ?_⟩
  have heq := hN n hn
  have h1 := hB n
  have h2 := hB N
  omega

end FixedPoint
