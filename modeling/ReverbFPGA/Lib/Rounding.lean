import Mathlib.Algebra.Order.Floor.Ring
import Mathlib.Data.Int.Log
import Mathlib.Data.Rat.Floor
import Mathlib.Tactic.FieldSimp
import Mathlib.Tactic.Linarith
import Mathlib.Tactic.NormNum
import Mathlib.Tactic.Positivity
import Mathlib.Tactic.Ring

namespace Rounding

/-!
# Binary rounding to nearest, ties to even

The result of an arithmetic operation with a significand of `p` bits, as long as the exponent is
in range: the exact result, rounded.

* `roundEven x` — the nearest integer, the even one of two;
* `ulp p x` — the weight of the last of `p` significant bits of `x`;
* `roundBits p x` — `x` in units of its last bit, rounded.

`roundBits_mono` is proved through the powers of two: `x < y` in different binades are kept apart by
one (`roundBits_le_zpow`, `zpow_le_roundBits`).  The error is half a unit of the last bit at most
(`abs_roundBits_sub_le`), and what is rounded already stays (`roundBits_roundBits`).

`Rounds p` is what both the exact arithmetic and `roundBits p` do.
-/

/-! ### The nearest integer -/

/-- The nearest integer; of two, the even one. -/
def roundEven (x : ℚ) : ℤ :=
  if x - ⌊x⌋ < 1 / 2 then ⌊x⌋
  else if 1 / 2 < x - ⌊x⌋ then ⌊x⌋ + 1
  else if ⌊x⌋ % 2 = 0 then ⌊x⌋
  else ⌊x⌋ + 1

/-- Rounding to even never goes below the floor. -/
theorem floor_le_roundEven (x : ℚ) : ⌊x⌋ ≤ roundEven x := by
  unfold roundEven
  split_ifs <;> omega

/-- It goes at most one above it. -/
theorem roundEven_le (x : ℚ) : roundEven x ≤ ⌊x⌋ + 1 := by
  unfold roundEven
  split_ifs <;> omega

@[simp] theorem roundEven_intCast (n : ℤ) : roundEven n = n := by
  simp [roundEven]

/-- Below the midpoint the rounding is the floor. -/
theorem roundEven_of_lt {x : ℚ} {n : ℤ} (h1 : n ≤ x) (h2 : x < n + 1 / 2) : roundEven x = n := by
  have hfloor : ⌊x⌋ = n := Int.floor_eq_iff.mpr ⟨h1, by linarith⟩
  unfold roundEven
  rw [hfloor, if_pos (by linarith)]

/-- Rounding to even is monotone. -/
theorem roundEven_mono {x y : ℚ} (h : x ≤ y) : roundEven x ≤ roundEven y := by
  rcases lt_or_eq_of_le (Int.floor_le_floor h) with hlt | heq
  · have h1 := roundEven_le x
    have h2 := floor_le_roundEven y
    omega
  · unfold roundEven
    rw [heq]
    split_ifs <;> first | omega | linarith

/-! ### A significand of `p` bits -/

/-- The weight of the last of `p` significant bits. -/
def ulp (p : ℕ) (x : ℚ) : ℚ := 2 ^ (Int.log 2 |x| + 1 - p)

/-- `x` rounded to `p` significant bits. -/
def roundBits (p : ℕ) (x : ℚ) : ℚ := roundEven (x / ulp p x) * ulp p x

variable {p : ℕ} {x y : ℚ}

theorem ulp_pos (p : ℕ) (x : ℚ) : 0 < ulp p x := zpow_pos (by norm_num) _

/-- A multiple of the last bit's weight is not rounded. -/
theorem roundBits_eq_self {n : ℤ} (h : x = n * ulp p x) : roundBits p x = x := by
  have hpos := ulp_pos p x
  have hdiv : x / ulp p x = n := by
    rw [div_eq_iff hpos.ne']
    exact h
  rw [roundBits, hdiv, roundEven_intCast, ← h]

@[simp] theorem roundBits_zero (p : ℕ) : roundBits p 0 = 0 := roundBits_eq_self (n := 0) (by simp)

/-- The binade of a value fixes the weight of its last bit. -/
theorem ulp_eq {e : ℤ} (h1 : 2 ^ e ≤ x) (h2 : x < 2 ^ (e + 1)) : ulp p x = 2 ^ (e + 1 - p) := by
  have hx : 0 < x := lt_of_lt_of_le (zpow_pos (by norm_num) e) h1
  have hlo : e ≤ Int.log 2 x := (Int.zpow_le_iff_le_log (by norm_num) hx).mp (by exact_mod_cast h1)
  have hhi : Int.log 2 x < e + 1 :=
    (Int.lt_zpow_iff_log_lt (by norm_num) hx).mp (by exact_mod_cast h2)
  rw [ulp, abs_of_pos hx, show Int.log 2 x = e by omega]

/-- A binary fraction with a numerator of at most `p` bits is not rounded. -/
theorem roundBits_natCast_div_of_lt {n : ℕ} (h : n < 2 ^ p) (k : ℕ) :
    roundBits p (n / 2 ^ k) = n / 2 ^ k := by
  rcases Nat.eq_zero_or_pos n with rfl | hn
  · simp
  · have hlog : Nat.log 2 n < p := Nat.log_lt_of_lt_pow hn.ne' h
    have hlo : (2 : ℚ) ^ ((Nat.log 2 n : ℤ) - k) ≤ n / 2 ^ k := by
      rw [zpow_sub₀ (by norm_num), zpow_natCast, zpow_natCast]
      gcongr
      exact_mod_cast Nat.pow_log_le_self 2 hn.ne'
    have hhi : (n : ℚ) / 2 ^ k < 2 ^ ((Nat.log 2 n : ℤ) - k + 1) := by
      rw [show (Nat.log 2 n : ℤ) - k + 1 = ((Nat.log 2 n + 1 : ℕ) : ℤ) - k by push_cast; ring,
        zpow_sub₀ (by norm_num), zpow_natCast, zpow_natCast]
      gcongr
      exact_mod_cast Nat.lt_pow_succ_log_self (by norm_num) n
    refine roundBits_eq_self (n := n * 2 ^ (p - (Nat.log 2 n + 1))) ?_
    have hunit : (2 : ℚ) ^ (p - (Nat.log 2 n + 1)) * 2 ^ ((Nat.log 2 n : ℤ) - k + 1 - p) =
        (2 ^ k)⁻¹ := by
      rw [← zpow_natCast, ← zpow_add₀ (by norm_num), ← zpow_natCast, ← zpow_neg]
      congr 1
      omega
    rw [ulp_eq hlo hhi]
    push_cast
    rw [mul_assoc, hunit, div_eq_mul_inv]

/-- An integer of at most `p` bits is not rounded. -/
theorem roundBits_natCast_of_lt {n : ℕ} (h : n < 2 ^ p) : roundBits p n = n := by
  simpa using roundBits_natCast_div_of_lt h 0

/-- A value is not rounded past the power of two above it. -/
theorem roundBits_le_zpow {e : ℤ} (hx : 0 < x) (h : x < 2 ^ (e + 1)) (hlog : Int.log 2 x = e) :
    roundBits p x ≤ 2 ^ (e + 1) := by
  have hpos := ulp_pos p x
  have hulp : ulp p x = 2 ^ (e + 1 - p) := by rw [ulp, abs_of_pos hx, hlog]
  have hpow : (2 : ℚ) ^ (e + 1) = ((2 ^ p : ℤ) : ℚ) * ulp p x := by
    rw [hulp]
    push_cast
    rw [← zpow_natCast, ← zpow_add₀ (by norm_num)]
    congr 1
    omega
  have hdiv : x / ulp p x ≤ ((2 ^ p : ℤ) : ℚ) := by
    rw [div_le_iff₀ hpos, ← hpow]
    exact h.le
  have hround : roundEven (x / ulp p x) ≤ 2 ^ p := by
    have := roundEven_mono hdiv
    rwa [roundEven_intCast] at this
  rw [hpow, roundBits]
  exact mul_le_mul_of_nonneg_right (by exact_mod_cast hround) hpos.le

/-- A value is not rounded past the power of two below it. -/
theorem zpow_le_roundBits {e : ℤ} (hp : 0 < p) (hx : 0 < x) (h : 2 ^ e ≤ x)
    (hlog : Int.log 2 x = e) : 2 ^ e ≤ roundBits p x := by
  have hpos := ulp_pos p x
  have hulp : ulp p x = 2 ^ (e + 1 - p) := by rw [ulp, abs_of_pos hx, hlog]
  have hpow : (2 : ℚ) ^ e = ((2 ^ (p - 1) : ℤ) : ℚ) * ulp p x := by
    rw [hulp]
    push_cast
    rw [← zpow_natCast, ← zpow_add₀ (by norm_num)]
    congr 1
    omega
  have hdiv : ((2 ^ (p - 1) : ℤ) : ℚ) ≤ x / ulp p x := by
    rw [le_div_iff₀ hpos, ← hpow]
    exact h
  have hround : 2 ^ (p - 1) ≤ roundEven (x / ulp p x) := by
    have := roundEven_mono hdiv
    rwa [roundEven_intCast] at this
  rw [hpow, roundBits]
  exact mul_le_mul_of_nonneg_right (by exact_mod_cast hround) hpos.le

/-- Rounding keeps the sign of a nonnegative value. -/
theorem roundBits_nonneg (hx : 0 ≤ x) : 0 ≤ roundBits p x := by
  have hpos := ulp_pos p x
  have hround : (0 : ℤ) ≤ roundEven (x / ulp p x) :=
    le_trans (Int.floor_nonneg.mpr (div_nonneg hx hpos.le)) (floor_le_roundEven _)
  exact mul_nonneg (by exact_mod_cast hround) hpos.le

/-- No positive value is rounded to zero, since the exponent is unbounded. -/
theorem roundBits_pos (hp : 0 < p) (hx : 0 < x) : 0 < roundBits p x := by
  have hlo : (2 : ℚ) ^ Int.log 2 x ≤ x := by
    exact_mod_cast Int.zpow_log_le_self (b := 2) (by norm_num) hx
  exact lt_of_lt_of_le (zpow_pos (by norm_num) _) (zpow_le_roundBits hp hx hlo rfl)

/-- Rounding keeps the sign of a nonpositive value. -/
theorem roundBits_nonpos (hx : x ≤ 0) : roundBits p x ≤ 0 := by
  have hpos := ulp_pos p x
  have hround : roundEven (x / ulp p x) ≤ 0 := by
    have := roundEven_mono (div_nonpos_of_nonpos_of_nonneg hx hpos.le)
    rwa [← Int.cast_zero, roundEven_intCast] at this
  exact mul_nonpos_of_nonpos_of_nonneg (by exact_mod_cast hround) hpos.le

/-- **Rounding is monotone** on the values that are not negative. -/
theorem roundBits_mono (hp : 0 < p) (hx : 0 ≤ x) (hxy : x ≤ y) : roundBits p x ≤ roundBits p y := by
  rcases eq_or_lt_of_le hx with rfl | hx0
  · rw [roundBits_zero]
    exact roundBits_nonneg hxy
  · have hy0 : 0 < y := lt_of_lt_of_le hx0 hxy
    rcases lt_or_eq_of_le (Int.log_mono_right (b := 2) hx0 hxy) with hlt | heq
    · -- a power of two lies between the two values
      have hxlt : x < 2 ^ (Int.log 2 x + 1) := by
        exact_mod_cast Int.lt_zpow_succ_log_self (b := 2) (by norm_num) x
      have hyle : (2 : ℚ) ^ Int.log 2 y ≤ y := by
        exact_mod_cast Int.zpow_log_le_self (b := 2) (by norm_num) hy0
      calc roundBits p x ≤ 2 ^ (Int.log 2 x + 1) := roundBits_le_zpow hx0 hxlt rfl
        _ ≤ 2 ^ Int.log 2 y := zpow_le_zpow_right₀ (by norm_num) (by omega)
        _ ≤ roundBits p y := zpow_le_roundBits hp hy0 hyle rfl
    -- in one binade both are rounded in the same unit
    · have hulp : ulp p x = ulp p y := by
        rw [ulp, ulp, abs_of_pos hx0, abs_of_pos hy0, heq]
      have hpos := ulp_pos p y
      have hround : roundEven (x / ulp p y) ≤ roundEven (y / ulp p y) :=
        roundEven_mono (div_le_div_of_nonneg_right hxy hpos.le)
      rw [roundBits, roundBits, hulp]
      exact mul_le_mul_of_nonneg_right (by exact_mod_cast hround) hpos.le

/-! ### The error -/

/-- Rounding to even moves a value by half a unit at most. -/
theorem abs_roundEven_sub_le (x : ℚ) : |roundEven x - x| ≤ 1 / 2 := by
  have h1 := Int.floor_le x
  have h2 := Int.lt_floor_add_one x
  unfold roundEven
  rw [abs_le]
  split_ifs <;> push_cast <;> constructor <;> linarith

/-- Rounding to nearest is off by half a unit of the last bit at most. -/
theorem abs_roundBits_sub_le (p : ℕ) (x : ℚ) : |roundBits p x - x| ≤ ulp p x / 2 := by
  have hpos := ulp_pos p x
  have hsplit : roundBits p x - x = (roundEven (x / ulp p x) - x / ulp p x) * ulp p x := by
    rw [sub_mul, div_mul_cancel₀ x hpos.ne', roundBits]
  rw [hsplit, abs_mul, abs_of_pos hpos]
  linarith [mul_le_mul_of_nonneg_right (abs_roundEven_sub_le (x / ulp p x)) hpos.le]

/-- The unit of the last bit below a power of two, also for zero. -/
theorem ulp_le {e : ℤ} (he : 0 ≤ e) (hx : |x| < 2 ^ (e + 1)) : ulp p x ≤ 2 ^ (e + 1 - p) := by
  refine zpow_le_zpow_right₀ (by norm_num) ?_
  rcases eq_or_lt_of_le (abs_nonneg x) with h0 | h0
  · rw [← h0, Int.log_zero_right]
    omega
  · have := (Int.lt_zpow_iff_log_lt (b := 2) (by norm_num) h0).mp (by exact_mod_cast hx)
    omega

/-- **Rounding twice** is rounding once. -/
theorem roundBits_roundBits (hp : 0 < p) (hx : 0 < x) :
    roundBits p (roundBits p x) = roundBits p x := by
  have hlo : (2 : ℚ) ^ Int.log 2 x ≤ x := by
    exact_mod_cast Int.zpow_log_le_self (b := 2) (by norm_num) hx
  have hhi : x < 2 ^ (Int.log 2 x + 1) := by
    exact_mod_cast Int.lt_zpow_succ_log_self (b := 2) (by norm_num) x
  have hulp : ulp p x = 2 ^ (Int.log 2 x + 1 - p) := by rw [ulp, abs_of_pos hx]
  have hge := zpow_le_roundBits hp hx hlo rfl
  rcases lt_or_eq_of_le (roundBits_le_zpow hx hhi rfl (p := p)) with hlt | heq
  -- the result is in the binade of `x`, a multiple of the same unit
  · refine roundBits_eq_self (n := roundEven (x / ulp p x)) ?_
    rw [ulp_eq hge hlt, ← hulp, roundBits]
  -- or it is the power of two above
  · refine roundBits_eq_self (n := 2 ^ (p - 1)) ?_
    rw [heq, ulp_eq le_rfl (zpow_lt_zpow_right₀ (by norm_num) (by omega))]
    push_cast
    rw [← zpow_natCast, ← zpow_add₀ (by norm_num)]
    congr 1
    omega

/-- The negative of a rounded value is rounded. -/
theorem roundBits_neg_of_eq_self (h : roundBits p x = x) : roundBits p (-x) = -x := by
  have hulp : ulp p (-x) = ulp p x := by rw [ulp, ulp, abs_neg]
  refine roundBits_eq_self (n := -roundEven (x / ulp p x)) ?_
  rw [hulp]
  push_cast
  rw [neg_mul, ← roundBits, h]

/-! ### Roundings -/

/-- A rounding that keeps the order and the binary fractions with numerators below `2 ^ p`. -/
structure Rounds (p : ℕ) (fl : ℚ → ℚ) : Prop where
  mono : ∀ {x y : ℚ}, 0 ≤ x → x ≤ y → fl x ≤ fl y
  natCast_div : ∀ {n : ℕ}, n < 2 ^ p → ∀ k : ℕ, fl (n / 2 ^ k) = n / 2 ^ k

theorem rounds_id (p : ℕ) : Rounds p id := ⟨fun _ h => h, fun _ _ => rfl⟩

/-- So is every binary format with at least one bit. -/
theorem rounds_roundBits (hp : 0 < p) : Rounds p (roundBits p) :=
  ⟨roundBits_mono hp, roundBits_natCast_div_of_lt⟩

namespace Rounds

variable {fl : ℚ → ℚ}

/-- Naturals below `2 ^ p` are exact. -/
theorem natCast (h : Rounds p fl) {n : ℕ} (hn : n < 2 ^ p) : fl n = n := by
  simpa using h.natCast_div hn 0

theorem zero (h : Rounds p fl) : fl 0 = 0 := by exact_mod_cast h.natCast (Nat.two_pow_pos p)

theorem nonneg (h : Rounds p fl) (hx : 0 ≤ x) : 0 ≤ fl x := by
  simpa only [h.zero] using h.mono le_rfl hx

/-- No rounding passes a natural number that it keeps. -/
theorem natCast_le (h : Rounds p fl) {n : ℕ} (hn : n < 2 ^ p) (hx : (n : ℚ) ≤ x) :
    (n : ℚ) ≤ fl x := by
  simpa only [h.natCast hn] using h.mono (Nat.cast_nonneg n) hx

/-- An upper bound that is exact after a shift of the point survives the rounding. -/
theorem le_natCast_div (h : Rounds p fl) {n : ℕ} (hn : n < 2 ^ p) (k : ℕ) (hx : 0 ≤ x)
    (hxn : x ≤ n / 2 ^ k) : fl x ≤ n / 2 ^ k := by
  simpa only [h.natCast_div hn] using h.mono hx hxn

/-- An exact upper bound survives the rounding. -/
theorem le_natCast (h : Rounds p fl) {n : ℕ} (hn : n < 2 ^ p) (hx : 0 ≤ x) (hxn : x ≤ n) :
    fl x ≤ n := by
  simpa using h.le_natCast_div hn 0 hx (by simpa using hxn)

/-- A rounded value, cut off, is the exact one, cut off or rounded up. -/
theorem floor_le (h : Rounds p fl) (hx : 0 ≤ x) (hlt : x < 2 ^ p) : ⌊x⌋₊ ≤ ⌊fl x⌋₊ := by
  have hfloor : ⌊x⌋₊ < 2 ^ p := (Nat.floor_lt hx).mpr (by exact_mod_cast hlt)
  exact Nat.le_floor (h.natCast_le hfloor (Nat.floor_le hx))

/-- The rounded value, truncated, is at most the exact one rounded up. -/
theorem le_ceil (h : Rounds p fl) (hx : 0 ≤ x) (hle : x ≤ 2 ^ p - 1) : ⌊fl x⌋₊ ≤ ⌈x⌉₊ := by
  have hceil : ⌈x⌉₊ ≤ 2 ^ p - 1 := Nat.ceil_le.mpr (by
    push_cast [Nat.one_le_two_pow]
    exact hle)
  have hpos := Nat.two_pow_pos p
  exact Nat.floor_le_of_le (h.le_natCast (by omega) hx (Nat.le_ceil x))

end Rounds

end Rounding
