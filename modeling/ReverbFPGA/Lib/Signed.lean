import Mathlib.Algebra.BigOperators.Fin
import Mathlib.Data.BitVec
import Mathlib.Tactic.Ring
import Mathlib.Tactic.Linarith
import Mathlib.Tactic.Positivity
import Mathlib.Tactic.NormNum

namespace Signed

/-!
# Two's-complement vectors

The operations that hardware libraries give on `signed` vectors and that differ from those
of `BitVec`, each with its value over the integers:

* `resize n x` — sign extension, or a truncation that keeps the sign bit and the low
  `n - 1` bits.  It is exact when the value fits (`toInt_resize`);
* `toInt_sum_eight` — the sum of eight words with three guard bits is exact;
* `mul x y` — the product at the sum of the two lengths, always exact (`toInt_mul`);
* `slice`s down to a bit `b` divide by `2 ^ b`, rounding down (`toInt_slice`);
* `Fits w v` — the value `v` has a `w`-bit two's-complement code.
-/

variable {w n : ℕ}

/-! ### Values that fit -/

/-- `v` is a value of `w`-bit two's complement. -/
def Fits (w : ℕ) (v : ℤ) : Prop := -2 ^ w ≤ 2 * v ∧ 2 * v < 2 ^ w

instance (w : ℕ) (v : ℤ) : Decidable (Fits w v) := inferInstanceAs (Decidable (_ ∧ _))

/-- A word has its own width. -/
theorem fits_toInt (x : BitVec w) : Fits w x.toInt :=
  ⟨BitVec.le_two_mul_toInt, BitVec.two_mul_toInt_lt⟩

/-- A value that fits survives the reduction modulo `2 ^ w`. -/
theorem bmod_of_fits {v : ℤ} (h : Fits w v) : v.bmod (2 ^ w) = v := by
  apply Int.bmod_eq_of_le_mul_two
  · have := h.1; push_cast; linarith
  · have := h.2; push_cast; linarith

/-- A value one turn too low comes out at the top. -/
theorem bmod_of_fits_add {v : ℤ} (h : Fits w (v + 2 ^ w)) : v.bmod (2 ^ w) = v + 2 ^ w := by
  have hturn : (v + ((2 ^ w : ℕ) : ℤ)).bmod (2 ^ w) = v.bmod (2 ^ w) := Int.add_bmod_right v _
  rw [← hturn]
  push_cast
  exact bmod_of_fits h

/-- An addition whose exact sum fits does not wrap. -/
theorem toInt_add {x y : BitVec w} (h : Fits w (x.toInt + y.toInt)) :
    (x + y).toInt = x.toInt + y.toInt := by
  rw [BitVec.toInt_add, bmod_of_fits h]

/-- A sum that fits does not wrap, with the two values given apart. -/
theorem toInt_add_of {x y : BitVec w} {m n : ℤ} (hx : x.toInt = m) (hy : y.toInt = n)
    (h : Fits w (m + n)) : (x + y).toInt = m + n := by
  subst hx hy
  exact toInt_add h

/-! ### `resize` -/

/-- Sign extension to `n` bits, or the sign bit in front of the low `n - 1` bits. -/
def resize (n : ℕ) (x : BitVec w) : BitVec n :=
  if w ≤ n then x.signExtend n
  else (BitVec.cons x.msb (x.setWidth (n - 1))).setWidth n

/-- Lengthening keeps the value. -/
theorem toInt_resize_of_le (x : BitVec w) (h : w ≤ n) : (resize n x).toInt = x.toInt := by
  rw [resize, if_pos h, BitVec.toInt_signExtend_of_le h]

/-- Shortening an extended vector gives it back. -/
theorem resize_signExtend (y : BitVec n) (h : n < w) : resize n (y.signExtend w) = y := by
  rw [resize, if_neg (by omega)]
  apply BitVec.eq_of_getLsbD_eq
  intro i hi
  rw [BitVec.getLsbD_setWidth, BitVec.getLsbD_cons]
  simp only [hi, decide_true, Bool.true_and]
  split_ifs with h1
  · -- the top bit is the sign
    rw [BitVec.msb_signExtend, if_neg (by omega), BitVec.msb_eq_getLsbD_last, h1]
    simp [show 0 < w by omega]
  · rw [BitVec.getLsbD_setWidth, BitVec.getLsbD_signExtend, if_pos hi]
    simp [show i < n - 1 by omega, show i < w by omega]

/-- **`resize` is exact on every value that fits**, longer or shorter. -/
theorem toInt_resize (x : BitVec w) (h : Fits n x.toInt) :
    (resize n x).toInt = x.toInt := by
  rcases Nat.lt_or_ge n w with hlt | hge
  · have hy : (BitVec.ofInt n x.toInt).toInt = x.toInt := by
      rw [BitVec.toInt_ofInt, bmod_of_fits h]
    have hx : (BitVec.ofInt n x.toInt).signExtend w = x := by
      apply BitVec.eq_of_toInt_eq
      rw [BitVec.toInt_signExtend_of_le (le_of_lt hlt), hy]
    conv_lhs => rw [← hx]
    rw [resize_signExtend _ hlt, hy]
  · exact toInt_resize_of_le x hge

/-- **Three guard bits are enough for eight words.** -/
theorem toInt_sum_eight (a : Fin 8 → BitVec w) :
    (resize (w + 3) (a 0) + resize (w + 3) (a 1) + resize (w + 3) (a 2) + resize (w + 3) (a 3) +
      resize (w + 3) (a 4) + resize (w + 3) (a 5) + resize (w + 3) (a 6) +
      resize (w + 3) (a 7)).toInt = ∑ j, (a j).toInt := by
  have hpow : (2 : ℤ) ^ (w + 3) = 8 * 2 ^ w := by ring
  have hval : ∀ j, (resize (w + 3) (a j)).toInt = (a j).toInt := fun j =>
    toInt_resize_of_le _ (by omega)
  have hfits : Fits (w + 3) (∑ j, (a j).toInt) := by
    obtain ⟨hlo0, hhi0⟩ := fits_toInt (a 0)
    obtain ⟨hlo1, hhi1⟩ := fits_toInt (a 1)
    obtain ⟨hlo2, hhi2⟩ := fits_toInt (a 2)
    obtain ⟨hlo3, hhi3⟩ := fits_toInt (a 3)
    obtain ⟨hlo4, hhi4⟩ := fits_toInt (a 4)
    obtain ⟨hlo5, hhi5⟩ := fits_toInt (a 5)
    obtain ⟨hlo6, hhi6⟩ := fits_toInt (a 6)
    obtain ⟨hlo7, hhi7⟩ := fits_toInt (a 7)
    rw [Fin.sum_univ_eight]
    exact ⟨by omega, by omega⟩
  -- the additions wrap modulo `2 ^ (w + 3)`, so that only the last sum has to fit
  rw [← bmod_of_fits hfits, Fin.sum_univ_eight]
  simp only [BitVec.toInt_add, hval, Int.bmod_add_bmod]

/-- Shortening keeps a value exactly if it fits. -/
theorem fits_and_toInt_resize_iff (x : BitVec w) :
    Fits n x.toInt ∧ (resize n x).toInt = x.toInt ↔ Fits n x.toInt :=
  ⟨And.left, fun h => ⟨h, toInt_resize x h⟩⟩

/-! ### Halves -/

/-- The half, truncated toward zero: of the magnitude, rounded down. -/
theorem tdiv_two_cases (v : ℤ) :
    0 ≤ v ∧ v.tdiv 2 = v / 2 ∨ v < 0 ∧ v.tdiv 2 = -(-v / 2) := by
  rcases le_or_gt 0 v with hv | hv
  · exact Or.inl ⟨hv, Int.tdiv_eq_ediv_of_nonneg hv⟩
  · have hneg := Int.tdiv_eq_ediv_of_nonneg (b := 2) (show 0 ≤ -v by omega)
    rw [Int.neg_tdiv] at hneg
    exact Or.inr ⟨hv, by omega⟩

/-! ### Products and slices -/

/-- The product of two `signed` vectors, as long as both together. -/
def mul (x : BitVec w) (y : BitVec n) : BitVec (w + n) :=
  x.signExtend (w + n) * y.signExtend (w + n)

/-- **The full-length product is exact.** -/
theorem toInt_mul (x : BitVec w) (y : BitVec n) : (mul x y).toInt = x.toInt * y.toInt := by
  rw [mul, BitVec.toInt_mul, BitVec.toInt_signExtend_of_le (by omega),
    BitVec.toInt_signExtend_of_le (by omega)]
  refine bmod_of_fits ?_
  -- `|x| ≤ 2^w / 2` and `|y| ≤ 2^n / 2`, so `|x y| ≤ 2^(w+n) / 4`
  obtain ⟨hx1, hx2⟩ := fits_toInt x
  obtain ⟨hy1, hy2⟩ := fits_toInt y
  have hw : (0 : ℤ) < 2 ^ w := by positivity
  have hn : (0 : ℤ) < 2 ^ n := by positivity
  have hxabs : |2 * x.toInt| ≤ 2 ^ w := abs_le.mpr ⟨hx1, le_of_lt hx2⟩
  have hyabs : |2 * y.toInt| ≤ 2 ^ n := abs_le.mpr ⟨hy1, le_of_lt hy2⟩
  have hprod : |2 * x.toInt * (2 * y.toInt)| ≤ 2 ^ w * 2 ^ n := by
    rw [abs_mul]
    exact mul_le_mul hxabs hyabs (abs_nonneg _) (le_of_lt hw)
  have hpos : (0 : ℤ) < 2 ^ w * 2 ^ n := mul_pos hw hn
  obtain ⟨h1, h2⟩ := abs_le.mp hprod
  refine ⟨?_, ?_⟩ <;> rw [pow_add] <;> linarith

/-- The bits from `b` up. -/
def slice (b a : ℕ) (x : BitVec n) : BitVec a := x.extractLsb' b a

/-- **A slice down to bit `b`** of a vector of `a + b` bits divides by `2 ^ b`, rounding down. -/
theorem toInt_slice {a b : ℕ} (x : BitVec n) (hn : n = a + b) (ha : 0 < a) :
    (slice b a x).toInt = x.toInt / 2 ^ b := by
  subst hn
  have hlt := x.isLt
  have hb : 0 < 2 ^ b := Nat.two_pow_pos b
  obtain ⟨a, rfl⟩ : ∃ k, a = k + 1 := ⟨a - 1, by omega⟩
  have hq : x.toNat / 2 ^ b < 2 ^ (a + 1) := by
    rw [Nat.div_lt_iff_lt_mul hb, ← pow_add]; exact hlt
  have hcond : 2 * x.toNat < 2 ^ (a + 1 + b) ↔ 2 * (x.toNat / 2 ^ b) < 2 ^ (a + 1) := by
    rw [pow_add, pow_succ]
    constructor
    · intro h
      have : x.toNat / 2 ^ b < 2 ^ a := by rw [Nat.div_lt_iff_lt_mul hb]; linarith
      omega
    · intro h
      have h' : x.toNat / 2 ^ b < 2 ^ a := by omega
      rw [Nat.div_lt_iff_lt_mul hb] at h'
      linarith
  rw [BitVec.toInt_eq_toNat_cond, BitVec.toInt_eq_toNat_cond, slice, BitVec.extractLsb'_toNat,
    Nat.shiftRight_eq_div_pow, Nat.mod_eq_of_lt hq]
  by_cases hc : 2 * x.toNat < 2 ^ (a + 1 + b)
  · rw [if_pos hc, if_pos (hcond.mp hc)]
    push_cast; rfl
  · rw [if_neg hc, if_neg (fun h => hc (hcond.mpr h))]
    have hb' : ((2 : ℤ) ^ b) ≠ 0 := by positivity
    push_cast
    rw [pow_add 2 (a + 1) b, sub_eq_add_neg, sub_eq_add_neg, ← neg_mul,
      Int.add_mul_ediv_right _ _ hb']

/-- The sign bit `'0'` in front of an unsigned vector. -/
theorem toInt_cons_false (c : BitVec w) : (BitVec.cons false c).toInt = c.toNat := by
  rw [BitVec.toInt_eq_toNat_of_msb BitVec.msb_cons, BitVec.toNat_cons']
  simp

end Signed
