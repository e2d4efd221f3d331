import ReverbFPGA.Lib.Rounding
import ReverbFPGA.Software.App

namespace Reverb

/-!
# The words for the parameter registers

With `float` as binary32 and every result in the normal range, an operation rounds to 24
significant bits.  `2 ^ 24 - 1` and `2 ^ 10 - 1` have that many, `2 ^ 25 - 1` does not and is
rounded up to `2 ^ 25`: the word for the damping 1 is `2 ^ 25`, one more than its register
holds.  `param_words_fit_iff` says that this is the only value that does not fit.
-/

open Rounding

namespace App

/-- The rounding of a `float` operation. -/
def single : ℚ → ℚ := roundBits 24

/-- The single format keeps the order of nonnegative values. -/
theorem single_mono {x y : ℚ} (hx : 0 ≤ x) (h : x ≤ y) : single x ≤ single y :=
  roundBits_mono (by norm_num) hx h

/-- Naturals below `2 ^ 24` are single values. -/
theorem single_natCast {n : ℕ} (h : n < 2 ^ 24) : single n = n := roundBits_natCast_of_lt h

theorem single_one : single 1 = 1 := by
  exact_mod_cast single_natCast (n := 1) (by norm_num)

/-! ### Values in the binade of the full scale of 25 bits -/

/-- Around the full scale of 25 bits the spacing of the format is two. -/
theorem ulp_full {x : ℚ} (h1 : 2 ^ 24 ≤ x) (h2 : x < 2 ^ 25) : ulp 24 x = 2 := by
  rw [ulp_eq (e := 24) (by exact_mod_cast h1) (by exact_mod_cast h2)]
  norm_num

/-- The full-scale constant of 25 bits is rounded up. -/
theorem single_full : single (2 ^ 25 - 1) = 2 ^ 25 := by
  have hulp : ulp 24 (2 ^ 25 - 1) = 2 := ulp_full (by norm_num) (by norm_num)
  have hfloor : ⌊((2 ^ 25 - 1) / 2 : ℚ)⌋ = 2 ^ 24 - 1 := by
    rw [Int.floor_eq_iff]
    norm_num
  have hround : roundEven ((2 ^ 25 - 1) / 2) = 2 ^ 24 := by
    unfold roundEven
    rw [hfloor]
    norm_num
  rw [single, roundBits, hulp, hround]
  norm_num

/-- What is below the full scale is rounded down to the even number below it. -/
theorem single_lt_full {x : ℚ} (hx : 0 ≤ x) (h : x < 2 ^ 25 - 1) : single x ≤ 2 ^ 25 - 2 := by
  have hmax : single (2 ^ 25 - 2) = 2 ^ 25 - 2 := by
    have hulp : ulp 24 (2 ^ 25 - 2) = 2 := ulp_full (by norm_num) (by norm_num)
    refine roundBits_eq_self (n := 2 ^ 24 - 1) ?_
    rw [hulp]
    norm_num
  by_cases hle : x ≤ 2 ^ 25 - 2
  -- monotone below an exact value; in the last unit, the nearest even number is below
  · calc single x ≤ single (2 ^ 25 - 2) := single_mono hx hle
      _ = 2 ^ 25 - 2 := hmax
  · have hulp : ulp 24 x = 2 := ulp_full (by linarith) (by linarith)
    have hround : roundEven (x / 2) = 2 ^ 24 - 1 :=
      roundEven_of_lt (by push_cast; linarith) (by push_cast; linarith)
    rw [single, roundBits, hulp, hround]
    norm_num

/-! ### The ranges of the parameters -/

theorem paramValueMIN_nonneg (p : ParamType) : 0 ≤ paramValueMIN single p := by
  cases p <;> exact roundBits_nonneg (by norm_num)

theorem paramValueMAX_le_one (p : ParamType) : paramValueMAX single p ≤ 1 := by
  cases p <;> exact le_of_le_of_eq (single_mono (by norm_num) (by norm_num)) single_one

/-- The largest decay leaves some distance to one. -/
theorem paramValueMAX_decay_le : paramValueMAX single .decay ≤ 61 / 64 := by
  have hulp : ulp 24 (61 / 64) = 2 ^ (-24 : ℤ) := ulp_eq (e := -1) (by norm_num) (by norm_num)
  have hexact : single (61 / 64) = 61 / 64 := by
    refine roundBits_eq_self (n := 61 * 2 ^ 18) ?_
    rw [hulp]
    norm_num
  exact le_of_le_of_eq (single_mono (by norm_num) (by norm_num)) hexact

/-! ### The words -/

variable {p : ParamType} {v v' : ℚ}

/-- A larger value has no smaller word. -/
theorem paramWord_mono (hv : 0 ≤ v) (h : v ≤ v') :
    paramWord single p v ≤ paramWord single p v' := by
  have hfull : 0 ≤ single (2 ^ p.dataWidth - 1) :=
    roundBits_nonneg (by linarith [one_le_pow₀ (show (1 : ℚ) ≤ 2 by norm_num) (n := p.dataWidth)])
  exact Nat.floor_le_floor
    (single_mono (mul_nonneg hv hfull) (mul_le_mul_of_nonneg_right h hfull))

/-- A full-scale constant of at most 24 bits is exact, and no value exceeds it. -/
theorem paramWord_le_of_exact (hw : p.dataWidth ≤ 24) (hv : 0 ≤ v) (h1 : v ≤ 1) :
    paramWord single p v ≤ 2 ^ p.dataWidth - 1 := by
  have hpow : 2 ^ p.dataWidth ≤ 2 ^ 24 := Nat.pow_le_pow_right (by norm_num) hw
  have hpos : 1 ≤ 2 ^ p.dataWidth := Nat.one_le_two_pow
  have hfull : single (2 ^ p.dataWidth - 1) = ((2 ^ p.dataWidth - 1 : ℕ) : ℚ) := by
    rw [← single_natCast (n := 2 ^ p.dataWidth - 1) (by omega)]
    congr 1
    push_cast [hpos]
    ring
  have hnonneg : (0 : ℚ) ≤ ((2 ^ p.dataWidth - 1 : ℕ) : ℚ) := Nat.cast_nonneg _
  refine Nat.floor_le_of_le ?_
  rw [hfull]
  calc single (v * ((2 ^ p.dataWidth - 1 : ℕ) : ℚ))
      ≤ single ((2 ^ p.dataWidth - 1 : ℕ) : ℚ) :=
        single_mono (mul_nonneg hv hnonneg) (mul_le_of_le_one_left hnonneg h1)
    _ = ((2 ^ p.dataWidth - 1 : ℕ) : ℚ) := single_natCast (by omega)

/-- Of 25 bits, the word of a value below the last half unit fits. -/
theorem paramWord_le_of_lt (hw : p.dataWidth = 25) (hv : 0 ≤ v) (h : v < 1 - 1 / 2 ^ 25) :
    paramWord single p v ≤ 2 ^ p.dataWidth - 1 := by
  refine Nat.floor_le_of_le ?_
  rw [hw, single_full]
  have hround := single_lt_full (x := v * 2 ^ 25) (by positivity) (by linarith)
  push_cast
  linarith

/-- Of 25 bits, the word of a value from the last half unit on does not fit. -/
theorem lt_paramWord (hw : p.dataWidth = 25) (h : 1 - 1 / 2 ^ 25 ≤ v) :
    2 ^ p.dataWidth ≤ paramWord single p v := by
  have hround : single (2 ^ 25 - 1) ≤ single (v * 2 ^ 25) :=
    single_mono (by norm_num) (by linarith)
  rw [single_full] at hround
  refine Nat.le_floor ?_
  rw [hw, single_full]
  push_cast
  linarith

/-- **Which words fit**: all but that of a damping from the last half unit on. -/
theorem paramWord_le_iff (hp : p ≠ .noneParam) (hv : paramValueMIN single p ≤ v)
    (hv' : v ≤ paramValueMAX single p) :
    paramWord single p v ≤ 2 ^ p.dataWidth - 1 ↔ ¬(p = .damping ∧ 1 - 1 / 2 ^ 25 ≤ v) := by
  have h0 : 0 ≤ v := le_trans (paramValueMIN_nonneg p) hv
  have h1 : v ≤ 1 := le_trans hv' (paramValueMAX_le_one p)
  cases p with
  | noneParam => exact absurd rfl hp
  | mix | predelay =>
    exact iff_of_true (paramWord_le_of_exact (by decide) h0 h1) (by simp)
  -- 25 bits as well, but the largest decay is far from 1
  | decay =>
    have hdecay := le_trans hv' paramValueMAX_decay_le
    refine iff_of_true (paramWord_le_of_lt rfl h0 ?_) (by simp)
    linarith
  | damping =>
    simp only [true_and, not_le]
    constructor
    · intro hle
      by_contra hge
      have := lt_paramWord (p := .damping) rfl (not_lt.mp hge)
      simp only [ParamType.dataWidth] at this hle
      omega
    · exact fun hlt => paramWord_le_of_lt rfl h0 hlt

/-! ### The registers -/

/-- The word for the value `v` fits, and the register content `reg` is the whole word. -/
def HoldsWord (p : ParamType) (v : ℚ) (reg : ℕ) : Prop :=
  paramWord single p v ≤ 2 ^ p.dataWidth - 1 ∧ reg = paramWord single p v

/-- What is true of the low bits of the two words, whichever function writes them. -/
theorem low_bits_iff (hp : p ≠ .noneParam) (hv : paramValueMIN single p ≤ v) (hvv' : v ≤ v')
    (hv' : v' ≤ paramValueMAX single p) :
    (HoldsWord p v (paramWord single p v % 2 ^ p.dataWidth) ∧
        HoldsWord p v' (paramWord single p v' % 2 ^ p.dataWidth) ∧
        paramWord single p v % 2 ^ p.dataWidth ≤ paramWord single p v' % 2 ^ p.dataWidth) ↔
      ¬(p = .damping ∧ 1 - 1 / 2 ^ 25 ≤ v') := by
  have hle := paramWord_le_iff hp (le_trans hv hvv') hv'
  have hmono := paramWord_mono (p := p) (le_trans (paramValueMIN_nonneg p) hv) hvv'
  have hpos : 0 < 2 ^ p.dataWidth := Nat.two_pow_pos _
  constructor
  · rintro ⟨-, ⟨hfits, -⟩, -⟩
    exact hle.mp hfits
  · intro hnot
    have hfits' := hle.mpr hnot
    have hmod : paramWord single p v % 2 ^ p.dataWidth = paramWord single p v :=
      Nat.mod_eq_of_lt (by omega)
    have hmod' : paramWord single p v' % 2 ^ p.dataWidth = paramWord single p v' :=
      Nat.mod_eq_of_lt (by omega)
    exact ⟨⟨by omega, hmod⟩, ⟨hfits', hmod'⟩, by rw [hmod, hmod']; exact hmono⟩

/-- **When the words fit and the registers are monotone.** For `v ≤ v'` in the range of a
    parameter, after `updateParamValue` has set them, and after `initParamValue` where that
    writes the parameter: both registers hold the whole word, in the order of the values,
    exactly if the parameter is not the damping with `v'` in the last half unit below 1. -/
theorem param_words_fit_iff (hp : p ≠ .noneParam) (hv : paramValueMIN single p ≤ v)
    (hvv' : v ≤ v') (hv' : v' ≤ paramValueMAX single p) (s s' : App) :
    (∀ u u', (s.updateParamValue single p u).currentParamValue p = v →
      (s'.updateParamValue single p u').currentParamValue p = v' →
      ((HoldsWord p v ((s.updateParamValue single p u).params.read p) ∧
          HoldsWord p v' ((s'.updateParamValue single p u').params.read p) ∧
          (s.updateParamValue single p u).params.read p ≤
            (s'.updateParamValue single p u').params.read p) ↔
        ¬(p = .damping ∧ 1 - 1 / 2 ^ 25 ≤ v'))) ∧
    (p ≠ .predelay → s.currentParamValue p = v → s'.currentParamValue p = v' →
      ((HoldsWord p v ((s.initParamValue single).params.read p) ∧
          HoldsWord p v' ((s'.initParamValue single).params.read p) ∧
          (s.initParamValue single).params.read p ≤ (s'.initParamValue single).params.read p) ↔
        ¬(p = .damping ∧ 1 - 1 / 2 ^ 25 ≤ v'))) := by
  have hiff := low_bits_iff hp hv hvv' hv'
  constructor
  · intro u u' hs hs'
    rw [updateParamValue_params single hp, updateParamValue_params single hp, hs, hs',
      Params.read_write, Params.read_write]
    exact hiff
  · intro hpre hs hs'
    rw [initParamValue_read single s hp, initParamValue_read single s' hp, if_neg hpre,
      if_neg hpre, hs, hs']
    exact hiff

/-- Without an update an exact value in the range stays. -/
theorem updatedValue_none (hexact : single v = v) (hmin : paramValueMIN single p ≤ v)
    (hmax : v ≤ paramValueMAX single p) : updatedValue single p .none v = v := by
  have hzero : single 0 = 0 := by exact_mod_cast single_natCast (n := 0) (by norm_num)
  have hstep : single (v + single (single (UpdateType.none.value : ℤ) * paramValueIncr single p)) =
      v := by
    rw [UpdateType.value, Int.cast_zero, hzero, zero_mul, hzero, add_zero, hexact]
  rw [updatedValue, hstep, clamp, min_eq_left hmax, max_eq_right hmin]

/-- The program with all its values at `v`. -/
def valuesAt (v : ℚ) : App :=
  { start single resetParams resetHex with currentParamValue := fun _ => v }

/-- A damping of a quarter and one of a half: `updateParamValue` and `initParamValue` leave the
    whole words in the register, in their order. -/
theorem param_words_fit_rising :
    (HoldsWord .damping (1 / 4)
        (((valuesAt (1 / 4)).updateParamValue single .damping .none).params.read .damping) ∧
      HoldsWord .damping (1 / 2)
        (((valuesAt (1 / 2)).updateParamValue single .damping .none).params.read .damping) ∧
      ((valuesAt (1 / 4)).updateParamValue single .damping .none).params.read .damping ≤
        ((valuesAt (1 / 2)).updateParamValue single .damping .none).params.read .damping) ∧
    HoldsWord .damping (1 / 4)
        (((valuesAt (1 / 4)).initParamValue single).params.read .damping) ∧
      HoldsWord .damping (1 / 2)
        (((valuesAt (1 / 2)).initParamValue single).params.read .damping) ∧
      ((valuesAt (1 / 4)).initParamValue single).params.read .damping ≤
        ((valuesAt (1 / 2)).initParamValue single).params.read .damping := by
  have hquarter : single (1 / 4) = 1 / 4 := by
    refine roundBits_eq_self (n := 2 ^ 23) ?_
    rw [ulp_eq (e := -2) (by norm_num) (by norm_num)]
    norm_num
  have hhalf : single (1 / 2) = 1 / 2 := by
    refine roundBits_eq_self (n := 2 ^ 23) ?_
    rw [ulp_eq (e := -1) (by norm_num) (by norm_num)]
    norm_num
  have hmin : paramValueMIN single .damping ≤ 1 / 4 :=
    le_of_le_of_eq (single_mono (by norm_num) (by norm_num)) hquarter
  have hmax : 1 / 2 ≤ paramValueMAX single .damping :=
    le_of_eq_of_le hhalf.symm (single_mono (by norm_num) (by norm_num))
  have hle : (1 / 4 : ℚ) ≤ 1 / 2 := by norm_num
  have hfit := param_words_fit_iff (p := .damping) (by decide) hmin hle hmax (valuesAt (1 / 4))
    (valuesAt (1 / 2))
  have hbelow : ¬((ParamType.damping = .damping) ∧ 1 - 1 / 2 ^ 25 ≤ (1 / 2 : ℚ)) := by norm_num
  refine ⟨(hfit.1 .none .none ?_ ?_).mpr hbelow, (hfit.2 (by decide) rfl rfl).mpr hbelow⟩
  · rw [updateParamValue_currentParamValue single (by decide), Function.update_self]
    exact updatedValue_none hquarter hmin (hle.trans hmax)
  · rw [updateParamValue_currentParamValue single (by decide), Function.update_self]
    exact updatedValue_none hhalf (hmin.trans hle) hmax

/-- The word of the damping 1, which is in range, does not fit: the register keeps none of its
    bits. -/
theorem full_damping_word_overflows :
    paramValueMIN single .damping ≤ 1 ∧ 1 ≤ paramValueMAX single .damping ∧
      ¬ paramWord single .damping 1 ≤ 2 ^ ParamType.damping.dataWidth - 1 ∧
      (resetParams.write .damping (paramWord single .damping 1)).read .damping = 0 := by
  have hone : paramValueMAX single .damping = 1 := single_one
  have hword : paramWord single .damping 1 = 2 ^ 25 := by
    have hexact : single (2 ^ 25) = 2 ^ 25 := by
      refine roundBits_eq_self (n := 2 ^ 23) ?_
      rw [ulp_eq (e := 25) (by norm_num) (by norm_num)]
      norm_num
    show ⌊single (1 * single (2 ^ 25 - 1))⌋₊ = 2 ^ 25
    rw [single_full, one_mul, hexact]
    exact_mod_cast Nat.floor_natCast (R := ℚ) (2 ^ 25)
  refine ⟨?_, le_of_eq hone.symm, ?_, ?_⟩
  · exact le_of_le_of_eq (single_mono (by norm_num) (by norm_num)) single_one
  · rw [hword]
    decide
  · rw [Params.read_write, hword]
    decide

end App

end Reverb
