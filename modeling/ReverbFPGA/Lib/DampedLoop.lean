import Mathlib.Algebra.Order.Field.Basic
import Mathlib.Algebra.Order.Ring.Pow
import Mathlib.Tactic.FieldSimp
import Mathlib.Tactic.Linarith
import Mathlib.Tactic.NormNum
import Mathlib.Tactic.Positivity
import Mathlib.Tactic.Ring

namespace DampedLoop

/-!
# A feedback loop with a low-pass filter and losses

A loop of `D` ticks: at tick `n` the delayed word `w n` enters a one-pole filter with the register
`y n`, and the filtered value, times the gain `γ` of the loop, is delayed again.  Each of the two
steps may lose something, `q` and `r` at most:

* `Lossy` — the two steps as inequalities, which say nothing on where the losses come from;
* `Gains` — a filter with a gain of at most 1 and a settling time of at most `k` ticks, and
  `γ ≤ c / (c + 1)`;
* `Lossy.envelope` — the loop stays above `-(R + A * λ ^ n)`: of what it holds at the start only an
  exponentially small part is left, and the losses add up to `R` at most;
* `Lossy.halved` — that part halves every `halfLife` ticks.

A bound from above is a bound from below of the negated sequences.
-/

variable {F : Type*} [Field F] [LinearOrder F] [IsStrictOrderedRing F]

/-! ### The rate of the decay -/

/-- After so many ticks less than half is left. -/
def halfLife (c k D : ℕ) : ℕ := (c + 1) * (D - 1 + k)

/-- What is left after a tick. -/
def rate (c k D : ℕ) : F := 1 - 1 / (halfLife c k D : F)

variable {c k D : ℕ}

/-- The half-life is at least one tick. -/
theorem halfLife_pos (hk : 0 < k) : 0 < halfLife c k D := Nat.mul_pos (by omega) (by omega)

theorem rate_nonneg (hk : 0 < k) : (0 : F) ≤ rate c k D := by
  have hm : (1 : F) ≤ halfLife c k D := by exact_mod_cast halfLife_pos hk
  have : 1 / (halfLife c k D : F) ≤ 1 := (div_le_one (by linarith)).mpr hm
  unfold rate
  linarith

theorem rate_le_one : (rate c k D : F) ≤ 1 := by
  have : (0 : F) ≤ 1 / halfLife c k D := by positivity
  unfold rate
  linarith

/-- With `m` the half-life, `(1 - 1 / m) ^ m` is at most the inverse of `(1 + 1 / m) ^ m ≥ 2`. -/
theorem rate_pow_halfLife (hk : 0 < k) : (rate c k D : F) ^ halfLife c k D ≤ 1 / 2 := by
  have hm : (0 : F) < halfLife c k D := by exact_mod_cast halfLife_pos hk
  have hε : (0 : F) ≤ 1 / halfLife c k D := by positivity
  have hgrow : (2 : F) ≤ (1 + 1 / (halfLife c k D : F)) ^ halfLife c k D := calc
    (2 : F) = 1 + halfLife c k D * (1 / (halfLife c k D : F)) := by field_simp; norm_num
    _ ≤ _ := one_add_mul_le_pow (by linarith) _
  have hprod : (rate c k D : F) ^ halfLife c k D *
      (1 + 1 / (halfLife c k D : F)) ^ halfLife c k D ≤ 1 := by
    rw [← mul_pow]
    have hnonneg := rate_nonneg (F := F) (c := c) (D := D) hk
    refine pow_le_one₀ (mul_nonneg hnonneg (by linarith)) ?_
    have hsq : (0 : F) ≤ 1 / halfLife c k D * (1 / halfLife c k D) := mul_nonneg hε hε
    unfold rate
    linarith
  have hpow : (0 : F) ≤ rate c k D ^ halfLife c k D := pow_nonneg (rate_nonneg hk) _
  have := mul_le_mul_of_nonneg_left hgrow hpow
  linarith

/-- After `j` half-lives. -/
theorem rate_pow_le (hk : 0 < k) {j n : ℕ} (hn : j * halfLife c k D ≤ n) :
    (rate c k D : F) ^ n ≤ 1 / 2 ^ j := calc
  (rate c k D : F) ^ n ≤ rate c k D ^ (halfLife c k D * j) :=
    pow_le_pow_of_le_one (rate_nonneg hk) rate_le_one (by rwa [mul_comm])
  _ = (rate c k D ^ halfLife c k D) ^ j := pow_mul _ _ _
  _ ≤ (1 / 2) ^ j := pow_le_pow_left₀ (pow_nonneg (rate_nonneg hk) _) (rate_pow_halfLife hk) j
  _ = 1 / 2 ^ j := one_div_pow 2 j

/-- Within one turn of the loop no more is lost than the gain of the loop takes, with the settling
    time of the filter on top. -/
theorem turn_le (hD : 0 < D) (hk : 0 < k) :
    (c : F) / (c + 1) ≤ rate c k D ^ (D - 1) * (1 - k * (1 / halfLife c k D)) := by
  rw [mul_one_div]
  obtain ⟨D, rfl⟩ : ∃ E, D = E + 1 := ⟨D - 1, by omega⟩
  have hm : (0 : F) < halfLife c k (D + 1) := by exact_mod_cast halfLife_pos hk
  have hcast : (halfLife c k (D + 1) : F) = (c + 1) * (D + k) := by
    simp [halfLife]
  have hk0 : (0 : F) < k := by exact_mod_cast hk
  have hD0 : (0 : F) ≤ D := Nat.cast_nonneg _
  have hc0 : (0 : F) ≤ c := Nat.cast_nonneg _
  have hpow : 1 - D / (halfLife c k (D + 1) : F) ≤ rate c k (D + 1) ^ D := by
    have hbern := one_add_mul_le_pow (a := -(1 / (halfLife c k (D + 1) : F)))
      (by have := rate_nonneg (F := F) (c := c) (D := D + 1) hk; unfold rate at this; linarith) D
    calc 1 - D / (halfLife c k (D + 1) : F) = 1 + D * -(1 / (halfLife c k (D + 1) : F)) := by ring
      _ ≤ (1 + -(1 / (halfLife c k (D + 1) : F))) ^ D := hbern
      _ = rate c k (D + 1) ^ D := by rw [rate, sub_eq_add_neg]
  have hsettle : 0 ≤ 1 - k / (halfLife c k (D + 1) : F) := by
    rw [sub_nonneg, div_le_one hm, hcast]
    nlinarith
  calc (c : F) / (c + 1) = 1 - D / (halfLife c k (D + 1) : F) - k / halfLife c k (D + 1) := by
        rw [hcast]
        have : (D : F) + k ≠ 0 := by positivity
        field_simp
        ring
    _ ≤ (1 - D / (halfLife c k (D + 1) : F)) * (1 - k / halfLife c k (D + 1)) := by
        have : 0 ≤ D / (halfLife c k (D + 1) : F) * (k / halfLife c k (D + 1)) := by positivity
        linarith
    _ ≤ rate c k (D + 1) ^ (D + 1 - 1) * (1 - k / halfLife c k (D + 1)) :=
        mul_le_mul_of_nonneg_right hpow hsettle

/-! ### The loop -/

/-- The gains `a` and `δ` of the filter and `γ` of the loop. -/
structure Gains (a δ γ : F) (c k : ℕ) : Prop where
  a_nonneg : 0 ≤ a
  δ_nonneg : 0 ≤ δ
  add_le_one : a + δ ≤ 1
  settles : 1 ≤ k * (1 - δ)
  γ_nonneg : 0 ≤ γ
  γ_le : γ ≤ c / (c + 1)

/-- The delayed words `w` and the register `y` before each tick; the filter loses `q` at most and
    the gain of the loop `r`. -/
structure Lossy (a δ γ q r : F) (D : ℕ) (w y : ℕ → F) : Prop where
  filter : ∀ n, a * w n + δ * y n - q ≤ y (n + 1)
  feed : ∀ n, γ * y (n + 1) - r ≤ w (n + D)

variable {a δ γ q r A : F} {w y : ℕ → F}

namespace Gains

/-- The filter settles, so that `k` is not zero. -/
theorem k_pos (h : Gains a δ γ c k) : 0 < k := by
  rcases Nat.eq_zero_or_pos k with rfl | hk
  · have := h.settles
    simp at this
    linarith
  · exact hk

end Gains

/-- The losses add up to `R`: in the words by `r` a turn, and in the filter by `k * q` on top. -/
def residue (q r : F) (c k : ℕ) : F := c * (k * q) + (c + 1) * r

namespace Lossy

/-- The filter does not let the decaying part grow. -/
theorem filter_part {ε l : F} (h : Gains a δ γ c k) (hl : 0 ≤ l) (hA : 0 ≤ A) (hε : 0 ≤ ε)
    (hk : k * ε < 1) :
    a * (A * l) + δ * (A / (1 - k * ε) * l) ≤ A / (1 - k * ε) * (l * (1 - ε)) := by
  have hρ : 0 < 1 - k * ε := by linarith
  have hAl : 0 ≤ A / (1 - k * ε) * l := mul_nonneg (div_nonneg hA hρ.le) hl
  have ha : a ≤ 1 - δ := by linarith [h.add_le_one]
  have hsettle : ε ≤ (1 - δ) * (k * ε) := by nlinarith [h.settles]
  have hsplit : A * l = A / (1 - k * ε) * l * (1 - k * ε) := by
    field_simp
  have hgain : a * (1 - k * ε) ≤ (1 - δ) * (1 - k * ε) := mul_le_mul_of_nonneg_right ha hρ.le
  calc a * (A * l) + δ * (A / (1 - k * ε) * l)
      = A / (1 - k * ε) * l * (a * (1 - k * ε) + δ) := by rw [hsplit]; ring
    _ ≤ A / (1 - k * ε) * l * (1 - ε) := mul_le_mul_of_nonneg_left (by linarith) hAl
    _ = A / (1 - k * ε) * (l * (1 - ε)) := by ring

/-- One tick of the filter. -/
theorem filter_ge {R ε l : F} (h : Lossy a δ γ q r D w y) (hg : Gains a δ γ c k) (hR : 0 ≤ R)
    (hq : 0 ≤ q) (hl : 0 ≤ l) (hA : 0 ≤ A) (hε : 0 ≤ ε) (hk : k * ε < 1) {n : ℕ}
    (hw : -(R + A * l) ≤ w n) (hy : -(R + k * q + A / (1 - k * ε) * l) ≤ y n) :
    -(R + k * q + A / (1 - k * ε) * (l * (1 - ε))) ≤ y (n + 1) := by
  have hpart := filter_part hg hl hA hε hk
  have ha := mul_le_mul_of_nonneg_left hw hg.a_nonneg
  have hδ := mul_le_mul_of_nonneg_left hy hg.δ_nonneg
  have hloss : q ≤ q * (k * (1 - δ)) := le_mul_of_one_le_right hq hg.settles
  have hsum : (a + δ) * R ≤ 1 * R := mul_le_mul_of_nonneg_right hg.add_le_one hR
  linarith [h.filter n]

/-- One turn of the loop. -/
theorem feed_ge {Y l : F} (h : Lossy a δ γ q r D w y) (hg : Gains a δ γ c k) (hq : 0 ≤ q)
    (hr : 0 ≤ r) (hl : 0 ≤ l) (hY : c / (c + 1) * Y ≤ A * rate c k D ^ (D - 1)) (hY0 : 0 ≤ Y)
    {n : ℕ} (hy : -(residue q r c k + k * q + Y * l) ≤ y (n + 1)) :
    -(residue q r c k + A * (l * rate c k D ^ (D - 1))) ≤ w (n + D) := by
  have hc : (0 : F) ≤ c := Nat.cast_nonneg c
  have hbound : 0 ≤ residue q r c k + k * q + Y * l := by
    have : 0 ≤ Y * l := mul_nonneg hY0 hl
    unfold residue
    positivity
  have hγ := mul_le_mul_of_nonneg_left hy hg.γ_nonneg
  have hcut := mul_le_mul_of_nonneg_right hg.γ_le hbound
  have hres : c / (c + 1) * (residue q r c k + k * q) + r = residue q r c k := by
    unfold residue
    field_simp
    ring
  have hpart := mul_le_mul_of_nonneg_right hY hl
  linarith [h.feed n]

/-- Of two factors with a product of at least one half, the first one at most 1. -/
theorem half_le_of_mul {s t : F} (hs0 : 0 ≤ s) (hs1 : s ≤ 1) (h : 1 / 2 ≤ s * t) : 1 / 2 ≤ t := by
  rcases le_total t 0 with ht | ht
  · have := mul_nonpos_of_nonneg_of_nonpos hs0 ht
    linarith
  · exact h.trans (mul_le_of_le_one_left ht hs1)

/-- **What a loop with losses holds stays above an exponential envelope**: the losses add up to
    `residue` at most, and of the magnitude `A` at the start `2 * A * rate ^ n` is left.  By
    induction over the ticks, with the register ahead of the word that it feeds. -/
theorem envelope (h : Lossy a δ γ q r D w y) (hg : Gains a δ γ c k) (hc : 0 < c) (hD : 0 < D)
    (hq : 0 ≤ q) (hr : 0 ≤ r) (hA : 0 ≤ A) (hw : ∀ n < D, -A ≤ w n) (hy : -A ≤ y 0) (n : ℕ) :
    -(residue q r c k + 2 * A * rate c k D ^ n) ≤ w n ∧
      -(residue q r c k + k * q + 4 * A * rate c k D ^ n) ≤ y n := by
  have hk := hg.k_pos
  have hR : 0 ≤ residue q r c k := by unfold residue; positivity
  have hkq : 0 ≤ k * q := by positivity
  have hε : (0 : F) ≤ 1 / halfLife c k D := by positivity
  have hκ : (0 : F) ≤ k * (1 / halfLife c k D) := by positivity
  have hpow : ∀ n, (0 : F) ≤ rate c k D ^ n := fun n => pow_nonneg (rate_nonneg hk) n
  have hpow1 : ∀ n, (rate c k D : F) ^ n ≤ 1 := fun n => pow_le_one₀ (rate_nonneg hk) rate_le_one
  -- a turn of the loop loses less than half, by the delay and by the filter
  have hturn : (c : F) / (c + 1) ≤ _ := turn_le (c := c) hD hk
  have hhalf : (1 : F) / 2 ≤ c / (c + 1) := by
    have : (1 : F) ≤ c := by exact_mod_cast hc
    rw [div_le_div_iff₀ (by norm_num) (by linarith)]
    linarith
  have hρ := half_le_of_mul (hpow (D - 1)) (hpow1 (D - 1)) (hhalf.trans hturn)
  have hl := half_le_of_mul (by linarith) (by linarith)
    ((hhalf.trans hturn).trans_eq (mul_comm _ _))
  have hY0 : 0 ≤ 2 * A / (1 - k * (1 / halfLife c k D)) := div_nonneg (by linarith) (by linarith)
  have hY : 2 * A / (1 - k * (1 / halfLife c k D)) ≤ 4 * A := by
    rw [div_le_iff₀ (by linarith)]
    nlinarith
  have hcut : c / (c + 1) * (2 * A / (1 - k * (1 / halfLife c k D))) ≤
      2 * A * rate c k D ^ (D - 1) := by
    rw [mul_div_assoc', div_le_iff₀ (by linarith)]
    have := mul_le_mul_of_nonneg_left hturn (by linarith : 0 ≤ 2 * A)
    linarith
  have hboth : ∀ n, -(residue q r c k + 2 * A * rate c k D ^ n) ≤ w n ∧
      -(residue q r c k + k * q +
        2 * A / (1 - k * (1 / halfLife c k D)) * rate c k D ^ n) ≤ y n := by
    intro n
    induction n using Nat.strong_induction_on with
    | _ n ih =>
      have hreg : -(residue q r c k + k * q +
          2 * A / (1 - k * (1 / halfLife c k D)) * rate c k D ^ n) ≤ y n := by
        rcases n with _ | n
        · have : A ≤ 2 * A / (1 - k * (1 / halfLife c k D)) := by
            rw [le_div_iff₀ (by linarith)]
            nlinarith
          rw [pow_zero]
          linarith
        · have hstep := h.filter_ge hg hR hq (hpow n) (by linarith : 0 ≤ 2 * A) hε (by linarith)
            (ih n (by omega)).1 (ih n (by omega)).2
          rw [pow_succ]
          exact hstep
      refine ⟨?_, hreg⟩
      rcases Nat.lt_or_ge n D with hlt | hge
      -- a word of the start, not older than a turn
      · have hlate : (rate c k D : F) ^ (D - 1) ≤ rate c k D ^ n :=
          pow_le_pow_of_le_one (rate_nonneg hk) rate_le_one (by omega)
        have := hw n hlt
        nlinarith
      · obtain ⟨m, rfl⟩ : ∃ m, n = m + D := ⟨n - D, by omega⟩
        have hfed : -(residue q r c k + k * q +
            2 * A / (1 - k * (1 / halfLife c k D)) * rate c k D ^ (m + 1)) ≤ y (m + 1) := by
          rcases eq_or_ne D 1 with rfl | hne
          · exact hreg
          · exact (ih (m + 1) (by omega)).2
        have hstep := h.feed_ge hg hq hr (hpow (m + 1)) hcut hY0 hfed
        rwa [← pow_add, show m + 1 + (D - 1) = m + D by omega] at hstep
  obtain ⟨hword, hreg⟩ := hboth n
  refine ⟨hword, ?_⟩
  have := mul_le_mul_of_nonneg_right hY (hpow n)
  linarith

/-- From an empty loop only the losses are left. -/
theorem ge_residue (h : Lossy a δ γ q r D w y) (hg : Gains a δ γ c k) (hc : 0 < c) (hD : 0 < D)
    (hq : 0 ≤ q) (hr : 0 ≤ r) (hw : ∀ n < D, 0 ≤ w n) (hy : 0 ≤ y 0) (n : ℕ) :
    -residue q r c k ≤ w n := by
  have hword := (h.envelope (A := 0) hg hc hD hq hr le_rfl (fun m hm => by simpa using hw m hm)
    (by simpa using hy) n).1
  simpa using hword

/-- **The part of the start halves every `halfLife` ticks.** -/
theorem halved (h : Lossy a δ γ q r D w y) (hg : Gains a δ γ c k) (hc : 0 < c) (hD : 0 < D)
    (hq : 0 ≤ q) (hr : 0 ≤ r) (hA : 0 ≤ A) (hw : ∀ n < D, -A ≤ w n) (hy : -A ≤ y 0) {j n : ℕ}
    (hn : (j + 1) * halfLife c k D ≤ n) :
    -(residue q r c k + A / 2 ^ j) ≤ w n ∧
      -(residue q r c k + k * q + 2 * A / 2 ^ j) ≤ y n := by
  obtain ⟨hword, hreg⟩ := h.envelope hg hc hD hq hr hA hw hy n
  have hpow : 2 * A * rate c k D ^ n ≤ A / 2 ^ j := calc
    2 * A * rate c k D ^ n ≤ 2 * A * (1 / 2 ^ (j + 1)) :=
      mul_le_mul_of_nonneg_left (rate_pow_le hg.k_pos hn) (by linarith)
    _ = A / 2 ^ j := by rw [pow_succ]; field_simp
  have hdouble : 2 * A / 2 ^ j = 2 * (A / 2 ^ j) := mul_div_assoc _ _ _
  constructor <;> linarith

end Lossy

/-! ### Without a filter -/

/-- A loop without a filter, whose feedback is at most `c / (c + 1)`. -/
theorem gains_plain (hγ0 : 0 ≤ γ) (hγ : γ ≤ c / (c + 1)) : Gains 1 0 γ c 1 where
  a_nonneg := zero_le_one
  δ_nonneg := le_rfl
  add_le_one := by simp
  settles := by simp
  γ_nonneg := hγ0
  γ_le := hγ

omit [IsStrictOrderedRing F] in
/-- The register of such a loop is the last word. -/
theorem lossy_plain (h : ∀ n, γ * w n - r ≤ w (n + D)) :
    Lossy 1 0 γ 0 r D w fun n => w (n - 1) where
  filter := fun n => by simp
  feed := h

end DampedLoop
