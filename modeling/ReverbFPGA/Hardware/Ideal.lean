import ReverbFPGA.Lib.DampedLoop
import ReverbFPGA.Hardware.AllPass
import ReverbFPGA.Hardware.CombTail
import ReverbFPGA.Hardware.Diagram

namespace Reverb

/-!
# The ideal loops

The network of `Diagram` over the rationals: the same delays and the same coefficients, but no
rounding and no width.  It is linear, and the reference that the fixed-point network is compared
with.  This module has the definitions, and how far each of the two loops is from its ideal:

* `combWord_near` — a comb stays at most `combLoss d` below, as long as the ideal words leave the
  adder that much room;
* `allPassWord_near` — an all-pass, whose input is off by `e`, is off by at most `2 * (e + 1)`.

In between stands the loop over the integers, with the roundings and without a width.
-/

open Signed FixedPoint Streams DampedLoop

/-! ### The network over the rationals -/

namespace IdealNetwork

/-- The gain of a coefficient. -/
def gain {w : ℕ} (c : BitVec w) : ℚ := c.toNat / 2 ^ w

/-- The filter of a comb, with `d` for what it keeps of its register. -/
def lowPass (d : BitVec 25) (w y : ℚ) : ℚ := gain (~~~d) * w + gain d * y

/-- The sum at the input of a comb. -/
def combSum (g : BitVec 25) (x y : ℚ) : ℚ := x + gain g * y

/-- The words of a comb with the delay `D`. -/
def combWord (D : ℕ) (d g : BitVec 25) (u : ℕ → ℚ) : ℕ → ℚ :=
  loopWord D (lowPass d) (combSum g) u

/-- A comb: its delayed word, with the gain of the output. -/
def comb (N : ℕ) (d g : BitVec 25) (u : ℕ → ℚ) (n : ℕ) : ℚ :=
  gain 0b1100110011001100110011001#25 *
    delay (Diagram.combTicks N) (combWord (Diagram.combTicks N) d g u) n

/-- The loop of an all-pass; the delayed word comes back with the half. -/
def allPassSum (x w : ℚ) : ℚ := x + x / 2 + (w - x) / 2

/-- The words of an all-pass with the delay `M`. -/
def allPassWord (M : ℕ) (u : ℕ → ℚ) : ℕ → ℚ := loopWord M (fun w _ => w) allPassSum u

/-- An all-pass: its delayed word less the input, with the gain of the output. -/
def allPass (N : ℕ) (u : ℕ → ℚ) (n : ℕ) : ℚ :=
  gain 0b11010111000010100011110101#26 * (delay (N - 1) (allPassWord (N - 1) u) n - u n)

/-- The mean of eight values. -/
def average (y : Fin 8 → ℚ) : ℚ := (∑ j, y j) / 8

/-- The early reverb: the mean of the eight weighted taps. -/
def early (p : ℕ) (u : ℕ → ℚ) (n : ℕ) : ℚ :=
  average fun j => gain (coefs j) * delay (Diagram.tapTicks p j) u n

/-- The first `k` all-passes after the averaged combs. -/
def lateStage (d g : BitVec 25) (u : ℕ → ℚ) : Fin 5 → ℕ → ℚ :=
  Fin.induction (fun n => average fun j => comb (nLFCF j) d g u n) fun k v => allPass (nAPF k) v

/-- The late reverb, after all four all-passes. -/
def late (d g : BitVec 25) (u : ℕ → ℚ) : ℕ → ℚ := lateStage d g u (Fin.last 4)

/-- Half the sum of the two, the late one fed with the last tap. -/
def wet (p : Params) (u : ℕ → ℚ) (n : ℕ) : ℚ :=
  (early p.preDelayValue.toNat u n +
    late p.dampingValue p.decayValue (delay (Diagram.tapTicks p.preDelayValue.toNat 7) u) n) / 2

/-- A channel: the dry signal, and the wet one a tick later. -/
def reverb (p : Params) (u : ℕ → ℚ) (n : ℕ) : ℚ :=
  gain (~~~p.mixValue) * u n + gain p.mixValue * delay 1 (wet p u) n

/-- The values of a sequence of words. -/
def values {w : ℕ} (u : ℕ → BitVec w) (n : ℕ) : ℚ := (u n).toInt

/-! ### Gains -/

variable {w : ℕ}

theorem gain_nonneg (c : BitVec w) : 0 ≤ gain c := by
  unfold gain
  positivity

theorem gain_le_one (c : BitVec w) : gain c ≤ 1 := by
  have hc : (c.toNat : ℚ) ≤ 2 ^ w := by exact_mod_cast c.isLt.le
  exact div_le_one_of_le₀ hc (by positivity)

/-- The complement of a coefficient falls one unit short of `1 - gain`. -/
theorem gain_not (d : BitVec w) : gain (~~~d) = ((2 ^ w - 1 - d.toNat : ℤ) : ℚ) / 2 ^ w := by
  have hnot : ((~~~d).toNat : ℤ) = 2 ^ w - 1 - d.toNat := by
    rw [BitVec.toNat_not]
    have := d.isLt
    have hcast : ((2 ^ w : ℕ) : ℤ) = 2 ^ w := by push_cast; rfl
    omega
  rw [gain, ← hnot, Int.cast_natCast]

/-- The gain `g` of the design and its product without a rounding. -/
theorem coefMult_near (hw : 0 < w) (x c : BitVec w) :
    gain c * x.toInt - 1 ≤ (coefMult x c).toInt ∧ ((coefMult x c).toInt : ℚ) ≤ gain c * x.toInt := by
  have hK : (0 : ℤ) < 2 ^ w := by positivity
  have hlo := le_scale_cast (F := ℚ) hK c.toNat x.toInt
  have hhi := scale_cast_le (F := ℚ) hK c.toNat x.toInt
  rw [coefMult_toInt hw]
  push_cast at hlo hhi
  exact ⟨hlo, hhi⟩

/-- The filter of the design and the ideal one. -/
theorem sum_near (d : BitVec 25) (x y : ℤ) :
    lowPass d x y - 2 ≤ LPF.sum 25 d.toNat x y ∧ (LPF.sum 25 d.toNat x y : ℚ) ≤ lowPass d x y := by
  have hK : (0 : ℤ) < 2 ^ 25 := by norm_num
  have hlo1 := le_scale_cast (F := ℚ) hK (2 ^ 25 - 1 - d.toNat) x
  have hlo2 := le_scale_cast (F := ℚ) hK d.toNat y
  have hhi1 := scale_cast_le (F := ℚ) hK (2 ^ 25 - 1 - d.toNat) x
  have hhi2 := scale_cast_le (F := ℚ) hK d.toNat y
  rw [lowPass, gain_not, gain, LPF.sum]
  push_cast at hlo1 hlo2 hhi1 hhi2 ⊢
  exact ⟨by linarith, by linarith⟩

/-- The settling time of the filter, in ticks. -/
def settling (d : BitVec 25) : ℕ := (LPF.roundingUnits d).toNat

/-- The settling number of a loop counts the rounding units of its filter. -/
theorem settling_cast (d : BitVec 25) : ((settling d : ℕ) : ℚ) = LPF.roundingUnits d := by
  have h := LPF.roundingUnits_pos d
  have : ((settling d : ℕ) : ℤ) = LPF.roundingUnits d := Int.toNat_of_nonneg h.le
  exact_mod_cast congrArg (Int.cast : ℤ → ℚ) this

/-- The gains of a comb whose decay is at most 0.95. -/
theorem gains_comb (d : BitVec 25) {g : BitVec 25} (hg : g.toNat ≤ 95 * (2 ^ 25 - 1) / 100) :
    Gains (gain (~~~d)) (gain d) (gain g) 19 (settling d) where
  a_nonneg := gain_nonneg _
  δ_nonneg := gain_nonneg _
  add_le_one := by
    rw [gain_not, gain]
    push_cast
    rw [← add_div, div_le_one (by norm_num)]
    linarith
  settles := by
    have h : ((2 ^ 25 : ℤ) : ℚ) ≤ ((LPF.roundingUnits d * (2 ^ 25 - d.toNat) : ℤ) : ℚ) := by
      exact_mod_cast LPF.le_roundingUnits d
    push_cast at h
    rw [settling_cast, gain, one_sub_div (by norm_num), mul_div_assoc',
      one_le_div (by norm_num)]
    exact h
  γ_nonneg := gain_nonneg _
  γ_le := by
    have h : (g.toNat : ℚ) ≤ 31876709 := by exact_mod_cast hg
    rw [gain, div_le_div_iff₀ (by norm_num) (by norm_num)]
    norm_num
    linarith

/-! ### Loops of a comb -/

/-- The words `w` that are put out by the delay of a comb, and the register `y` before each tick:
    the filter is at most 2 below the ideal one, and the sum with the input at most 1. -/
structure Rounded (d g : BitVec 25) (D : ℕ) (x w y : ℕ → ℚ) : Prop where
  le_filter : ∀ n, lowPass d (w n) (y n) - 2 ≤ y (n + 1)
  filter_le : ∀ n, y (n + 1) ≤ lowPass d (w n) (y n)
  le_feed : ∀ n, combSum g (x n) (y (n + 1)) - 1 ≤ w (n + D)
  feed_le : ∀ n, w (n + D) ≤ combSum g (x n) (y (n + 1))

/-- Without roundings. -/
structure Exact (d g : BitVec 25) (D : ℕ) (x w y : ℕ → ℚ) : Prop where
  filter : ∀ n, y (n + 1) = lowPass d (w n) (y n)
  feed : ∀ n, w (n + D) = combSum g (x n) (y (n + 1))

variable {D : ℕ} {d g : BitVec 25} {x x' w w' y y' : ℕ → ℚ}

/-- A loop without roundings is one with roundings of zero. -/
theorem Exact.rounded (h : Exact d g D x w y) : Rounded d g D x w y where
  le_filter := fun n => by rw [h.filter]; linarith
  filter_le := fun n => (h.filter n).le
  le_feed := fun n => by rw [h.feed]; linarith
  feed_le := fun n => (h.feed n).le

/-- In silence a loop may stay empty. -/
theorem exact_zero (d g : BitVec 25) (D : ℕ) : Exact d g D 0 0 0 where
  filter := fun n => by simp [lowPass]
  feed := fun n => by simp [combSum]

/-- **Two loops with the same input differ by their roundings** and by what is left of the
    start. -/
theorem Rounded.lossy_sub (h : Rounded d g D x w y) (h' : Rounded d g D x w' y') :
    Lossy (gain (~~~d)) (gain d) (gain g) 2 1 D (w - w') (y - y') where
  filter := fun n => by
    have hlo := h.le_filter n
    have hhi := h'.filter_le n
    simp only [lowPass, Pi.sub_apply] at *
    linarith
  feed := fun n => by
    have hlo := h.le_feed n
    have hhi := h'.feed_le n
    simp only [combSum, Pi.sub_apply] at *
    linarith

/-- An ideal loop is not below one with roundings. -/
theorem Exact.lossy_sub (h : Exact d g D x w y) (h' : Rounded d g D x w' y') :
    Lossy (gain (~~~d)) (gain d) (gain g) 0 0 D (w - w') (y - y') where
  filter := fun n => by
    have hhi := h'.filter_le n
    simp only [lowPass, Pi.sub_apply, h.filter] at *
    linarith
  feed := fun n => by
    have hhi := h'.feed_le n
    simp only [combSum, Pi.sub_apply, h.feed] at *
    linarith

/-- What the roundings of a comb add up to. -/
def combLoss (d : BitVec 25) : ℚ := 38 * settling d + 20

/-- The general bound of a damped loop, at the numbers of a comb. -/
theorem residue_comb (d : BitVec 25) : residue (2 : ℚ) 1 19 (settling d) = combLoss d := by
  rw [residue, combLoss]
  push_cast
  ring

/-- From empty lines, a loop with roundings stays at most `combLoss d` below the ideal one. -/
theorem Rounded.near (h : Rounded d g D x w y) (h' : Exact d g D x w' y') (hD : 0 < D)
    (hg : g.toNat ≤ 95 * (2 ^ 25 - 1) / 100) (hw : ∀ n < D, w n = w' n) (hy : y 0 = y' 0)
    (n : ℕ) : w' n - combLoss d ≤ w n ∧ w n ≤ w' n := by
  have hgains := gains_comb d hg
  -- below, the loop loses its roundings; above, it gains nothing
  have hlo := (h.lossy_sub h'.rounded).ge_residue hgains (by decide) hD (by norm_num)
    (by norm_num) (fun m hm => by simp [hw m hm]) (by simp [hy]) n
  have hhi := (h'.lossy_sub h).ge_residue hgains (by decide) hD le_rfl le_rfl
    (fun m hm => by simp [hw m hm]) (by simp [hy]) n
  rw [residue_comb] at hlo
  simp only [residue, Pi.sub_apply, mul_zero, add_zero, neg_zero] at hlo hhi
  constructor <;> linarith

/-- The ideal words of an input of magnitude `A` are of magnitude `20 * A` at most. -/
theorem Exact.abs_word_le {A : ℚ} (h : Exact d g D x w y) (hD : 0 < D)
    (hg : g.toNat ≤ 95 * (2 ^ 25 - 1) / 100) (hx : ∀ n, |x n| ≤ A) (hw : ∀ n < D, w n = 0)
    (hy : y 0 = 0) (n : ℕ) : |w n| ≤ 20 * A := by
  have hgains := gains_comb d hg
  have hA : 0 ≤ A := (abs_nonneg _).trans (hx 0)
  -- the input is a loss that the loop bears
  have hlo : Lossy (gain (~~~d)) (gain d) (gain g) 0 A D w y :=
    ⟨fun n => by rw [h.filter, lowPass]; linarith,
      fun n => by rw [h.feed, combSum]; linarith [(abs_le.mp (hx n)).1]⟩
  have hhi : Lossy (gain (~~~d)) (gain d) (gain g) 0 A D (-w) (-y) :=
    ⟨fun n => by simp only [Pi.neg_apply, h.filter, lowPass]; linarith,
      fun n => by simp only [Pi.neg_apply, h.feed, combSum]; linarith [(abs_le.mp (hx n)).2]⟩
  have h1 := hlo.ge_residue hgains (by decide) hD le_rfl hA (fun m hm => by simp [hw m hm])
    (by simp [hy]) n
  have h2 := hhi.ge_residue hgains (by decide) hD le_rfl hA (fun m hm => by simp [hw m hm])
    (by simp [hy]) n
  simp only [residue, Pi.neg_apply, mul_zero] at h1 h2
  norm_num at h1 h2
  rw [abs_le]
  constructor <;> linarith

/-! ### The comb of the diagram -/

/-- The ideal comb is an exact loop. -/
theorem exact_combWord (hD : 0 < D) (d g : BitVec 25) (x : ℕ → ℚ) :
    Exact d g D x (delay D (combWord D d g x))
      (delay 1 (loopRegister D (lowPass d) (combSum g) x)) where
  filter := fun n => delay_loopRegister_succ hD n
  feed := fun n => delay_loopWord_add n

/-- The loop of a comb over the integers, with its roundings and without a width. -/
def intWord (D : ℕ) (d g : BitVec 25) (x : ℕ → ℤ) : ℕ → ℤ :=
  loopWord D (LPF.sum 25 d.toNat) (fun x y => x + scale (2 ^ 25) g.toNat y) x

/-- The integer words of a comb are those of a loop with roundings. -/
theorem rounded_intWord (hD : 0 < D) (d g : BitVec 25) (x : ℕ → ℤ) :
    Rounded d g D (fun n => x n) (fun n => (delay D (intWord D d g x) n : ℤ))
      (fun n => (delay 1 (loopRegister D (LPF.sum 25 d.toNat)
        (fun x y => x + scale (2 ^ 25) g.toNat y) x) n : ℤ)) where
  le_filter := fun n => by
    rw [delay_loopRegister_succ hD]
    exact (sum_near d _ _).1
  filter_le := fun n => by
    rw [delay_loopRegister_succ hD]
    exact (sum_near d _ _).2
  le_feed := fun n => by
    have hlo := le_scale_cast (F := ℚ) (K := 2 ^ 25) (by norm_num) g.toNat
    rw [intWord, delay_loopWord_add, combSum, gain]
    push_cast at hlo ⊢
    linarith [hlo (delay 1 (loopRegister D (LPF.sum 25 d.toNat)
      (fun x y => x + scale (2 ^ 25) g.toNat y) x) (n + 1))]
  feed_le := fun n => by
    have hhi := scale_cast_le (F := ℚ) (K := 2 ^ 25) (by norm_num) g.toNat
    rw [intWord, delay_loopWord_add, combSum, gain]
    push_cast at hhi ⊢
    linarith [hhi (delay 1 (loopRegister D (LPF.sum 25 d.toNat)
      (fun x y => x + scale (2 ^ 25) g.toNat y) x) (n + 1))]

/-- They stay below the exact words, by the loss of the comb at most. -/
theorem intWord_near (hD : 0 < D) (hg : g.toNat ≤ 95 * (2 ^ 25 - 1) / 100) (x : ℕ → ℤ) (n : ℕ) :
    combWord D d g (fun n => x n) n - combLoss d ≤ intWord D d g x n ∧
      (intWord D d g x n : ℚ) ≤ combWord D d g (fun n => x n) n := by
  have hnear := (rounded_intWord hD d g x).near (exact_combWord hD d g fun n => x n) hD hg
    (fun m hm => by rw [delay_of_lt _ hm, delay_of_lt _ hm, Int.cast_zero])
    (by rw [delay_of_lt _ Nat.one_pos, delay_of_lt _ Nat.one_pos, Int.cast_zero]) (n + D)
  simpa using hnear

/-- **A comb tracks the ideal one**, from empty lines, as long as the words of the ideal one leave
    the adder of 25 bits the room for the roundings. -/
theorem combWord_near (hD : 0 < D) (hg : g.toNat ≤ 95 * (2 ^ 25 - 1) / 100) {u : ℕ → BitVec 24}
    (hroom : ∀ n, -2 ^ 24 + combLoss d ≤ combWord D d g (values u) n ∧
      combWord D d g (values u) n < 2 ^ 24) (n : ℕ) :
    combWord D d g (values u) n - combLoss d ≤
        values (loopWord D (Diagram.lowPass d) (Diagram.combSum g) u) n ∧
      values (loopWord D (Diagram.lowPass d) (Diagram.combSum g) u) n ≤
        combWord D d g (values u) n := by
  have hint := intWord_near (d := d) hD hg fun n => (u n).toInt
  -- the words of the design are those of the integers, as these fit
  have hfits : ∀ n, Fits 25 (intWord D d g (fun n => (u n).toInt) n) := by
    intro n
    obtain ⟨hlo, hhi⟩ := hroom n
    obtain ⟨h1, h2⟩ := hint n
    have hlow : ((-2 ^ 24 : ℤ) : ℚ) ≤ intWord D d g (fun n => (u n).toInt) n := by
      push_cast
      exact (by linarith : (-2 ^ 24 : ℚ) ≤ combWord D d g (values u) n - combLoss d).trans h1
    have hhigh : (intWord D d g (fun n => (u n).toInt) n : ℚ) < ((2 ^ 24 : ℤ) : ℚ) := by
      push_cast
      exact lt_of_le_of_lt h2 hhi
    have hlow' : -2 ^ 24 ≤ intWord D d g (fun n => (u n).toInt) n := by exact_mod_cast hlow
    have hhigh' : intWord D d g (fun n => (u n).toInt) n < 2 ^ 24 := by exact_mod_cast hhigh
    exact ⟨by omega, by omega⟩
  have hword : (loopWord D (Diagram.lowPass d) (Diagram.combSum g) u n).toInt =
      intWord D d g (fun n => (u n).toInt) n := by
    refine (loop_map (φ := BitVec.toInt) (ψ := BitVec.toInt) hD rfl rfl (fun w r => ?_)
      (fun n r hr => ?_) n).1
    · exact LPF.outputAdder_toInt (by decide) ⟨r⟩ ⟨true, true, w, d⟩
    · have hsum := hfits n
      rw [intWord, loopWord_eq, ← hr] at hsum
      exact toInt_add_of (toInt_resize_of_le _ (by decide)) (coefMult_toInt (by decide) _ _) hsum
  rw [values, hword]
  exact hint n

/-! ### The all-pass of the diagram -/

/-- One half of the delayed word, however the source writes it. -/
theorem allPassSum_eq (x w : ℚ) : allPassSum x w = x + w / 2 := by
  rw [allPassSum]
  ring

/-- A half is truncated toward zero. -/
theorem tdiv_two_near (v : ℤ) : (v : ℚ) / 2 - 1 / 2 ≤ v.tdiv 2 ∧ (v.tdiv 2 : ℚ) ≤ v / 2 + 1 / 2 := by
  have hcases := tdiv_two_cases v
  have h1 : v - 1 ≤ 2 * v.tdiv 2 := by omega
  have h2 : 2 * v.tdiv 2 ≤ v + 1 := by omega
  have h1' : (v : ℚ) - 1 ≤ 2 * v.tdiv 2 := by exact_mod_cast h1
  have h2' : 2 * (v.tdiv 2 : ℚ) ≤ v + 1 := by exact_mod_cast h2
  constructor <;> linarith

/-- The loop of an all-pass over the integers is the loop of its recurrence. -/
theorem loopSum_eq_loopWord {M : ℕ} (hM : 0 < M) (x : ℕ → ℤ) :
    APF.loopSum M x =
        loopWord M (fun w _ => w) (fun x w => x + x.tdiv 2 + (w - x).tdiv 2) x ∧
      APF.delayedSum M x =
        loopRegister M (fun w _ => w) (fun x w => x + x.tdiv 2 + (w - x).tdiv 2) x :=
  loop_unique (f := fun x w : ℤ => x + x.tdiv 2 + (w - x).tdiv 2) (g := fun w _ => w) hM
    (fun _ => rfl) fun n => APF.loopSum_eq hM n

theorem abs_sample_le (x : BitVec 24) : |x.toInt| ≤ 2 ^ 23 := by
  obtain ⟨h1, h2⟩ := fits_toInt x
  rw [abs_le]
  constructor <;> omega

/-- The adders of an all-pass never wrap. -/
theorem loopWord_toInt {M : ℕ} (hM : 0 < M) (u : ℕ → BitVec 24) (n : ℕ) :
    (loopWord M (fun w (_ : BitVec 26) => w) Diagram.allPassSum u n).toInt =
      APF.loopSum M (fun n => (u n).toInt) n := by
  obtain ⟨hword, hreg⟩ := loopSum_eq_loopWord hM fun n => (u n).toInt
  rw [hword]
  refine (loop_map (φ := BitVec.toInt) (ψ := BitVec.toInt) hM rfl rfl (fun w r => rfl)
    (fun n r hr => ?_) n).1
  -- the register of the loop is the delayed sum, which leaves the adders their guard bits
  have hbound := APF.abs_delayedSum_le hM (by norm_num) (fun n => abs_sample_le (u n)) n
  rw [hreg, ← hr] at hbound
  exact APF.outputAdder1_toInt (s := ⟨{ DelayLine.powerUp 26 with dataOut := r }⟩) (u n)
    (show |r.toInt| ≤ 2 ^ 24 by omega)

/-- The words of an all-pass use 25 of their 26 bits. -/
theorem abs_loopWord_le {M : ℕ} (hM : 0 < M) (u : ℕ → BitVec 24) (n : ℕ) :
    |(loopWord M (fun w (_ : BitVec 26) => w) Diagram.allPassSum u n).toInt| ≤ 2 ^ 24 - 1 := by
  rw [loopWord_toInt hM]
  exact APF.abs_loopSum_le (A := 2 ^ 23) hM (by norm_num) (fun n => abs_sample_le (u n)) n

/-- One step of the loop with roundings, with the input `x` and the word `w`. -/
theorem allPass_step_near (x w : ℤ) :
    |((x + x.tdiv 2 + (w - x).tdiv 2 : ℤ) : ℚ) - allPassSum x w| ≤ 1 := by
  obtain ⟨h1, h2⟩ := tdiv_two_near x
  obtain ⟨h3, h4⟩ := tdiv_two_near (w - x)
  push_cast at *
  rw [allPassSum, abs_le]
  constructor <;> linarith

/-- A sequence that is halved every `M` ticks, but for `r`, is a loop with the loss `r`, and so is
    its negative. -/
theorem lossy_halved {M : ℕ} {z : ℕ → ℚ} {r : ℚ} (hz : ∀ n, |z (n + M) - z n / 2| ≤ r) :
    Lossy 1 0 (1 / 2) 0 r M z (fun n => z (n - 1)) ∧
      Lossy 1 0 (1 / 2) 0 r M (-z) (fun n => (-z) (n - 1)) :=
  ⟨lossy_plain fun n => by linarith [(abs_le.mp (hz n)).1],
    lossy_plain fun n => by simp only [Pi.neg_apply]; linarith [(abs_le.mp (hz n)).2]⟩

/-- An all-pass is a damped loop without a filter, whose feedback is one half. -/
theorem gains_half : Gains (1 : ℚ) 0 (1 / 2) 1 1 := gains_plain (by norm_num) (by norm_num)

/-- Its residue is twice the rounding. -/
theorem residue_half (r : ℚ) : residue 0 r 1 1 = 2 * r := by
  rw [residue]
  norm_num

/-- From zero, such a sequence stays within `2 * r`. -/
theorem abs_halved_le {M : ℕ} {z : ℕ → ℚ} {r : ℚ} (hM : 0 < M) (hr : 0 ≤ r)
    (hz : ∀ n, |z (n + M) - z n / 2| ≤ r) (h0 : ∀ n < M, z n = 0) (n : ℕ) : |z n| ≤ 2 * r := by
  obtain ⟨hlo, hhi⟩ := lossy_halved hz
  have h1 := hlo.ge_residue gains_half Nat.one_pos hM le_rfl hr (fun m hm => (h0 m hm).ge)
    (h0 0 hM).ge n
  have h2 := hhi.ge_residue gains_half Nat.one_pos hM le_rfl hr (fun m hm => by simp [h0 m hm])
    (by simp [h0 0 hM]) n
  rw [residue_half] at h1 h2
  rw [Pi.neg_apply] at h2
  rw [abs_le]
  constructor <;> linarith

/-- From a magnitude `A`, it gets there but for a part that halves with every half-life. -/
theorem abs_halved_settles {M : ℕ} {z : ℕ → ℚ} {r A : ℚ} (hM : 0 < M) (hr : 0 ≤ r)
    (hz : ∀ n, |z (n + M) - z n / 2| ≤ r) (h0 : ∀ n < M, |z n| ≤ A) {j n : ℕ}
    (hn : (j + 1) * halfLife 1 1 M ≤ n) : |z n| ≤ 2 * r + A / 2 ^ j := by
  obtain ⟨hlo, hhi⟩ := lossy_halved hz
  have hA : 0 ≤ A := (abs_nonneg _).trans (h0 0 hM)
  have h1 := (hlo.halved gains_half Nat.one_pos hM le_rfl hr hA
    (fun m hm => (abs_le.mp (h0 m hm)).1) (abs_le.mp (h0 0 hM)).1 hn).1
  have h2 := (hhi.halved gains_half Nat.one_pos hM le_rfl hr hA
    (fun m hm => neg_le_neg (abs_le.mp (h0 m hm)).2) (neg_le_neg (abs_le.mp (h0 0 hM)).2) hn).1
  rw [residue_half] at h1 h2
  rw [Pi.neg_apply] at h2
  rw [abs_le]
  constructor <;> linarith

/-- **An all-pass tracks the ideal one**: with an input that is off by `e`, its words are off by at
    most `2 * (e + 1)`, as the gain of the loop is one half. -/
theorem allPassWord_near {M : ℕ} {u : ℕ → BitVec 24} {x : ℕ → ℚ} {e : ℚ} (hM : 0 < M)
    (hx : ∀ n, |values u n - x n| ≤ e) (n : ℕ) :
    |values (loopWord M (fun w (_ : BitVec 26) => w) Diagram.allPassSum u) n -
      allPassWord M x n| ≤ 2 * (e + 1) := by
  have he : 0 ≤ e := (abs_nonneg _).trans (hx 0)
  let z : ℕ → ℚ := fun n =>
    APF.delayedSum M (fun n => (u n).toInt) n - delay M (allPassWord M x) n
  -- the error is halved with every turn, while the input and the rounding add to it
  have hz : ∀ n, |z (n + M) - z n / 2| ≤ e + 1 := by
    intro n
    have hword : APF.delayedSum M (fun n => (u n).toInt) (n + M) =
        (u n).toInt + (u n).toInt.tdiv 2 +
          (APF.delayedSum M (fun n => (u n).toInt) n - (u n).toInt).tdiv 2 := by
      rw [APF.delayedSum, if_pos (Nat.le_add_left M n), Nat.add_sub_cancel, APF.loopSum_eq hM]
      rfl
    have hideal : delay M (allPassWord M x) (n + M) = x n + delay M (allPassWord M x) n / 2 := by
      rw [allPassWord, delay_loopWord_add, delay_loopRegister_succ hM, allPassSum_eq]
    have hstep := allPass_step_near (u n).toInt (APF.delayedSum M (fun n => (u n).toInt) n)
    have hin := hx n
    rw [allPassSum_eq] at hstep
    rw [values] at hin
    simp only [z, hword, hideal]
    rw [abs_le] at *
    constructor <;> linarith
  -- up to the first word that comes round both lines are empty
  have hstart : ∀ n < M, z n = 0 := by
    intro n hn
    simp only [z, delay_of_lt _ hn, APF.delayedSum, if_neg (Nat.not_le.mpr hn), Int.cast_zero,
      sub_zero]
  have hnear := abs_halved_le hM (by linarith) hz hstart (n + M)
  have hlate : z (n + M) = APF.loopSum M (fun n => (u n).toInt) n - allPassWord M x n := by
    simp only [z, delay_add_apply, APF.delayedSum, if_pos (Nat.le_add_left M n),
      Nat.add_sub_cancel]
  rwa [values, loopWord_toInt hM, ← hlate]

/-- The ideal words for an input of magnitude `A`. -/
theorem abs_allPassWord_le {M : ℕ} {x : ℕ → ℚ} {A : ℚ} (hM : 0 < M) (hx : ∀ n, |x n| ≤ A)
    (n : ℕ) : |allPassWord M x n| ≤ 2 * A := by
  have hA : 0 ≤ A := (abs_nonneg _).trans (hx 0)
  have hbound := abs_halved_le (z := delay M (allPassWord M x)) hM hA (fun m => by
    rw [allPassWord, delay_loopWord_add, delay_loopRegister_succ hM, allPassSum_eq,
      add_sub_cancel_right]
    exact hx m) (fun m hm => delay_of_lt _ hm) (n + M)
  rwa [delay_add_apply] at hbound

end IdealNetwork

end Reverb
