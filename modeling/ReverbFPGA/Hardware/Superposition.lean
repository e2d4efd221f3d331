import Mathlib.Algebra.Module.LinearMap.Prod
import ReverbFPGA.Hardware.Accuracy

namespace Reverb

/-!
# Sounds add up

The ideal network is linear, and so a channel, with all its roundings and truncations, is linear up
to the error of each sound that is played:

* `IdealNetwork.isLinearMap_reverb` — the network over the rationals keeps sums and multiples, block
  by block;
* `Channel.Sounding` — a channel that plays a sound from empty memories, with headroom;
* `Channel.sounds_add_up` — a mix of two sounds comes out as the mix of what comes out.
-/

open Streams

namespace IdealNetwork

/-! ### The blocks -/

theorem isLinearMap_mul (c : ℚ) : IsLinearMap ℚ fun x : ℚ => c * x :=
  IsLinearMap.isLinearMap_smul c

/-- The ideal filter is linear in its input and register together. -/
theorem isLinearMap_lowPass (d : BitVec 25) : IsLinearMap ℚ fun z : ℚ × ℚ => lowPass d z.1 z.2 where
  map_add := fun z z' => by simp only [lowPass, Prod.fst_add, Prod.snd_add]; ring
  map_smul := fun c z => by simp only [lowPass, Prod.smul_fst, Prod.smul_snd, smul_eq_mul]; ring

/-- So is the sum at the input of a comb. -/
theorem isLinearMap_combSum (g : BitVec 25) : IsLinearMap ℚ fun z : ℚ × ℚ => combSum g z.1 z.2 where
  map_add := fun z z' => by simp only [combSum, Prod.fst_add, Prod.snd_add]; ring
  map_smul := fun c z => by simp only [combSum, Prod.smul_fst, Prod.smul_snd, smul_eq_mul]; ring

/-- The loop of an all-pass, with its exact half, is linear. -/
theorem isLinearMap_allPassSum : IsLinearMap ℚ fun z : ℚ × ℚ => allPassSum z.1 z.2 where
  map_add := fun z z' => by simp only [allPassSum, Prod.fst_add, Prod.snd_add]; ring
  map_smul := fun c z => by simp only [allPassSum, Prod.smul_fst, Prod.smul_snd, smul_eq_mul]; ring

/-- The two averaging adders of the early stage are linear together. -/
theorem isLinearMap_average : IsLinearMap ℚ average where
  map_add := fun y y' => by
    simp only [average, Pi.add_apply, Finset.sum_add_distrib]
    ring
  map_smul := fun c y => by
    simp only [average, Pi.smul_apply, smul_eq_mul, ← Finset.mul_sum]
    ring

/-! ### The network -/

/-- A comb as a whole is linear: a loop of linear parts. -/
theorem isLinearMap_comb {N : ℕ} (hN : 0 < Diagram.combTicks N) (d g : BitVec 25) :
    IsLinearMap ℚ (comb N d g) := by
  have hword : IsLinearMap ℚ (combWord (Diagram.combTicks N) d g) :=
    isLinearMap_loopWord hN (isLinearMap_lowPass d) (isLinearMap_combSum g)
  have hlate := isLinearMap_comp (isLinearMap_delay (Diagram.combTicks N)) hword
  exact isLinearMap_map₁ hlate (isLinearMap_mul _)

/-- An all-pass as a whole is linear. -/
theorem isLinearMap_allPass {N : ℕ} (hN : 0 < N - 1) : IsLinearMap ℚ (allPass N) := by
  have hword : IsLinearMap ℚ (allPassWord (N - 1)) :=
    isLinearMap_loopWord hN (IsLinearMap.mk (fun _ _ => rfl) fun _ _ => rfl) isLinearMap_allPassSum
  have hlate := isLinearMap_comp (isLinearMap_delay (N - 1)) hword
  have hdiff := isLinearMap_map₂ hlate isLinearMap_id IsLinearMap.isLinearMap_sub
  exact isLinearMap_map₁ hdiff (isLinearMap_mul _)

theorem isLinearMap_early (p : ℕ) : IsLinearMap ℚ (early p) :=
  isLinearMap_map (fun j => isLinearMap_map₁ (isLinearMap_delay _) (isLinearMap_mul (gain (coefs j))))
    isLinearMap_average

/-- Each stage of the late reverb is linear, by recursion on the chain of all-passes. -/
theorem isLinearMap_lateStage (d g : BitVec 25) (k : Fin 5) :
    IsLinearMap ℚ fun u => lateStage d g u k := by
  induction k using Fin.induction with
  | zero =>
    exact isLinearMap_map (fun j => isLinearMap_comb (Diagram.combTicks_pos j) d g)
      isLinearMap_average
  | succ k ih => exact isLinearMap_comp (isLinearMap_allPass (Diagram.allPassTicks_pos k)) ih

/-- The wet path is linear in the input, for every mixture of early and late. -/
theorem isLinearMap_wet (p : Params) : IsLinearMap ℚ (wet p) := by
  have hlate := isLinearMap_comp
    (isLinearMap_lateStage p.dampingValue p.decayValue (Fin.last 4))
    (isLinearMap_delay (R := ℚ) (α := ℚ) (Diagram.tapTicks p.preDelayValue.toNat 7))
  exact isLinearMap_map₂ (isLinearMap_early p.preDelayValue.toNat) hlate
    (f := fun x y => (x + y) / 2)
    { map_add := fun z z' => by simp only [Prod.fst_add, Prod.snd_add]; ring
      map_smul := fun c z => by simp only [Prod.smul_fst, Prod.smul_snd, smul_eq_mul]; ring }

/-- **The ideal network is linear.** -/
theorem isLinearMap_reverb (p : Params) : IsLinearMap ℚ (reverb p) := by
  have hwet := isLinearMap_comp (isLinearMap_delay 1) (isLinearMap_wet p)
  exact isLinearMap_map₂ isLinearMap_id hwet
    (f := fun x y => gain (~~~p.mixValue) * x + gain p.mixValue * y)
    { map_add := fun z z' => by simp only [Prod.fst_add, Prod.snd_add]; ring
      map_smul := fun c z => by simp only [Prod.smul_fst, Prod.smul_snd, smul_eq_mul]; ring }

end IdealNetwork

/-! ### Runs of a channel -/

namespace Channel

open IdealNetwork (Headroom settling values)

/-- A channel plays the samples `x` from empty memories, with a decay of at most 0.95 and with
    headroom. -/
structure Sounding (s : ℕ → Channel) (inp : ℕ → In) (T : ℕ → ℕ) (x : ℕ → BitVec 24) (p : Params) :
    Prop extends Paced s inp T x p where
  empty : (s 0).sample = Sample.empty
  decay_le : p.decayValue.toNat ≤ 95 * (2 ^ 25 - 1) / 100
  headroom : Headroom p.dampingValue p.decayValue
    (delay (Diagram.tapTicks p.preDelayValue.toNat 7) (values x))

variable {s s' s'' : ℕ → Channel} {inp inp' inp'' : ℕ → In} {T T' T'' : ℕ → ℕ}
  {x x' x'' : ℕ → BitVec 24} {p : Params}

/-- **Sounds add up.**  Of three runs from empty memories with the same parameters, the decay at
    most 0.95, whatever the spacing of their ticks, the third one plays `a` times the first sound
    plus `b` times the second one: at each tick its output word is that mix of the other two
    output words, but for the error of a channel on each of the three. -/
theorem sounds_add_up (h : Sounding s inp T x p) (h' : Sounding s' inp' T' x' p)
    (h'' : Sounding s'' inp'' T'' x'' p) {a b : ℚ}
    (hmix : ∀ n, ((x'' n).toInt : ℚ) = a * (x n).toInt + b * (x' n).toInt) (n : ℕ) :
    |(((s'' (T'' n)).dataOut (inp'' (T'' n))).toInt : ℚ) -
        (a * ((s (T n)).dataOut (inp (T n))).toInt +
          b * ((s' (T' n)).dataOut (inp' (T' n))).toInt)| ≤
      (1 + |a| + |b|) * (613 * settling p.dampingValue + 402) := by
  have hlinear := IdealNetwork.isLinearMap_reverb p
  have hvalues : values x'' = a • values x + b • values x' := funext hmix
  -- the ideal network is linear
  have hideal : IdealNetwork.reverb p (values x'') n =
      a * IdealNetwork.reverb p (values x) n + b * IdealNetwork.reverb p (values x') n := by
    rw [hvalues, hlinear.map_add, hlinear.map_smul, hlinear.map_smul]
    rfl
  -- each of the three channels is near the ideal one
  have hnear := output_tracks_ideal h.toPaced h.empty h.decay_le h.headroom n
  have hnear' := output_tracks_ideal h'.toPaced h'.empty h'.decay_le h'.headroom n
  have hnear'' := output_tracks_ideal h''.toPaced h''.empty h''.decay_le h''.headroom n
  have ha := mul_le_mul_of_nonneg_left hnear (abs_nonneg a)
  have hb := mul_le_mul_of_nonneg_left hnear' (abs_nonneg b)
  rw [hideal] at hnear''
  rw [← abs_mul] at ha hb
  rw [abs_le] at *
  constructor <;> linarith

/-- From power-up, a sawtooth of a few units is a sounding channel. -/
theorem sounding_sawtooth {c gap : ℕ} (hc : c ≤ 3) (hgap : 1002 ≤ gap) :
    Sounding (Clocked.run edge powerUp (steady gap (sawtooth c) lively))
      (steady gap (sawtooth c) lively) (fun n => 0 + gap * n) (sawtooth c) lively where
  toPaced := paced_sawtooth hgap c
  empty := sample_powerUp
  decay_le := by decide
  headroom := by
    refine IdealNetwork.headroom_of_abs_le (A := 2997) (by decide)
      (IdealNetwork.abs_delay_le (fun n => ?_) _) ?_
    · rw [values]
      exact_mod_cast abs_sawtooth_le hc n
    · rw [IdealNetwork.margin, show settling lively.dampingValue = 2 by decide]
      norm_num

/-- A sawtooth and a louder one, each with ticks of its own, and both at once. -/
theorem sounds_add_up_sawtooth :
    |(((Clocked.run edge powerUp (steady 1100 (sawtooth 3) lively) (0 + 1100 * 900)).dataOut
        (steady 1100 (sawtooth 3) lively (0 + 1100 * 900))).toInt : ℚ) -
      (1 * ((Clocked.run edge powerUp (steady 1041 (sawtooth 1) lively) (0 + 1041 * 900)).dataOut
          (steady 1041 (sawtooth 1) lively (0 + 1041 * 900))).toInt +
        1 * ((Clocked.run edge powerUp (steady 1002 (sawtooth 2) lively) (0 + 1002 * 900)).dataOut
          (steady 1002 (sawtooth 2) lively (0 + 1002 * 900))).toInt)| ≤
      (1 + |1| + |1|) * (613 * settling lively.dampingValue + 402) :=
  sounds_add_up (sounding_sawtooth (by decide) (by decide))
    (sounding_sawtooth (by decide) le_rfl) (sounding_sawtooth le_rfl (by decide))
    (fun n => by
      rw [toInt_sawtooth le_rfl, toInt_sawtooth (by decide), toInt_sawtooth (by decide)]
      push_cast
      ring) 900

end Channel

end Reverb
