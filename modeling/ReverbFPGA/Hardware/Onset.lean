import ReverbFPGA.Hardware.Diagram

namespace Reverb

/-!
# When the sound sets in

What the block diagram says of a channel that starts with empty memories:

* `Channel.late_start_sounds_late` — silence in front of a recording delays its sound and changes
  nothing else, as the network is time-invariant;
* `Channel.first_sounds` — from which tick on the echoes and the late reverb are heard, as each
  block is silent for as long as its shortest delay.
-/

open Clocked Signed Streams

namespace Diagram

/-! ### What is silent up to when -/

theorem le_combTicks (j : Fin 8) : 1414 ≤ combTicks (nLFCF j) := by
  revert j
  decide

/-- A comb is silent for `combTicks N` ticks longer than its input. -/
theorem comb_silent {N m n : ℕ} (hN : 0 < combTicks N) (d g : BitVec 25) {u : ℕ → BitVec 24}
    (hu : ∀ i < m, u i = 0) (hn : n < m + combTicks N) : comb N d g u n = 0 := by
  have hword : combLine N d g u n = 0 := by
    unfold combLine
    rcases Nat.lt_or_ge n (combTicks N) with hlt | hge
    · exact delay_of_lt _ hlt
    · rw [delay_of_le _ hge]
      apply (timeInvariant_loopWord hN (lowPass_zero d) (combSum_zero g)).eq_zero
        (causal_loopWord hN)
      exact fun i hi => hu i (by omega)
  rw [comb, hword, coefMult_zero (by decide)]
  decide

/-- The late reverb is silent for 1414 ticks longer than its input. -/
theorem lateStage_silent (d g : BitVec 25) {u : ℕ → BitVec 24} {m : ℕ} (hu : ∀ i < m, u i = 0)
    (k : Fin 5) {n : ℕ} (hn : n < m + 1414) : lateStage d g u k n = 0 := by
  induction k using Fin.induction generalizing n with
  | zero =>
    have hcomb : ∀ j, comb (nLFCF j) d g u n = 0 := by
      intro j
      have hj := le_combTicks j
      exact comb_silent (combTicks_pos j) d g hu (by omega)
    simp only [lateStage_zero, hcomb, average_zero]
  | succ k ih =>
    have hquiet : ∀ i ≤ n, lateStage d g u k.castSucc i = 0 := fun i hi => ih (by omega)
    rw [lateStage_succ]
    exact (timeInvariant_allPass (allPassTicks_pos k)).eq_zero
      (causal_allPass (allPassTicks_pos k)) hquiet

/-- The early reverb alone. -/
def wetEarly (p : Params) (u : ℕ → BitVec 24) (n : ℕ) : BitVec 24 :=
  slice 1 24 (resize 25 (early p.preDelayValue.toNat u n))

/-- The late reverb joins in 1414 ticks after the last tap. -/
theorem wet_eq_wetEarly (p : Params) (u : ℕ → BitVec 24) {n : ℕ}
    (hn : n < tapTicks p.preDelayValue.toNat 7 + 1414) : wet p u n = wetEarly p u n := by
  have hlate : late p.dampingValue p.decayValue (delay (tapTicks p.preDelayValue.toNat 7) u) n =
      0 := lateStage_silent _ _ (fun i hi => delay_of_lt _ hi) (Fin.last 4) hn
  rw [wet, hlate, wetEarly, show resize 25 (0 : BitVec 24) = 0 by decide, add_zero]

/-- The average of one word among silent ones. -/
theorem average_single_toInt (v : BitVec 24) :
    (average fun j => if j = 0 then v else 0).toInt = v.toInt / 8 := by
  rw [average_toInt, Fin.sum_univ_eight]
  simp

/-- Between the main echo and the first near one, the early reverb is the main echo alone. -/
theorem wetEarly_main_toInt (p : Params) (u : ℕ → BitVec 24) {n : ℕ}
    (hn : n < nearEchoCurrentN p.preDelayValue.toNat - 1) :
    (wetEarly p u (n + tapTicks p.preDelayValue.toNat 0)).toInt =
      (u n).toInt * (2 ^ 24 - 1) / 2 ^ 24 / 8 / 2 := by
  have htaps : (fun j : Fin 8 => coefMult
      (delay (tapTicks p.preDelayValue.toNat j) u (n + tapTicks p.preDelayValue.toNat 0))
      (coefs j)) = fun j => if j = 0 then coefMult (u n) (coefs 0) else 0 := by
    ext1 j
    rcases eq_or_ne j 0 with rfl | hj
    · rw [if_pos rfl, Fin.val_zero, delay_add_apply]
    -- a near echo has not arrived
    · have h1 : 1 ≤ j.val := Nat.one_le_iff_ne_zero.mpr fun h => hj (Fin.ext h)
      have hq := Nat.mul_le_mul_right (nearEchoCurrentN p.preDelayValue.toNat - 1) h1
      rw [if_neg hj, delay_of_lt _ (by unfold tapTicks; omega), coefMult_zero (by decide)]
  have hweight : (coefMult (u n) (coefs 0)).toInt = (u n).toInt * (2 ^ 24 - 1) / 2 ^ 24 := by
    rw [coefMult_toInt (by decide), FixedPoint.scale, mul_comm]
    rfl
  rw [wetEarly, toInt_slice _ (by decide) (by decide), toInt_resize_of_le _ (by decide), early,
    htaps, average_single_toInt, hweight]
  rfl

end Diagram

/-! ### Runs of a channel -/

namespace Channel

open Diagram

variable {s : ℕ → Channel} {inp : ℕ → In} {T : ℕ → ℕ} {x : ℕ → BitVec 24} {p : Params}

/-- **A late start sounds late, and the same.**  Of two runs from empty memories, the second one
    with `k` silent samples in front: its first `k` output words are silent, and from then on it
    puts out what the first one does. -/
theorem late_start_sounds_late {s' : ℕ → Channel} {inp' : ℕ → In} {T' : ℕ → ℕ} {k : ℕ}
    (h : Paced s inp T x p) (h' : Paced s' inp' T' (delay k x) p)
    (h0 : (s 0).sample = Sample.empty) (h0' : (s' 0).sample = Sample.empty) :
    (∀ n < k, (s' (T' n)).dataOut (inp' (T' n)) = 0) ∧
    ∀ n, (s' (T' (n + k))).dataOut (inp' (T' (n + k))) = (s (T n)).dataOut (inp (T n)) := by
  have hlate : ∀ n, (s' (T' n)).dataOut (inp' (T' n)) = delay k (reverb p x) n := by
    intro n
    rw [output_eq_reverb h' h0', timeInvariant_reverb p k x]
  constructor
  · intro n hn
    rw [hlate, delay_of_lt _ hn]
  · intro n
    rw [hlate, delay_add_apply, output_eq_reverb h h0]

/-- Seven silent samples first. -/
theorem late_start_sounds_late_seven :
    (run edge powerUp (steady 1041 (delay 7 (BitVec.ofNat 24))
        ⟨0x800000, 5, 0x1000000, 0x800000⟩) (0 + 1041 * (900 + 7))).dataOut
      (steady 1041 (delay 7 (BitVec.ofNat 24)) ⟨0x800000, 5, 0x1000000, 0x800000⟩
        (0 + 1041 * (900 + 7))) =
      (run edge powerUp (steady 1002 (BitVec.ofNat 24) ⟨0x800000, 5, 0x1000000, 0x800000⟩)
        (0 + 1002 * 900)).dataOut
      (steady 1002 (BitVec.ofNat 24) ⟨0x800000, 5, 0x1000000, 0x800000⟩ (0 + 1002 * 900)) :=
  (late_start_sounds_late (paced_steady le_rfl _ (by decide) (by decide))
    (paced_steady (by decide) _ (by decide) (by decide)) sample_powerUp sample_powerUp).2 900

/-- **When each part of the sound sets in**, from empty memories, with the predelay `p`.  Up to
    tick `12 * (p - 1)` the output is the dry sound.  Then the main echo is heard, attenuated
    by 16 and the mix, alone until the first near echo.  The late reverb sets in 1414 ticks
    after the last near echo at the earliest. -/
theorem first_sounds (h : Paced s inp T x p) (h0 : (s 0).sample = Sample.empty) (n : ℕ) :
    (n ≤ tapTicks p.preDelayValue.toNat 0 →
      (s (T n)).dataOut (inp (T n)) = coefMult (x n) (~~~p.mixValue)) ∧
    (n < nearEchoCurrentN p.preDelayValue.toNat - 1 → ∃ v : BitVec 24,
      v.toInt = (x n).toInt * (2 ^ 24 - 1) / 2 ^ 24 / 8 / 2 ∧
      (s (T (n + tapTicks p.preDelayValue.toNat 0 + 1))).dataOut
          (inp (T (n + tapTicks p.preDelayValue.toNat 0 + 1))) =
        coefMult (x (n + tapTicks p.preDelayValue.toNat 0 + 1)) (~~~p.mixValue) +
          coefMult v p.mixValue) ∧
    (n ≤ tapTicks p.preDelayValue.toNat 7 + 1414 →
      (s (T n)).dataOut (inp (T n)) = coefMult (x n) (~~~p.mixValue) +
        coefMult (delay 1 (wetEarly p x) n) p.mixValue) := by
  have htap : ∀ j : Fin 8, tapTicks p.preDelayValue.toNat 0 ≤ tapTicks p.preDelayValue.toNat j := by
    intro j
    simp [tapTicks]
  refine ⟨fun hn => ?_, fun hn => ⟨wetEarly p x (n + tapTicks p.preDelayValue.toNat 0),
    wetEarly_main_toInt p x hn, ?_⟩, fun hn => ?_⟩
  · have hwet : delay 1 (wet p x) n = 0 := by
      rcases Nat.eq_zero_or_pos n with rfl | hpos
      · exact delay_of_lt _ Nat.one_pos
      have hlast := htap 7
      have hquiet : (fun j : Fin 8 => coefMult
          (delay (tapTicks p.preDelayValue.toNat j) x (n - 1)) (coefs j)) = fun _ => 0 := by
        ext1 j
        have hj := htap j
        rw [delay_of_lt _ (by omega), coefMult_zero (by decide)]
      rw [delay_of_le _ hpos, wet_eq_wetEarly p x (by
        have : tapTicks p.preDelayValue.toNat 0 ≤ tapTicks p.preDelayValue.toNat 7 := hlast
        omega), wetEarly, early, hquiet, average_zero]
      decide
    rw [output_eq_reverb h h0, reverb, hwet, coefMult_zero (by decide), add_zero]
  · have hlast : tapTicks p.preDelayValue.toNat 7 = tapTicks p.preDelayValue.toNat 0 +
        7 * (nearEchoCurrentN p.preDelayValue.toNat - 1) := by simp [tapTicks]
    rw [output_eq_reverb h h0, reverb, delay_add_apply, wet_eq_wetEarly p x (by omega)]
  · have hwet : delay 1 (wet p x) n = delay 1 (wetEarly p x) n := by
      refine delay_congr Nat.one_pos fun m hm => wet_eq_wetEarly p x (by omega)
    rw [output_eq_reverb h h0, reverb, hwet]

/-- With the shortest predelay only the dry sound is there at tick 48. -/
theorem first_sounds_shortest :
    (run edge powerUp (steady 1041 (BitVec.ofNat 24) ⟨0x800000, 5, 0x1000000, 0x800000⟩)
        (0 + 1041 * 48)).dataOut
      (steady 1041 (BitVec.ofNat 24) ⟨0x800000, 5, 0x1000000, 0x800000⟩ (0 + 1041 * 48)) =
      coefMult 48#24 (~~~0x800000#24) :=
  (first_sounds (paced_steady (by decide) (BitVec.ofNat 24) (p := ⟨0x800000, 5, 0x1000000,
    0x800000⟩) (by decide) (by decide)) sample_powerUp 48).1 (by decide)

end Channel

end Reverb
