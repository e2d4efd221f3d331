import ReverbFPGA.Hardware.EarlyLate

namespace Reverb

/-!
# The taps of the early reverb

With the predelay `p` each of the twelve lines of the main echo delays by `p - 1` ticks, and each
of the seven lines of the near echoes by `q - 1`, where `q` is `nearEchoCurrentN p`.  The lines are
in series, so tap `j` is the input of `12 * (p - 1) + j * (q - 1)` ticks ago, whatever the predelay
has been before the last `12 * (p - 1) + 7 * (q - 1)` ticks (`EarlyReverb.Paced.taps`).

The weighted taps are summed with three guard bits, and the slice of the sum divides by 8:
`EarlyReverb.fir_exact`.
-/

open Clocked FixedPoint Signed
open scoped BigOperators

/-- Up to a predelay of 983 the near echoes stay within their memory. -/
theorem nearEchoCurrentN_le {p : ℕ} (hp : p ≤ 983) : nearEchoCurrentN p ≤ nearEchoNsMax := by
  unfold nearEchoCurrentN nearEchoNsMax nbrDelayLinesInitEcho ratioInitEchoEarlyEchoes
  omega

/-- The near echoes always have the five cells that their FSM needs. -/
theorem five_le_nearEchoCurrentN (p : ℕ) : 5 ≤ nearEchoCurrentN p := Nat.le_add_left _ _

namespace EarlyReverb

/-! ### The weighted sum -/

/-- **The sum of the weighted taps is exact**, and its slice is an eighth of it, rounded down. -/
theorem dataOutEarlyReverb_toInt (s : EarlyReverb) :
    s.dataOutEarlyReverb.toInt =
      (∑ j, scale (2 ^ 24) (coefs j).toNat (s.delayedInputs j).toInt) / 8 := by
  -- 27 bits hold the sum of eight words of 24
  have hsum : s.outputAdder.toInt = ∑ j, (s.inputAdder j).toInt := toInt_sum_eight s.inputAdder
  have hweight : ∀ j, (s.inputAdder j).toInt =
      scale (2 ^ 24) (coefs j).toNat (s.delayedInputs j).toInt :=
    fun j => coefMult_toInt (by decide) _ _
  rw [dataOutEarlyReverb, toInt_slice _ (by decide) (by decide), hsum]
  simp only [hweight]
  rfl

/-! ### The taps -/

/-- A run of the early reverb under ticks 1002 edges apart, with the input `x n` from tick `n` up to
    tick `n + 1`.  The lines are idle at the start and hold any words, and the predelay may
    change from tick to tick. -/
structure Paced (s : ℕ → EarlyReverb) (inp : ℕ → In) (T : ℕ → ℕ) (x : ℕ → BitVec 24) : Prop where
  run : IsRun edge s inp
  idleMain : ∀ j, ((s 0).delayLines j).shiftState = .idle
  idleNear : ∀ j, ((s 0).nearEchoes j).shiftState = .idle
  rst : ∀ t, (inp t).rst = true
  predelay : ∀ n, 5 ≤ (inp (T n)).nbrDelaysPerLineInitEcho ∧
    (inp (T n)).nbrDelaysPerLineInitEcho ≤ 983
  pulses : Pulses (fun t => (inp t).dataSampledValid) T 1002
  held : ∀ n t, T n ≤ t → t < T (n + 1) → (inp t).dataIn = x n

namespace Paced

variable {s : ℕ → EarlyReverb} {inp : ℕ → In} {T : ℕ → ℕ} {x : ℕ → BitVec 24} {m n p t : ℕ}

/-- The lines of the main echo are a chain under these ticks. -/
theorem main (h : Paced s inp T x) :
    Chain.VarPaced (fun t => (s t).delayLines) (fun t => delayLinesIn (inp t)) T where
  run := h.run.component delayLines (fun _ i => delayLinesIn i) fun _ _ => rfl
  idle := h.idleMain
  rst := h.rst
  five_le := fun n _ => (h.predelay n).1
  room := fun n _ => by
    have hgap := h.pulses.spaced n
    have hp := (h.predelay n).2
    show T n + (inp (T n)).nbrDelaysPerLineInitEcho + 2 ≤ T (n + 1)
    omega
  pulses := h.pulses.mono_gap (by decide)

/-- The lines of the near echoes are one that is fed by the main echo. -/
theorem near (h : Paced s inp T x) :
    Chain.VarPaced (fun t => (s t).nearEchoes) (fun t => (s t).nearEchoesIn (inp t)) T where
  run := h.run.component nearEchoes nearEchoesIn fun _ _ => rfl
  idle := h.idleNear
  rst := h.rst
  five_le := fun _ _ => five_le_nearEchoCurrentN _
  room := fun n _ => by
    have hgap := h.pulses.spaced n
    have hq : nearEchoCurrentN _ ≤ 240 := nearEchoCurrentN_le (h.predelay n).2
    show T n + nearEchoCurrentN (inp (T n)).nbrDelaysPerLineInitEcho + 2 ≤ T (n + 1)
    omega
  pulses := h.pulses.mono_gap (by decide)

/-- The main echo of tick `m`, with the predelay `p` at the `12 * (p - 1)` ticks after it. -/
theorem mainEcho (h : Paced s inp T x) (h5 : 5 ≤ p)
    (hp : ∀ k, m < k → k ≤ m + 12 * (p - 1) → (inp (T k)).nbrDelaysPerLineInitEcho = p)
    (h1 : T (m + 12 * (p - 1)) + 3 ≤ t) (h2 : t ≤ T (m + 12 * (p - 1) + 1) + 2) :
    (s t).delayedInputs 0 = x m := by
  -- twelve lines of the same delay
  have hsum : ∑ _i ∈ Finset.range (11 + 1), (p - 1) = 12 * (p - 1) := by simp
  refine h.main.dataOut_eq (c := fun _ => p) (j := 11) (fun _ _ => h5)
    (fun u hu1 hu2 => h.held m u (by omega) hu2) (by decide) ?_ ?_ ?_
  · rw [hsum]
    exact fun k hk hkm _ => hp k hk hkm
  · rw [hsum]; exact h1
  · rw [hsum]; exact h2

/-- **The taps.**  With the predelay `p` at the ticks `m + 1`, …, `m + 12 * (p - 1) + j * (q - 1)`,
    tap `j` shows the input of tick `m` after edge 2 of the last of them. -/
theorem tap (h : Paced s inp T x) (h5 : 5 ≤ p) (j : Fin 8)
    (hp : ∀ k, m < k → k ≤ m + 12 * (p - 1) + j * (nearEchoCurrentN p - 1) →
      (inp (T k)).nbrDelaysPerLineInitEcho = p)
    (h1 : T (m + 12 * (p - 1) + j * (nearEchoCurrentN p - 1)) + 3 ≤ t)
    (h2 : t ≤ T (m + 12 * (p - 1) + j * (nearEchoCurrentN p - 1) + 1) + 2) :
    (s t).delayedInputs j = x m := by
  cases j using Fin.cases with
  | zero =>
    simp only [Fin.val_zero, Nat.zero_mul, Nat.add_zero] at hp h1 h2
    exact h.mainEcho h5 hp h1 h2
  | succ i =>
    have hsum : ∑ _i ∈ Finset.range (i.val + 1), (nearEchoCurrentN p - 1) =
        i.succ.val * (nearEchoCurrentN p - 1) := by simp
    -- the near echoes push what the main echo has put out since edge 2 of the tick
    have hfed : ∀ u, T (m + 12 * (p - 1)) + 3 ≤ u → u < T (m + 12 * (p - 1) + 1) →
        ((s u).nearEchoesIn (inp u)).dataIn = x m := fun u hu1 hu2 =>
      h.mainEcho h5 (fun k hk hkm => hp k hk (by omega)) hu1 (by omega)
    refine h.near.dataOut_eq (c := fun _ => nearEchoCurrentN p)
      (fun _ _ => five_le_nearEchoCurrentN p) hfed i.isLt ?_ ?_ ?_
    · rw [hsum]
      intro k hk hkm _
      exact congrArg nearEchoCurrentN (hp k (by omega) hkm)
    · rw [hsum]; exact h1
    · rw [hsum]; exact h2

/-- The taps once the predelay has been `p` for the delay of the last of them. -/
theorem taps (h : Paced s inp T x) (h5 : 5 ≤ p)
    (hn : 12 * (p - 1) + 7 * (nearEchoCurrentN p - 1) ≤ n)
    (hp : ∀ k, n < k + (12 * (p - 1) + 7 * (nearEchoCurrentN p - 1)) → k ≤ n →
      (inp (T k)).nbrDelaysPerLineInitEcho = p)
    (h1 : T n + 3 ≤ t) (h2 : t ≤ T (n + 1) + 2) (j : Fin 8) :
    (s t).delayedInputs j = x (n - 12 * (p - 1) - j * (nearEchoCurrentN p - 1)) := by
  have hj : j * (nearEchoCurrentN p - 1) ≤ 7 * (nearEchoCurrentN p - 1) :=
    Nat.mul_le_mul_right _ (by omega)
  have hback : n - 12 * (p - 1) - j * (nearEchoCurrentN p - 1) + 12 * (p - 1) +
      j * (nearEchoCurrentN p - 1) = n := by omega
  refine h.tap h5 j (fun k hk hkn => hp k (by omega) (by omega)) ?_ ?_
  · rw [hback]; exact h1
  · rw [hback]; exact h2

end Paced

/-- **The early reverb is an exact filter of eight taps.**  Under ticks at least 1002 edges apart
    and with predelays in 5..983, from any words in the lines: once the predelay has been `p` for
    the last `L` ticks, the late reverb is fed with the input of `L` ticks ago, and the early
    reverb is the eighth of the weighted sum of the eight taps, each rounded down. -/
theorem fir_exact {s : ℕ → EarlyReverb} {inp : ℕ → In} {T : ℕ → ℕ} {x : ℕ → BitVec 24}
    (h : Paced s inp T x) {n p q L t : ℕ} (hq : q = 12 * p / 50 + 5)
    (hL : L = 12 * (p - 1) + 7 * (q - 1)) (hLn : L ≤ n)
    (hp : ∀ k, n - L < k → k ≤ n → (inp (T k)).nbrDelaysPerLineInitEcho = p)
    (h1 : T n + 3 ≤ t) (h2 : t ≤ T (n + 1) + 2) :
    (s t).dataOutToLateReverb = x (n - L) ∧
    (s t).dataOutEarlyReverb.toInt =
      (∑ j : Fin 8, (coefs j).toNat * (x (n - 12 * (p - 1) - j * (q - 1))).toInt / 2 ^ 24) / 8 := by
  have hnear : nearEchoCurrentN p = q := by
    rw [hq, mul_comm]
    rfl
  have hL0 : 0 < L := by omega
  -- the predelay of the last tick is that of all of them
  have h5 : 5 ≤ p := by
    have := (h.predelay n).1
    rwa [hp n (by omega) le_rfl] at this
  have htaps : ∀ j : Fin 8, (s t).delayedInputs j = x (n - 12 * (p - 1) - j * (q - 1)) := by
    rw [← hnear] at hL ⊢
    exact h.taps h5 (by omega) (fun k hk hkn => hp k (by omega) hkn) h1 h2
  constructor
  -- the late reverb is fed with tap 7
  · rw [dataOutToLateReverb, htaps, hL]
    congr 1
    show n - 12 * (p - 1) - 7 * (q - 1) = _
    omega
  · rw [dataOutEarlyReverb_toInt]
    simp only [htaps, scale]

/-- Lines with the declared power-up values. -/
def empty : EarlyReverb := ⟨fun _ => DelayLine.powerUp 24, fun _ => DelayLine.powerUp 24⟩

/-- A tick every 1002 edges, the sample `n` at tick `n`, and the predelay 20 for ten ticks, then
    5. -/
def counting (t : ℕ) : In where
  rst := true
  dataSampledValid := every 0 1002 t
  dataIn := BitVec.ofNat 24 (t / 1002)
  nbrDelaysPerLineInitEcho := if t < 10020 then 20 else 5

/-- From the empty early stage, a counting input at regular ticks. -/
theorem paced_counting :
    Paced (run edge empty counting) counting (fun n => 0 + 1002 * n) (BitVec.ofNat 24) where
  run := isRun_run _ _
  idleMain := fun _ => rfl
  idleNear := fun _ => rfl
  rst := fun _ => rfl
  predelay := fun n => by
    unfold counting
    dsimp only
    split_ifs <;> decide
  pulses := pulses_every 0 1002
  held := fun n t h1 h2 => by
    show BitVec.ofNat 24 (t / 1002) = _
    rw [show t / 1002 = n by omega]

/-- At tick 100 the predelay has been 5 for 90 ticks, more than the 83 that the last tap takes. -/
theorem fir_exact_five :
    (run edge empty counting (0 + 1002 * 100 + 3)).dataOutToLateReverb = 17#24 ∧
      (run edge empty counting (0 + 1002 * 100 + 3)).dataOutEarlyReverb.toInt = 24 := by
  have hp : ∀ k, 100 - 83 < k → k ≤ 100 →
      (counting (0 + 1002 * k)).nbrDelaysPerLineInitEcho = 5 := by
    intro k hk _
    exact if_neg (by omega)
  obtain ⟨hlate, hearly⟩ := fir_exact paced_counting (q := 6) (L := 83) (by decide) (by decide)
    (by decide) hp le_rfl (by decide)
  refine ⟨hlate, hearly.trans ?_⟩
  decide

end EarlyReverb

end Reverb
