import Mathlib.Algebra.BigOperators.Group.Finset.Basic
import Mathlib.Algebra.Order.BigOperators.Group.Finset
import ReverbFPGA.Hardware.DelayLineRun

namespace Reverb

/-!
# Delay lines in series

`k` delay lines on one clock, one reset and one tick, the `dataOUT` of each wired to the
`dataIN` of the next, each with its own `currentN`: the wiring of the `generate` loops of
`earlyReverb.vhd`.

All lines advance on the same tick, and a line publishes its word at edge 2, before the next
one pushes.  A line with `currentN = c` therefore adds `c - 1` ticks to the delay
(`Chain.VarPaced.dataOut_eq`), and only the reading of the last `dataOUT` at the edge that accepts a
tick adds one more: `chain_delay_iff` says for which inputs that is the delay
`c_1 + … + c_k` of the documentation.
-/

open Clocked DelayLine
open scoped BigOperators

variable {w k : ℕ}

/-- The registers of `k` delay lines in series. -/
abbrev Chain (w k : ℕ) := Fin k → DelayLine w

/-- The input ports of the chain. -/
structure Chain.In (w k : ℕ) where
  rst : Bool
  dataSampledValid : Bool
  dataIn : BitVec w
  currentN : Fin k → ℕ

namespace Chain

/-- What the `dataIN` port of line `j` is wired to. -/
def lineDataIn (s : Chain w k) (i : In w k) (j : Fin k) : BitVec w :=
  if j.val = 0 then i.dataIn else (s ⟨j.val - 1, by omega⟩).dataOut

/-- The ports of line `j`. -/
def lineIn (s : Chain w k) (i : In w k) (j : Fin k) : DelayLine.In w where
  rst := i.rst
  dataSampledValid := i.dataSampledValid
  dataIn := s.lineDataIn i j
  currentN := i.currentN j

/-- A rising edge of all lines; each one reads the output of the line before it. -/
def edge (s : Chain w k) (i : In w k) : Chain w k := fun j => (s j).edge (s.lineIn i j)

/-- The run of a chain of lines, all idle at the start, under ticks that leave time for the pass
    of each line, whatever its delay at the tick. -/
structure VarPaced (s : ℕ → Chain w k) (inp : ℕ → In w k) (T : ℕ → ℕ) : Prop where
  run : IsRun edge s inp
  idle : ∀ j, (s 0 j).shiftState = .idle
  rst : ∀ t, (inp t).rst = true
  five_le : ∀ n j, 5 ≤ (inp (T n)).currentN j
  room : ∀ n j, T n + (inp (T n)).currentN j + 2 ≤ T (n + 1)
  pulses : Pulses (fun t => (inp t).dataSampledValid) T 1

namespace VarPaced

variable {s : ℕ → Chain w k} {inp : ℕ → In w k} {T c : ℕ → ℕ}

/-- Each line of the chain is a delay line under these ticks. -/
theorem varTicked (h : VarPaced s inp T) (j : Fin k) :
    VarTicked (fun t => s t j) (fun t => (s t).lineIn (inp t) j) T
      (fun n => (inp (T n)).currentN j) where
  run := h.run.component (fun s => s j) (fun s i => s.lineIn i j) fun _ _ => rfl
  idle := h.idle j
  rst := h.rst
  five_le := fun n => h.five_le n j
  pulses := h.pulses
  room := fun n => h.room n j
  currentN := fun _ => rfl

/-- A line that has had the delay `d` since the tick after tick `m` puts out, `d - 1` ticks after
    that one, the word that was at its input when tick `m` was pushed. -/
theorem line_delayed (h : VarPaced s inp T) (j : Fin k) {m d t : ℕ} {v : BitVec w} (hd : 5 ≤ d)
    (hfed : ∀ u, T m + 3 ≤ u → u < T (m + 1) → (s u).lineDataIn (inp u) j = v)
    (hcur : ∀ n, m < n → n ≤ m + (d - 1) → (inp (T n)).currentN j = d)
    (h1 : T (m + (d - 1)) + 3 ≤ t) (h2 : t ≤ T (m + (d - 1) + 1) + 2) :
    (s t j).dataOut = v := by
  have h5 := h.five_le m j
  have hroom := h.room m j
  have hlast := hcur (m + (d - 1)) (by omega) le_rfl
  have hlive : ∀ n, m < n → n < m + (d - 1) → n - m < (inp (T n)).currentN j - 1 := by
    intro n hmn hnd
    rw [hcur n hmn (by omega)]
    omega
  rw [(h.varTicked j).dataOut_delayed (by rw [hlast]) hlive h1 h2]
  exact hfed _ (by omega) (by omega)

/-- **Each line adds `c - 1` ticks.** If the word `v` is at the input of the chain when tick `m`
    is pushed, and the lines have the delays `c 0`, `c 1`, … from then on, line `j` puts it out
    from edge 2 of the tick `(c 0 - 1) + … + (c j - 1)` ticks later to edge 2 of the next. -/
theorem dataOut_eq (h : VarPaced s inp T) {m : ℕ} {v : BitVec w} (h5 : ∀ i < k, 5 ≤ c i)
    (hfed : ∀ u, T m + 3 ≤ u → u < T (m + 1) → (inp u).dataIn = v) {j : ℕ} (hj : j < k)
    (hcur : ∀ n, m < n → n ≤ m + ∑ i ∈ Finset.range (j + 1), (c i - 1) →
      ∀ i : Fin k, (inp (T n)).currentN i = c i) {t : ℕ}
    (h1 : T (m + ∑ i ∈ Finset.range (j + 1), (c i - 1)) + 3 ≤ t)
    (h2 : t ≤ T (m + ∑ i ∈ Finset.range (j + 1), (c i - 1) + 1) + 2) :
    (s t ⟨j, hj⟩).dataOut = v := by
  induction j generalizing t with
  | zero =>
    rw [Finset.sum_range_one] at h1 h2 hcur
    exact h.line_delayed ⟨0, hj⟩ (h5 0 hj) hfed (fun n hn hnm => hcur n hn hnm _) h1 h2
  | succ j ih =>
    rw [Finset.sum_range_succ, ← Nat.add_assoc] at h1 h2 hcur
    -- the word pushed is what the line before has put out since edge 2 of that tick
    have hwire : ∀ u, (s u).lineDataIn (inp u) ⟨j + 1, hj⟩ = (s u ⟨j, by omega⟩).dataOut :=
      fun u => by simp [lineDataIn]
    refine h.line_delayed ⟨j + 1, hj⟩ (h5 (j + 1) hj) (fun u hu1 hu2 => ?_)
      (fun n hn hnm => hcur n (by omega) hnm _) h1 h2
    rw [hwire]
    exact ih (by omega) (fun n hn hnm => hcur n hn (by omega)) hu1 (by omega)

end VarPaced

/-- The run of a chain of lines with the constant delays `c 0`, `c 1`, …, all idle at the start,
    under ticks far enough apart for the longest pass, with the input `x n` from tick `n` up to
    tick `n + 1`. -/
structure Paced (s : ℕ → Chain w k) (inp : ℕ → In w k) (T : ℕ → ℕ) (c : ℕ → ℕ)
    (x : ℕ → BitVec w) : Prop where
  run : IsRun edge s inp
  idle : ∀ j, (s 0 j).shiftState = .idle
  rst : ∀ t, (inp t).rst = true
  five_le : ∀ j < k, 5 ≤ c j
  pulses : ∀ j < k, Pulses (fun t => (inp t).dataSampledValid) T (c j + 2)
  currentN : ∀ t j, (inp t).currentN j = c j
  held : ∀ n t, T n ≤ t → t < T (n + 1) → (inp t).dataIn = x n

namespace Paced

variable {s : ℕ → Chain w k} {inp : ℕ → In w k} {T c : ℕ → ℕ} {x : ℕ → BitVec w}

/-- A paced chain is one whose delay happens to stay. -/
theorem varPaced (h : Paced s inp T c x) (hk : 0 < k) : VarPaced s inp T where
  run := h.run
  idle := h.idle
  rst := h.rst
  five_le := fun n j => by rw [h.currentN]; exact h.five_le j j.isLt
  room := fun n j => by rw [h.currentN]; exact (h.pulses j j.isLt).spaced n
  pulses := (h.pulses 0 hk).mono_gap (by omega)

/-- From edge 2 of a tick to edge 2 of the next one, line `j` puts out the input of the tick
    `(c_0 - 1) + … + (c_j - 1)` ticks earlier. -/
theorem dataOut_eq (h : Paced s inp T c x) {j : ℕ} (hj : j < k) {n t : ℕ}
    (h1 : T (n + ∑ i ∈ Finset.range (j + 1), (c i - 1)) + 3 ≤ t)
    (h2 : t ≤ T (n + ∑ i ∈ Finset.range (j + 1), (c i - 1) + 1) + 2) :
    (s t ⟨j, hj⟩).dataOut = x n :=
  (h.varPaced (by omega)).dataOut_eq h.five_le (fun u hu1 hu2 => h.held n u (by omega) hu2) hj
    (fun m _ _ i => h.currentN (T m) i) h1 h2

end Paced

/-- The delay of the chain, a tick less for each line than the sum of the values of `currentN`. -/
theorem sum_currentN (c : ℕ → ℕ) (k : ℕ) (h : ∀ j < k, 5 ≤ c j) :
    ∑ i ∈ Finset.range k, c i = ∑ i ∈ Finset.range k, (c i - 1) + k := by
  have hone : ∀ i ∈ Finset.range k, c i = (c i - 1) + 1 := by
    intro i hi
    have := h i (Finset.mem_range.mp hi)
    omega
  rw [Finset.sum_congr rfl hone, Finset.sum_add_distrib]
  simp

/-- What the last line of `k + 1` puts out at the edge that accepts tick `n`. -/
theorem Paced.dataOut_at_tick {s : ℕ → Chain w (k + 1)} {inp : ℕ → In w (k + 1)} {T c : ℕ → ℕ}
    {x : ℕ → BitVec w} (h : Paced s inp T c x) {n : ℕ}
    (hn : ∑ i ∈ Finset.range (k + 1), c i ≤ n) :
    (s (T n) (Fin.last k)).dataOut = x (n - ∑ i ∈ Finset.range (k + 1), c i + k) := by
  have hsum := sum_currentN c (k + 1) h.five_le
  obtain ⟨m, rfl⟩ : ∃ m, n = m + ∑ i ∈ Finset.range (k + 1), (c i - 1) + 1 :=
    ⟨n - (∑ i ∈ Finset.range (k + 1), (c i - 1) + 1), by omega⟩
  have hsp := (h.pulses 0 (by omega)).spaced (m + ∑ i ∈ Finset.range (k + 1), (c i - 1))
  have h5 := h.five_le 0 (by omega)
  have hout := h.dataOut_eq (Nat.lt_succ_self k) (n := m) (by omega) (Nat.le_add_right _ 2)
  rw [show Fin.last k = ⟨k, Nat.lt_succ_self k⟩ from rfl, hout]
  congr 1; omega

/-- **When delays in series add up.**  Of `k + 1` lines with the delays `c_0, …, c_k` the last
    `dataOUT`, read at the edge that accepts tick `n`, is `x_{n - (c_0 + … + c_k)}` for every
    `n` from `c_0 + … + c_k` on, exactly when the input repeats every `k` ticks. -/
theorem chain_delay_iff {s : ℕ → Chain w (k + 1)} {inp : ℕ → In w (k + 1)} {T c NsMax : ℕ → ℕ}
    {x : ℕ → BitVec w} {gap : ℕ} (hrun : IsRun edge s inp)
    (hidle : ∀ j, (s 0 j).shiftState = .idle) (hrst : ∀ t, (inp t).rst = true)
    (hc : ∀ j < k + 1, 5 ≤ c j ∧ c j ≤ NsMax j) (hcur : ∀ t j, (inp t).currentN j = c j)
    (hgap : ∀ j < k + 1, c j + 2 ≤ gap)
    (hticks : Pulses (fun t => (inp t).dataSampledValid) T gap)
    (hheld : ∀ n t, T n ≤ t → t < T (n + 1) → (inp t).dataIn = x n) :
    (∀ n, ∑ i ∈ Finset.range (k + 1), c i ≤ n →
      (s (T n) (Fin.last k)).dataOut = x (n - ∑ i ∈ Finset.range (k + 1), c i)) ↔
    ∀ m, x (m + k) = x m := by
  have h : Paced s inp T c x := ⟨hrun, hidle, hrst, fun j hj => (hc j hj).1,
    fun j hj => hticks.mono_gap (hgap j hj), hcur, hheld⟩
  constructor
  -- tick `m + (c_0 + … + c_k)` shows the sample of tick `m + k`
  · intro hsum m
    have hm := hsum (m + ∑ i ∈ Finset.range (k + 1), c i) (Nat.le_add_left _ _)
    rwa [h.dataOut_at_tick (Nat.le_add_left _ _), Nat.add_sub_cancel] at hm
  · intro hper n hn
    rw [h.dataOut_at_tick hn, hper]

/-- The input waveform of `k` lines of 8 bits with the shortest delay, ticked every 7 edges:
    tick `n` brings the sample `x n`. -/
def feed (k : ℕ) (x : ℕ → BitVec 8) (t : ℕ) : In 8 k where
  rst := true
  dataSampledValid := every 0 7 t
  dataIn := x (t / 7)
  currentN := fun _ => 5

/-- The fed sample is held until the next tick. -/
theorem feed_held (k : ℕ) (x : ℕ → BitVec 8) (n t : ℕ) (h1 : 0 + 7 * n ≤ t)
    (h2 : t < 0 + 7 * (n + 1)) : (feed k x t).dataIn = x n := by
  show x (t / 7) = _
  congr 1; omega

/-- Three samples that repeat. -/
def looped (n : ℕ) : BitVec 8 := BitVec.ofNat 8 (n % 3)

/-- With an input that repeats every three ticks, four lines delay by the sum of their delays: at
    the edge that accepts tick 31 the last one puts out sample 11. -/
theorem chain_delay_iff_looped :
    (run edge (fun _ => powerUp 8) (feed 4 looped) (0 + 7 * 31) (Fin.last 3)).dataOut = 2#8 := by
  have hc : ∀ j < 3 + 1, 5 ≤ (fun _ => 5) j ∧ (fun _ => 5) j ≤ (fun _ : ℕ => 5) j := by decide
  have hloop : ∀ m, looped (m + 3) = looped m := fun m => by rw [looped, looped, Nat.add_mod_right]
  have hiff := chain_delay_iff (isRun_run (fun _ => powerUp 8) (feed 4 looped)) (by decide)
    (fun _ => rfl) hc (fun _ _ => rfl) (by decide) (pulses_every 0 7) (feed_held 4 looped)
  exact hiff.mpr hloop 31 (by decide)

/-- Two lines of delay 5 do not delay by 10: at the edge that accepts tick 10 the second one
    puts out sample 1, not sample 0. -/
theorem chain_delay_two_lines :
    ¬ ∀ n, 5 + 5 ≤ n →
      (run edge (fun _ => powerUp 8) (feed 2 (BitVec.ofNat 8)) (7 * n) (Fin.last 1)).dataOut =
        BitVec.ofNat 8 (n - (5 + 5)) := by
  intro hclaim
  have hpaced : Paced (k := 2) (run edge (fun _ => powerUp 8) (feed 2 (BitVec.ofNat 8)))
      (feed 2 (BitVec.ofNat 8)) (fun n => 0 + 7 * n) (fun _ => 5) (BitVec.ofNat 8) :=
    ⟨isRun_run _ _, by decide, fun _ => rfl, by decide, fun _ _ => pulses_every 0 7,
      fun _ _ => rfl, feed_held 2 _⟩
  have hout := hpaced.dataOut_at_tick (n := 10) (by decide)
  have h10 := hclaim 10 le_rfl
  rw [show 7 * 10 = 0 + 7 * 10 from rfl, hout] at h10
  exact absurd h10 (by decide)

end Chain

end Reverb
