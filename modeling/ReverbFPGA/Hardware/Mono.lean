import ReverbFPGA.Hardware.SampleModel

namespace Reverb

/-!
# Mono

With `stereo_n_mono = '0'` the right output is the left output word of the moment, while the
right sink takes it at the right tick.  The left lines publish the next words at edge 2 of the
left tick (`Channel.sample_out_hold`), so the word of the left tick is still there when the
right tick comes, as long as it comes within two edges (`mono_outputs_agree`), and not after
that (`mono_late_right_tick`).
-/

open Clocked DelayLine

/-! ### A delay line after a reset -/

namespace DelayLine

variable {w : ℕ}

/-- The ports of a delay line that is reset up to edge `r` and has the delay `c` at the ticks
    `T 0 < T 1 < …`, which are far enough apart for a pass.  Some of them may be lost to the
    reset. -/
structure ResetTicked (s : ℕ → DelayLine w) (inp : ℕ → In w) (T : ℕ → ℕ) (c r : ℕ) : Prop where
  run : IsRun edge s inp
  reset : 0 < r
  rst_low : ∀ t, t < r → (inp t).rst = false
  rst_high : ∀ t, r ≤ t → (inp t).rst = true
  five_le : 5 ≤ c
  pulses : Pulses (fun t => (inp t).dataSampledValid) T (c + 2)
  currentN : ∀ n, (inp (T n)).currentN = c

namespace ResetTicked

variable {s : ℕ → DelayLine w} {inp : ℕ → In w} {T : ℕ → ℕ} {c r : ℕ}

/-- When the reset is over the FSM is idle. -/
theorem idle_reset (h : ResetTicked s inp T c r) : (s r).shiftState = .idle := by
  have hr := h.reset
  have hlast := h.run (r - 1)
  rw [show r - 1 + 1 = r by omega, edge_reset (h.rst_low _ (by omega))] at hlast
  rw [hlast]

/-- Every tick after the reset starts a pass. -/
theorem pass (h : ResetTicked s inp T c r) {n : ℕ} (hn : r ≤ T n) : Pass s inp (T n) c := by
  have hidle : (s (T n)).shiftState = .idle :=
    idle_of_tick h.run h.idle_reset h.rst_high h.five_le
      (fun _ _ => currentN_of_tick h.pulses h.currentN) (fun _ _ => h.pulses.gap_le) hn
      (h.pulses.tick_at n)
  exact ⟨h.run, ⟨h.rst_high _ hn, hidle, h.pulses.tick_at n⟩, h.currentN n, h.five_le,
    fun _ _ => h.rst_high _ (by omega)⟩

/-- **`dataOUT` outlives the tick by two edges.** -/
theorem dataOut_hold (h : ResetTicked s inp T c r) {n t : ℕ} (h1 : T n ≤ t) (h2 : t ≤ T n + 2) :
    (s t).dataOut = (s (T n)).dataOut := by
  by_cases hn : r ≤ T n
  · have := (h.pass hn).dataOut_before (k := t - T n) (by omega)
    rwa [show T n + (t - T n) = t by omega] at this
  -- the tick is lost to the reset, and so is the pass that it may have interrupted
  · induction t, h1 using Nat.le_induction with
    | base => rfl
    | succ t h1 ih =>
      rw [h.run t, dataOut_edge ?_, ih (by omega)]
      intro hhigh hpull
      -- the reset is over at the edge after the tick, and leaves the FSM idle
      have htr : t = r := by
        by_contra hne
        rw [h.rst_low t (by omega)] at hhigh
        exact absurd hhigh (by decide)
      rw [htr, h.idle_reset] at hpull
      exact absurd hpull (by decide)

end ResetTicked

end DelayLine

/-! ### The two outputs -/

namespace ReverbFPGA

/-- A run of the design in mono, from a reset up to edge `r` on: left tick `n` is at edge `TL n`
    and brings the sample `x n`, right tick `n` is at edge `TR n`, from left tick `n` on and
    before left tick `n + 1`. -/
structure MonoRun (s : ℕ → ReverbFPGA) (inp : ℕ → In) (TL TR : ℕ → ℕ) (r : ℕ)
    (x : ℕ → BitVec 24) (p : Params) : Prop where
  run : IsRun edge s inp
  reset : 0 < r
  rst_low : ∀ t, t < r → (inp t).rst = false
  rst_high : ∀ t, r ≤ t → (inp t).rst = true
  mono : ∀ t, (inp t).stereoNMono = false
  ready : ∀ t, (inp t).audioLOutReady = true ∧ (inp t).audioROutReady = true
  params : ∀ t, (inp t).params = p
  five_le : 5 ≤ p.preDelayValue.toNat
  le_983 : p.preDelayValue.toNat ≤ 983
  pulsesL : Pulses (fun t => (inp t).audioLInValid) TL 1002
  pulsesR : Pulses (fun t => (inp t).audioRInValid) TR 1002
  between : ∀ n, TL n ≤ TR n ∧ TR n < TL (n + 1)
  held : ∀ n t, TL n ≤ t → t < TL (n + 1) → (inp t).audioLInData = x n

namespace MonoRun

variable {s : ℕ → ReverbFPGA} {inp : ℕ → In} {TL TR : ℕ → ℕ} {r : ℕ} {x : ℕ → BitVec 24}
  {p : Params}

/-- Each line of the left channel is a delay line under the left ticks. -/
theorem ticked (h : MonoRun s inp TL TR r x p) (l : Line) :
    ResetTicked (fun t => (s t).channelL.line l)
      (fun t => (s t).channelL.lineIn (channelLIn (inp t)) l) TL
      (l.currentN p.preDelayValue.toNat) r where
  run := Channel.isRun_line (isRun_channelL h.run) l
  reset := h.reset
  rst_low := fun t ht => by rw [Channel.lineIn_rst]; exact h.rst_low t ht
  rst_high := fun t ht => by rw [Channel.lineIn_rst]; exact h.rst_high t ht
  five_le := (l.currentN_bounds h.five_le h.le_983).1
  pulses := by
    simp only [Channel.lineIn_dataSampledValid]
    exact h.pulsesL.mono_gap (l.currentN_bounds h.five_le h.le_983).2
  currentN := fun n => by
    rw [Channel.lineIn_currentN]
    show l.currentN (inp (TL n)).params.preDelayValue.toNat = _
    rw [h.params]

/-- The left output words outlive the left tick by two edges. -/
theorem sample_out_hold (h : MonoRun s inp TL TR r x p) {n t : ℕ} (h1 : TL n ≤ t)
    (h2 : t ≤ TL n + 2) : (s t).channelL.sample.out = (s (TL n)).channelL.sample.out :=
  funext fun l => (h.ticked l).dataOut_hold h1 h2

end MonoRun

/-- **Both outputs carry the same samples** in every run in mono in which each right tick comes
    at most two edges after its left tick. -/
theorem mono_outputs_agree {s : ℕ → ReverbFPGA} {inp : ℕ → In} {TL TR : ℕ → ℕ} {r : ℕ}
    {x : ℕ → BitVec 24} {p : Params} (h : MonoRun s inp TL TR r x p)
    (hphase : ∀ n, TR n ≤ TL n + 2) (n : ℕ) :
    (s (TR n)).audioROutData (inp (TR n)) = (s (TL n)).audioLOutData (inp (TL n)) := by
  obtain ⟨hge, hlt⟩ := h.between n
  have hsp := h.pulsesL.spaced n
  have hx : (inp (TR n)).audioLInData = (inp (TL n)).audioLInData := by
    rw [h.held n _ hge hlt, h.held n _ le_rfl (by omega)]
  rw [audioROutData, if_neg (by rw [h.mono]; decide), audioLOutData, audioLOutData,
    Channel.dataOut_eq_wires, Channel.dataOut_eq_wires, h.sample_out_hold hge (hphase n)]
  refine Channel.wiresDataOut_congr hx ?_
  show (inp (TR n)).params.mixValue = (inp (TL n)).params.mixValue
  rw [h.params, h.params]

/-! ### A right tick that comes too late -/

/-- Both channels at power-up, with a word in every cell of the last line of the left main
    echo. -/
def echoing : ReverbFPGA where
  channelL :=
    { Channel.powerUp with
      earlyReverb :=
        { Channel.powerUp.earlyReverb with
          delayLines := fun j =>
            if j.val = 11 then { DelayLine.powerUp 24 with ram := ⟨fun _ => 0x400000, 0⟩ }
            else DelayLine.powerUp 24 } }
  channelR := Channel.powerUp

/-- A reset at edge 0, left ticks at 1, 1003, …, right ticks `d` edges later, silence at the
    inputs, the mix at its maximum. -/
def monoTicks (d t : ℕ) : In where
  rst := t != 0
  audioLInValid := every 1 1002 t
  audioLInData := 0
  audioLOutReady := true
  audioRInValid := every (1 + d) 1002 t
  audioRInData := 0
  audioROutReady := true
  params := ⟨0xFFFFFF, 5, 0x1000000, 0x800000⟩
  stereoNMono := false

theorem monoRun_monoTicks (s₀ : ReverbFPGA) {d : ℕ} (hd : d < 1002) :
    MonoRun (run edge s₀ (monoTicks d)) (monoTicks d) (fun n => 1 + 1002 * n)
      (fun n => 1 + d + 1002 * n) 1 (fun _ => 0) ⟨0xFFFFFF, 5, 0x1000000, 0x800000⟩ where
  run := isRun_run _ _
  reset := Nat.one_pos
  rst_low := fun t ht => by rw [Nat.lt_one_iff.mp ht]; rfl
  rst_high := fun t ht => by
    have hne : t ≠ 0 := by omega
    simp [monoTicks, hne]
  mono := fun _ => rfl
  ready := fun _ => ⟨rfl, rfl⟩
  params := fun _ => rfl
  five_le := by decide
  le_983 := by decide
  pulsesL := pulses_every 1 1002
  pulsesR := pulses_every (1 + d) 1002
  between := fun n => by omega
  held := fun _ _ _ _ => rfl

/-- Two edges after the left tick is early enough. -/
theorem mono_outputs_agree_two_edges :
    (run edge echoing (monoTicks 2) (1 + 2 + 1002 * 4)).audioROutData
        (monoTicks 2 (1 + 2 + 1002 * 4)) =
      (run edge echoing (monoTicks 2) (1 + 1002 * 4)).audioLOutData
        (monoTicks 2 (1 + 1002 * 4)) :=
  mono_outputs_agree (monoRun_monoTicks echoing (by decide)) (fun n => by omega) 4

/-- Three edges after the left tick is too late: the right sink takes the echo that the left
    sink takes a tick later. -/
theorem mono_late_right_tick :
    MonoRun (run edge echoing (monoTicks 3)) (monoTicks 3) (fun n => 1 + 1002 * n)
        (fun n => 1 + 3 + 1002 * n) 1 (fun _ => 0) ⟨0xFFFFFF, 5, 0x1000000, 0x800000⟩ ∧
      (run edge echoing (monoTicks 3) (1 + 3 + 1002 * 0)).audioROutData
          (monoTicks 3 (1 + 3 + 1002 * 0)) ≠
        (run edge echoing (monoTicks 3) (1 + 1002 * 0)).audioLOutData
          (monoTicks 3 (1 + 1002 * 0)) :=
  ⟨monoRun_monoTicks echoing (by decide), by decide +kernel⟩

end ReverbFPGA

end Reverb
