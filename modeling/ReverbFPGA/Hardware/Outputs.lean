import ReverbFPGA.Hardware.Diagram
import ReverbFPGA.Hardware.Transfer

namespace Reverb

/-!
# What the two outputs carry

The two channels have ticks of their own, and the multiplexer on the right is switched at any edge.
`Channel.Paced.dataOut_eq` is the output word of a channel at every edge: the dry sound is that of
the tick, and the wet sound changes at edge 2 of the tick.  `ReverbFPGA.outputs_eq_reverb` puts the
two channels together: at its ticks, each sink takes the words of the block diagram, in stereo
and in mono, but for a right tick in mono that comes when the left lines have moved on.
-/

open Clocked Streams Diagram

/-! ### A channel at every edge -/

namespace Channel.Paced

variable {s : ℕ → Channel} {inp : ℕ → In} {T : ℕ → ℕ} {x : ℕ → BitVec 24} {p : Params}

/-- The words of the lines outlive the tick by two edges. -/
theorem out_hold (h : Paced s inp T x p) {n t : ℕ} (h1 : T n ≤ t) (h2 : t ≤ T n + 2) :
    (s t).sample.out = (s (T n)).sample.out := by
  cases n with
  | zero => exact (h.out_before h2).trans (h.out_before (Nat.le_add_right _ _)).symm
  | succ n =>
    have hsp := h.pulses.spaced n
    exact (h.out_eq (by omega) h2).trans (h.out_eq (by omega) (by omega)).symm

/-- **The output word at every edge**, from one tick to the next one. -/
theorem dataOut_eq (h : Paced s inp T x p) (h0 : (s 0).sample = Sample.empty) {n t : ℕ}
    (h1 : T n ≤ t) (h2 : t < T (n + 1)) :
    (s t).dataOut (inp t) =
      if t ≤ T n + 2 then reverb p x n
      else coefMult (x n) (~~~p.mixValue) + coefMult (wet p x n) p.mixValue := by
  -- between the ticks the sample is held and the mix is constant
  have hin : ∀ out, wiresDataOut out (inp t) = wiresDataOut out (tickIn p (x n)) :=
    fun out => wiresDataOut_congr (h.held n t h1 h2) (h.mixValue t)
  rw [dataOut_eq_wires, hin]
  split_ifs with ht
  -- the lines still put out the words of the tick before
  · have htick : wiresDataOut (s (T n)).sample.out (tickIn p (x n)) =
        wiresDataOut (s (T n)).sample.out (inp (T n)) :=
      wiresDataOut_congr (h.inp_tick n).symm (h.mixValue _).symm
    rw [h.out_hold h1 ht, htick, ← dataOut_eq_wires, output_eq_reverb h h0]
  -- the words of this tick are through
  · rw [h.out_eq (n := n) (by omega) (by omega), ← h.sample_succ, h.sample_eq, h0]
    exact wiresDataOut_outAfter h.five_le n (tickIn p (x n))

end Channel.Paced

/-! ### Both channels -/

namespace ReverbFPGA

/-- A run of the design from empty memories with the constant parameters `p`.  The left samples `xL`
    come at the ticks `TL`, the right samples `xR` at the ticks `TR`; the switch `stereo_n_mono`
    is free. -/
structure Playing (s : ℕ → ReverbFPGA) (inp : ℕ → In) (TL TR : ℕ → ℕ) (xL xR : ℕ → BitVec 24)
    (p : Params) : Prop where
  left : Channel.Paced (fun t => (s t).channelL) (fun t => channelLIn (inp t)) TL xL p
  right : Channel.Paced (fun t => (s t).channelR) (fun t => channelRIn (inp t)) TR xR p
  emptyL : (s 0).channelL.sample = Channel.Sample.empty
  emptyR : (s 0).channelR.sample = Channel.Sample.empty

/-- **What the sinks take.**  At left tick `n` the left sink takes the word that the block diagram
    makes of the left samples.  At right tick `n` the right sink takes, in stereo, that of the
    right samples; in mono, when the tick is at most two edges after left tick `m`, what the left
    sink took there, and when it is later, the same dry sound with the wet one of the next left
    tick. -/
theorem outputs_eq_reverb {s : ℕ → ReverbFPGA} {inp : ℕ → In} {TL TR : ℕ → ℕ}
    {xL xR : ℕ → BitVec 24} {p : Params} (h : Playing s inp TL TR xL xR p) (n : ℕ) :
    (s (TL n)).audioLOutData (inp (TL n)) = reverb p xL n ∧
    ((inp (TR n)).stereoNMono = true →
      (s (TR n)).audioROutData (inp (TR n)) = reverb p xR n) ∧
    ∀ m, (inp (TR n)).stereoNMono = false → TL m ≤ TR n → TR n < TL (m + 1) →
      (s (TR n)).audioROutData (inp (TR n)) =
        if TR n ≤ TL m + 2 then reverb p xL m
        else coefMult (xL m) (~~~p.mixValue) + coefMult (wet p xL m) p.mixValue := by
  refine ⟨Channel.output_eq_reverb h.left h.emptyL n, fun hstereo => ?_,
    fun m hmono hle hlt => ?_⟩
  · rw [audioROutData, if_pos hstereo]
    exact Channel.output_eq_reverb h.right h.emptyR n
  -- in mono the right sink takes the left output word of its own tick
  · rw [audioROutData, if_neg (by rw [hmono]; decide)]
    exact h.left.dataOut_eq h.emptyL hle hlt

/-- Ticks every 1041 edges on the left and every 1002 edges on the right, rising samples, and mono
    from edge 20000 on. -/
def switched (t : ℕ) : In where
  rst := true
  audioLInValid := every 0 1041 t
  audioLInData := BitVec.ofNat 24 (t / 1041)
  audioLOutReady := true
  audioRInValid := every 0 1002 t
  audioRInData := BitVec.ofNat 24 (3 * (t / 1002))
  audioROutReady := true
  params := ⟨0x800000, 5, 0x1000000, 0x800000⟩
  stereoNMono := decide (t < 20000)

/-- From power-up, a run in which the stereo switch is moved. -/
theorem playing_switched : Playing (run edge powerUp switched) switched (fun n => 0 + 1041 * n)
    (fun n => 0 + 1002 * n) (BitVec.ofNat 24) (fun n => BitVec.ofNat 24 (3 * n))
    ⟨0x800000, 5, 0x1000000, 0x800000⟩ where
  left :=
    { Channel.paced_steady (show 1002 ≤ 1041 by decide) (BitVec.ofNat 24)
        (p := ⟨0x800000, 5, 0x1000000, 0x800000⟩) (by decide) (by decide) with
      run := isRun_channelL (isRun_run _ _)
      idle := powerUp_idle }
  right :=
    { Channel.paced_steady (le_refl 1002) (fun n => BitVec.ofNat 24 (3 * n))
        (p := ⟨0x800000, 5, 0x1000000, 0x800000⟩) (by decide) (by decide) with
      run := isRun_channelR (isRun_run _ _)
      idle := powerUp_idle }
  emptyL := Channel.sample_powerUp
  emptyR := Channel.sample_powerUp

/-- Right tick 30 is in mono, 912 edges after left tick 28. -/
theorem outputs_eq_reverb_switched :
    (run edge powerUp switched (0 + 1002 * 30)).audioROutData (switched (0 + 1002 * 30)) =
      coefMult (BitVec.ofNat 24 28) (~~~0x800000) +
        coefMult (wet ⟨0x800000, 5, 0x1000000, 0x800000⟩ (BitVec.ofNat 24) 28) 0x800000 :=
  (outputs_eq_reverb playing_switched 30).2.2 28 (by decide) (by decide) (by decide)

end ReverbFPGA

end Reverb
