import ReverbFPGA.Hardware.SampleModel
import ReverbFPGA.Hardware.AudioFifos
import ReverbFPGA.Hardware.AudioLane

namespace Reverb

/-!
# The channels and the audio controller

`reverbFPGA.vhd` closes the loop between the audio controller and the two channels: the words of
the codec come in as `audioL_IN_data` and `audioR_IN_data`, and `valid` and `ready` are passed
through.  `AudioSystem` is the two together, from the pins of the codec to the pins of the codec.

* `AudioSystem.laneL`, `AudioSystem.laneR` — each side of the controller is an `AudioLane` on its own
  ports (`Codec.isRun_laneL`, `Codec.isRun_laneR`);
* `AudioSystem.Codec` — a run from a reset of the controller on, with a codec that works in periods
  of its clock of the sides;
* `AudioSystem.codec_square` — such a run, with a square wave for that clock.
-/

open Clocked Fifo

/-! ### The clock of the sides -/

namespace ClockEdge

variable {c : ℕ → ClockEdge} {clk : ℕ → Bool} {E : ℕ → ℕ} {g : ℕ}

/-- Without a change the two levels are the same. -/
theorem cur_of_quiet {c : ClockEdge} (h : c.foundEdge = false) : c.curTestClk = c.lastTestClk := by
  rcases c with ⟨_ | _, _ | _⟩ <;> simp_all [foundEdge]

/-- At a change they are not. -/
theorem cur_of_found {c : ClockEdge} (h : c.foundEdge = true) :
    c.curTestClk = !c.lastTestClk := by
  rcases c with ⟨_ | _, _ | _⟩ <;> simp_all [foundEdge]

/-- Up to the first change the level is that of the start. -/
theorem last_before (h : IsRun edge c clk) (hp : Pulses (fun t => (c t).foundEdge) E g) {t : ℕ}
    (ht : t ≤ E 0) : (c t).lastTestClk = (c 0).lastTestClk := by
  induction t with
  | zero => rfl
  | succ t ih =>
    rw [h t, edge, ← ih (by omega)]
    exact cur_of_quiet (hp.quiet_before (by omega))

/-- After a change the level is the other one up to the next. -/
theorem last_after (h : IsRun edge c clk) (hp : Pulses (fun t => (c t).foundEdge) E g) {n t : ℕ}
    (h1 : E n + 1 ≤ t) (h2 : t ≤ E (n + 1)) : (c t).lastTestClk = !(c (E n)).lastTestClk := by
  induction t, h1 using Nat.le_induction with
  | base =>
    rw [h (E n)]
    exact cur_of_found (hp.tick_at n)
  | succ t h1 ih =>
    rw [h t, edge, ← ih (by omega)]
    exact cur_of_quiet (hp.quiet (n := n) (by omega) (by omega))

/-- The changes take turns. -/
theorem last_at (h : IsRun edge c clk) (hp : Pulses (fun t => (c t).foundEdge) E g)
    (hg : 1 ≤ g) (n : ℕ) :
    (c (E n)).lastTestClk = ((c 0).lastTestClk ^^ decide (n % 2 = 1)) := by
  induction n with
  | zero => rw [last_before h hp le_rfl]; simp
  | succ n ih =>
    have hsp := hp.spaced n
    -- between two changes the level stays, so that each one is found at the level of the last
    have hodd : decide ((n + 1) % 2 = 1) = !decide (n % 2 = 1) := by
      rw [← decide_not]
      congr 1
      rw [eq_iff_iff]
      omega
    rw [last_after h hp (n := n) (by omega) le_rfl, ih, hodd, Bool.xor_not]

/-- A change from a low level is a rising one. -/
theorem risingEdge_eq {c : ClockEdge} (h : c.foundEdge = true) :
    c.risingEdge = !c.lastTestClk := by
  rw [risingEdge, h, cur_of_found h, Bool.true_and]

/-- A change from a high level is a falling one. -/
theorem fallingEdge_eq {c : ClockEdge} (h : c.foundEdge = true) :
    c.fallingEdge = c.lastTestClk := by
  rw [fallingEdge, h, Bool.true_and]

/-- Without a change there is no edge of either kind. -/
theorem edges_of_quiet {c : ClockEdge} (h : c.foundEdge = false) :
    c.risingEdge = false ∧ c.fallingEdge = false := by
  simp [risingEdge, fallingEdge, h]

/-- A square wave that is low for `half` edges, then high for as many. -/
def square (half t : ℕ) : Bool := t / half % 2 == 1

/-- It changes every `half` edges. -/
theorem square_succ {half : ℕ} (t : ℕ) :
    (square half t ^^ square half (t + 1)) = decide (half ∣ t + 1) := by
  -- the number of half periods that are over grows at the multiples of `half`
  rw [square, square, Nat.succ_div]
  by_cases hdvd : half ∣ t + 1
  · rw [if_pos hdvd, decide_eq_true hdvd]
    rcases Nat.mod_two_eq_zero_or_one (t / half) with h | h
    · rw [h, show (t / half + 1) % 2 = 1 by omega]
      rfl
    · rw [h, show (t / half + 1) % 2 = 0 by omega]
      rfl
  · rw [if_neg hdvd, decide_eq_false hdvd, Nat.add_zero, Bool.xor_self]

/-- Each change is found one edge later. -/
theorem pulses_square (h : IsRun edge c (square g)) (h0 : c 0 = ⟨false, false⟩) (hg : 0 < g) :
    Pulses (fun t => (c t).foundEdge) (fun n => g + 1 + g * n) g := by
  have hfound : (fun t => (c t).foundEdge) = every (g + 1) g := by
    ext1 t
    -- the pair of registers shows the wave of the last two edges, from edge 2 on
    match t with
    | 0 => simp [h0, foundEdge, every]
    | 1 =>
      have hlow : square g 0 = false := by simp [square]
      rw [h 0, edge, h0, hlow, every, decide_eq_false (by omega)]
      rfl
    | n + 2 =>
      have hfind : (c (n + 2)).foundEdge = (square g n ^^ square g (n + 1)) := by
        rw [h (n + 1), h n]
        rfl
      rw [hfind, square_succ, every]
      congr 1
      rw [eq_iff_iff]
      constructor
      · rintro ⟨m, hm⟩
        obtain ⟨m, rfl⟩ : ∃ k, m = k + 1 := ⟨m - 1, by
          rcases Nat.eq_zero_or_pos m with rfl | hpos
          · omega
          · omega⟩
        rw [Nat.mul_succ] at hm
        refine ⟨by omega, ?_⟩
        rw [show n + 2 - (g + 1) = g * m by omega, Nat.mul_mod_right]
      · rintro ⟨hle, hmod⟩
        obtain ⟨m, hm⟩ := Nat.dvd_of_mod_eq_zero hmod
        exact ⟨m + 1, by rw [Nat.mul_succ]; omega⟩
  rw [hfound]
  exact pulses_every (g + 1) g

end ClockEdge

/-! ### `reverbFPGA.vhd` with its audio controller -/

variable (F : SyncFifo)

/-- The registers of the controller and of the two channels. -/
structure AudioSystem where
  audioController : AudioController F
  channels : ReverbFPGA

/-- The pins of the codec, the two resets, and what the processor and the switches drive. -/
structure AudioSystem.In where
  reset : Bool
  rst : Bool
  params : Params
  stereoNMono : Bool
  audAdcDat : Bool
  audAdcLrck : Bool
  audBclk : Bool
  audDacLrck : Bool

variable {F}

namespace AudioSystem

/-- The inputs of the channels. -/
def channelsIn (s : AudioSystem F) (i : In) : ReverbFPGA.In where
  rst := i.rst
  audioLInValid := s.audioController.fromAdcLeftChannelValid
  audioLInData := s.audioController.fromAdcLeftChannelData
  audioLOutReady := s.audioController.toDacLeftChannelReady
  audioRInValid := s.audioController.fromAdcRightChannelValid
  audioRInData := s.audioController.fromAdcRightChannelData
  audioROutReady := s.audioController.toDacRightChannelReady
  params := i.params
  stereoNMono := i.stereoNMono

/-- The inputs of the audio controller. -/
def controllerIn (s : AudioSystem F) (i : In) : AudioController.In where
  reset := i.reset
  fromAdcLeftChannelReady := ReverbFPGA.audioLInReady (s.channelsIn i)
  fromAdcRightChannelReady := ReverbFPGA.audioRInReady (s.channelsIn i)
  toDacLeftChannelData := s.channels.audioLOutData (s.channelsIn i)
  toDacLeftChannelValid := ReverbFPGA.audioLOutValid (s.channelsIn i)
  toDacRightChannelData := s.channels.audioROutData (s.channelsIn i)
  toDacRightChannelValid := ReverbFPGA.audioROutValid (s.channelsIn i)
  audAdcDat := i.audAdcDat
  audAdcLrck := i.audAdcLrck
  audBclk := i.audBclk
  audDacLrck := i.audDacLrck

/-- A rising edge of both parts, each of which reads the other as it was before. -/
def edge (s : AudioSystem F) (i : In) : AudioSystem F where
  audioController := s.audioController.edge (s.controllerIn i)
  channels := s.channels.edge (s.channelsIn i)

/-- The channels of a run of the system are a run of the channels. -/
theorem isRun_channels {s : ℕ → AudioSystem F} {inp : ℕ → In} (h : IsRun edge s inp) :
    IsRun ReverbFPGA.edge (fun t => (s t).channels) (fun t => (s t).channelsIn (inp t)) :=
  h.component channels channelsIn fun _ _ => rfl

/-! ### The two sides -/

/-- The FIFOs of the left side, in and out. -/
def laneL (s : AudioSystem F) : AudioLane F :=
  ⟨s.audioController.audioInDeserializer.left, s.audioController.audioOutSerializer.left⟩

def laneR (s : AudioSystem F) : AudioLane F :=
  ⟨s.audioController.audioInDeserializer.right, s.audioController.audioOutSerializer.right⟩

/-- The serializer takes a left word. -/
def readLeft (s : AudioSystem F) (i : In) : Bool :=
  s.audioController.audioOutSerializer.readLeftChannel
    (s.audioController.serializerIn (s.controllerIn i))

def readRight (s : AudioSystem F) (i : In) : Bool :=
  s.audioController.audioOutSerializer.readRightChannel
    (s.audioController.serializerIn (s.controllerIn i))

/-- What the rest of the system does to the left side. -/
def laneLIn (s : AudioSystem F) (i : In) : AudioLane.In where
  write := s.audioController.adcLeftRightClockEdges.fallingEdge &&
    s.audioController.doneAdcChannelSync
  data := s.audioController.audioInDeserializer.dataInShiftReg
  outData := s.channels.audioLOutData (s.channelsIn i)
  read := s.readLeft i

def laneRIn (s : AudioSystem F) (i : In) : AudioLane.In where
  write := s.audioController.adcLeftRightClockEdges.risingEdge &&
    s.audioController.doneAdcChannelSync
  data := s.audioController.audioInDeserializer.dataInShiftReg
  outData := s.channels.audioROutData (s.channelsIn i)
  read := s.readRight i

/-- Outside a reset the left side moves as a lane. -/
theorem laneL_edge {s : AudioSystem F} {i : In} (h : i.reset = false) :
    (s.edge i).laneL = s.laneL.edge (s.laneLIn i) := by
  show AudioLane.mk (InChannel.edge _ i.reset _ _ _) (OutChannel.edge _ i.reset _ _ _) = _
  rw [h]
  rfl

theorem laneR_edge {s : AudioSystem F} {i : In} (h : i.reset = false) :
    (s.edge i).laneR = s.laneR.edge (s.laneRIn i) := by
  show AudioLane.mk (InChannel.edge _ i.reset _ _ _) (OutChannel.edge _ i.reset _ _ _) = _
  rw [h]
  rfl

/-! ### From a reset on -/

/-- What a reset edge leaves in the audio controller. -/
structure Cleared (s : AudioController F) : Prop where
  words : ∀ f, F.words (s.fifo f) = []
  readSpaceL : s.audioInDeserializer.left.readSpace = 0
  readSpaceR : s.audioInDeserializer.right.readSpace = 0
  writeSpaceL : s.audioOutSerializer.left.writeSpace = 0
  writeSpaceR : s.audioOutSerializer.right.writeSpace = 0
  doneAdc : s.doneAdcChannelSync = false
  doneDac : s.doneDacChannelSync = false
  wasRead : s.audioOutSerializer.leftChannelWasRead = false

/-- A reset edge clears the controller, whatever state it hits. -/
theorem cleared_edge (s : AudioController F) {i : AudioController.In} (h : i.reset = true) :
    Cleared (s.edge i) where
  words := fun f => by
    rw [AudioController.fifo_edge]
    exact F.words_sclr _ _ (by rw [AudioController.fifoIn_sclr, h])
  readSpaceL := if_pos h
  readSpaceR := if_pos h
  writeSpaceL := if_pos h
  writeSpaceR := if_pos h
  doneAdc := if_pos h
  doneDac := if_pos h
  wasRead := if_pos h

/-- The run of a system after a reset of its audio controller, with a codec that drives the two
    clocks of the sides alike; `E 0`, `E 1`, … are the edges at which the controller finds that
    they have changed. -/
structure Codec (s : ℕ → AudioSystem F) (inp : ℕ → In) (E : ℕ → ℕ) (g : ℕ) : Prop where
  run : IsRun edge s inp
  reset : ∀ t, (inp t).reset = false
  cleared : Cleared (s 0).audioController
  lrck : ∀ t, (inp t).audDacLrck = (inp t).audAdcLrck
  clocks : (s 0).audioController.dacLeftRightClockEdges =
    (s 0).audioController.adcLeftRightClockEdges
  changes : Pulses (fun t => (s t).audioController.adcLeftRightClockEdges.foundEdge) E g
  five_le : 5 ≤ g

/-- The number of the first rising change. -/
def firstRise (s : AudioSystem F) : ℕ :=
  s.audioController.adcLeftRightClockEdges.lastTestClk.toNat

/-- The edge at which left word `k` of the codec is complete: the falling changes of the clock,
    from the first one after a rising one on. -/
def leftWord (s : ℕ → AudioSystem F) (E : ℕ → ℕ) (k : ℕ) : ℕ := E ((s 0).firstRise + 2 * k + 1)

/-- The edge at which right word `k` of the codec is complete. -/
def rightWord (s : ℕ → AudioSystem F) (E : ℕ → ℕ) (k : ℕ) : ℕ := E ((s 0).firstRise + 2 * k + 2)

namespace Codec

variable {s : ℕ → AudioSystem F} {inp : ℕ → In} {E : ℕ → ℕ} {g : ℕ}

/-- The left side of the run is a run of a lane. -/
theorem isRun_laneL (h : Codec s inp E g) :
    IsRun AudioLane.edge (fun t => (s t).laneL) (fun t => (s t).laneLIn (inp t)) := by
  intro t
  show (s (t + 1)).laneL = _
  rw [h.run t, laneL_edge (h.reset t)]

theorem isRun_laneR (h : Codec s inp E g) :
    IsRun AudioLane.edge (fun t => (s t).laneR) (fun t => (s t).laneRIn (inp t)) := by
  intro t
  show (s (t + 1)).laneR = _
  rw [h.run t, laneR_edge (h.reset t)]

/-- The edge detector of the run follows the clock of the sides. -/
theorem isRun_clock (h : Codec s inp E g) :
    IsRun ClockEdge.edge (fun t => (s t).audioController.adcLeftRightClockEdges)
      (fun t => (inp t).audAdcLrck) :=
  h.run.component (fun s => s.audioController.adcLeftRightClockEdges) (fun _ i => i.audAdcLrck)
    fun _ _ => rfl

/-- The controller sees both clocks alike. -/
theorem dacClock (h : Codec s inp E g) (t : ℕ) :
    (s t).audioController.dacLeftRightClockEdges =
      (s t).audioController.adcLeftRightClockEdges := by
  induction t with
  | zero => exact h.clocks
  | succ t ih =>
    rw [h.run t]
    show ClockEdge.edge _ _ = ClockEdge.edge _ _
    rw [ih]
    congr 1
    exact h.lrck t

/-! The changes, in their turns. -/

/-- The changes of the clock alternate, so that their number gives its level. -/
theorem last_at (h : Codec s inp E g) (n : ℕ) :
    (s (E ((s 0).firstRise + n))).audioController.adcLeftRightClockEdges.lastTestClk =
      decide (n % 2 = 1) := by
  have hg := h.five_le
  rw [ClockEdge.last_at h.isRun_clock h.changes (by omega), firstRise]
  -- a clock that is high at the start falls first, and `firstRise` skips that change
  cases (s 0).audioController.adcLeftRightClockEdges.lastTestClk with
  | false => simp
  | true =>
    rw [Bool.toNat_true, Bool.true_xor, ← decide_not]
    congr 1
    rw [eq_iff_iff]
    omega

/-- A left word is complete at a falling change. -/
theorem falling_at (h : Codec s inp E g) (k : ℕ) :
    (s (leftWord s E k)).audioController.adcLeftRightClockEdges.fallingEdge = true ∧
      (s (leftWord s E k)).audioController.adcLeftRightClockEdges.risingEdge = false := by
  have hfound := h.changes.tick_at ((s 0).firstRise + 2 * k + 1)
  have hlast := h.last_at (2 * k + 1)
  have hodd : (2 * k + 1) % 2 = 1 := by omega
  rw [hodd, ← Nat.add_assoc] at hlast
  rw [leftWord, ClockEdge.fallingEdge_eq hfound, ClockEdge.risingEdge_eq hfound, hlast]
  exact ⟨rfl, rfl⟩

/-- A right word is complete at a rising one. -/
theorem rising_at (h : Codec s inp E g) (n : ℕ) :
    (s (E ((s 0).firstRise + 2 * n))).audioController.adcLeftRightClockEdges.risingEdge = true ∧
      (s (E ((s 0).firstRise + 2 * n))).audioController.adcLeftRightClockEdges.fallingEdge =
        false := by
  have hfound := h.changes.tick_at ((s 0).firstRise + 2 * n)
  have hlast := h.last_at (2 * n)
  have hodd : ¬ (2 * n) % 2 = 1 := by omega
  rw [decide_eq_false hodd] at hlast
  rw [ClockEdge.fallingEdge_eq hfound, ClockEdge.risingEdge_eq hfound, hlast]
  exact ⟨rfl, rfl⟩

end Codec

/-! ### A run -/

/-- The audio controller after a reset edge at which the clocks of the codec are low, with plain
    FIFOs, and the channels at power-up. -/
def afterReset : AudioSystem (plain (BitVec 24) 128) where
  audioController :=
    { bitClockEdges := ⟨false, false⟩
      adcLeftRightClockEdges := ⟨false, false⟩
      dacLeftRightClockEdges := ⟨false, false⟩
      doneAdcChannelSync := false
      doneDacChannelSync := false
      audioInDeserializer := ⟨⟨([], true), 0⟩, ⟨([], true), 0⟩, 0, ⟨0, false⟩⟩
      audioOutSerializer := ⟨⟨([], true), 0⟩, ⟨([], true), 0⟩, false, 0, false⟩ }
  channels := ⟨Channel.powerUp, Channel.powerUp⟩

/-- The inputs of the audio controller at a reset edge with all its pins low. -/
def resetPins : AudioController.In where
  reset := true
  fromAdcLeftChannelReady := false
  fromAdcRightChannelReady := false
  toDacLeftChannelData := 0
  toDacLeftChannelValid := false
  toDacRightChannelData := 0
  toDacRightChannelValid := false
  audAdcDat := false
  audAdcLrck := false
  audBclk := false
  audDacLrck := false

/-- This state is one that a reset leaves. -/
theorem cleared_afterReset : Cleared afterReset.audioController := by
  -- one more reset edge changes nothing
  have hagain : afterReset.audioController.edge resetPins = afterReset.audioController := rfl
  rw [← hagain]
  exact cleared_edge _ rfl

/-- A codec at 48 kHz: with an edge of the system every 20 ns its clock of the sides changes about
    every 520 edges, and its bit clock every 8.  The bits are a square wave of their own. -/
def squareCodec (t : ℕ) : In where
  reset := false
  rst := true
  params := ⟨0x800000, 5, 0x1000000, 0x800000⟩
  stereoNMono := true
  audAdcDat := ClockEdge.square 40 t
  audAdcLrck := ClockEdge.square 520 t
  audBclk := ClockEdge.square 8 t
  audDacLrck := ClockEdge.square 520 t

/-- The run with this codec. -/
abbrev squareRun : ℕ → AudioSystem (plain (BitVec 24) 128) := run edge afterReset squareCodec

/-- The edges at which the controller finds that the clock of the sides has changed. -/
def squareChanges (n : ℕ) : ℕ := 520 + 1 + 520 * n

/-- The codec of the square waves is one of those of the theorems. -/
theorem codec_square : Codec squareRun squareCodec squareChanges 520 where
  run := isRun_run _ _
  reset := fun _ => rfl
  cleared := cleared_afterReset
  lrck := fun _ => rfl
  clocks := rfl
  changes := by
    -- of all clocks only the one of the sides matters for the timing
    refine ClockEdge.pulses_square (c := fun t =>
      (squareRun t).audioController.adcLeftRightClockEdges) ?_ rfl (by decide)
    exact (isRun_run afterReset squareCodec).component
      (fun s => s.audioController.adcLeftRightClockEdges) (fun _ i => i.audAdcLrck) fun _ _ => rfl
  five_le := by decide

/-- The clock is low at the start: left word `k` is complete at edge `1041 + 1040 * k`. -/
theorem leftWord_square (k : ℕ) : leftWord squareRun squareChanges k = 1041 + 1040 * k := by
  show 520 + 1 + 520 * (0 + 2 * k + 1) = _
  omega

end AudioSystem

end Reverb
