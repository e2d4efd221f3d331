import ReverbFPGA.Hardware.EarlyLate

namespace Reverb

/-!
# The channels of the reverberator

The datapath of `reverbFPGA.vhd`, which has the generic `dataSize` at 24: one `Channel` for the
left and one for the right, and the multiplexer of the right output.

`Line` numbers the 39 delay lines of a channel, so that a statement about every one of them
is a statement about `Channel.line s l`, whose ports are `Channel.lineIn s i l`
(`Channel.line_edge`).
-/

open Clocked Signed

/-! ### One channel of `reverbFPGA.vhd` -/

/-- The registers of the left or of the right channel. -/
structure Channel where
  earlyReverb : EarlyReverb
  lateReverb : LateReverb

/-- The inputs of a channel: the clocked ports, the sample and the parameter registers. -/
structure Channel.In where
  rst : Bool
  dataSampledValid : Bool
  dataIn : BitVec 24
  mixValue : BitVec 24
  preDelayValue : BitVec 10
  decayValue : BitVec 25
  dampingValue : BitVec 25

namespace Channel

/-- The ports of `earlyReverbL` or `earlyReverbR`. -/
def earlyReverbIn (i : In) : EarlyReverb.In where
  rst := i.rst
  dataSampledValid := i.dataSampledValid
  dataIn := i.dataIn
  nbrDelaysPerLineInitEcho := i.preDelayValue.toNat

/-- The ports of `lateReverbL` or `lateReverbR`. -/
def lateReverbIn (s : Channel) (i : In) : LateReverb.In where
  rst := i.rst
  dataSampledValid := i.dataSampledValid
  dataIn := s.earlyReverb.dataOutToLateReverb
  dampingValue := i.dampingValue
  decayValue := i.decayValue

/-- A rising edge of a channel: the late reverb sees the last near echo as it was before the
    edge. -/
def edge (s : Channel) (i : In) : Channel where
  earlyReverb := s.earlyReverb.edge (earlyReverbIn i)
  lateReverb := s.lateReverb.edge (s.lateReverbIn i)

/-- `sumEarlyLateL` or `sumEarlyLateR`: one bit more than the two words. -/
def sumEarlyLate (s : Channel) : BitVec 25 :=
  resize 25 s.earlyReverb.dataOutEarlyReverb + resize 25 s.lateReverb.dataOut

/-- The dry signal takes the complement of the mix. -/
def dryGain (i : In) : BitVec 24 := coefMult i.dataIn (~~~i.mixValue)

/-- The wet signal is half the sum of the early and the late reverb. -/
def wetGain (s : Channel) (i : In) : BitVec 24 := coefMult (slice 1 24 s.sumEarlyLate) i.mixValue

/-- The output word: `dataL_OUT`, and `dataR_OUT` in stereo. -/
def dataOut (s : Channel) (i : In) : BitVec 24 := dryGain i + s.wetGain i

end Channel

/-! ### `reverbFPGA.vhd` -/

/-- The registers of both channels. -/
structure ReverbFPGA where
  channelL : Channel
  channelR : Channel

/-- The parameter registers, written by the processor. -/
structure Params where
  mixValue : BitVec 24
  preDelayValue : BitVec 10
  decayValue : BitVec 25
  dampingValue : BitVec 25

/-- What the audio controller, the processor and the switches drive. -/
structure ReverbFPGA.In where
  rst : Bool
  audioLInValid : Bool
  audioLInData : BitVec 24
  audioLOutReady : Bool
  audioRInValid : Bool
  audioRInData : BitVec 24
  audioROutReady : Bool
  params : Params
  stereoNMono : Bool

namespace ReverbFPGA

/-- The inputs of the left channel: its tick is `audioL_IN_valid`. -/
def channelLIn (i : In) : Channel.In where
  rst := i.rst
  dataSampledValid := i.audioLInValid
  dataIn := i.audioLInData
  mixValue := i.params.mixValue
  preDelayValue := i.params.preDelayValue
  decayValue := i.params.decayValue
  dampingValue := i.params.dampingValue

/-- The inputs of the right channel: its tick is `audioR_IN_valid`. -/
def channelRIn (i : In) : Channel.In where
  rst := i.rst
  dataSampledValid := i.audioRInValid
  dataIn := i.audioRInData
  mixValue := i.params.mixValue
  preDelayValue := i.params.preDelayValue
  decayValue := i.params.decayValue
  dampingValue := i.params.dampingValue

/-- A rising edge of both channels. -/
def edge (s : ReverbFPGA) (i : In) : ReverbFPGA where
  channelL := s.channelL.edge (channelLIn i)
  channelR := s.channelR.edge (channelRIn i)

/-- The left channel of a run is a run of a channel. -/
theorem isRun_channelL {s : ℕ → ReverbFPGA} {inp : ℕ → In} (h : IsRun edge s inp) :
    IsRun Channel.edge (fun t => (s t).channelL) (fun t => channelLIn (inp t)) :=
  h.component channelL (fun _ i => channelLIn i) fun _ _ => rfl

theorem isRun_channelR {s : ℕ → ReverbFPGA} {inp : ℕ → In} (h : IsRun edge s inp) :
    IsRun Channel.edge (fun t => (s t).channelR) (fun t => channelRIn (inp t)) :=
  h.component channelR (fun _ i => channelRIn i) fun _ _ => rfl

/-- The valid of the source is handed to the sink, through no register. -/
def audioLOutValid (i : In) : Bool := i.audioLInValid

/-- The ready of the sink is handed to the source, through no register. -/
def audioLInReady (i : In) : Bool := i.audioLOutReady

/-- The left output word of the moment. -/
def audioLOutData (s : ReverbFPGA) (i : In) : BitVec 24 := s.channelL.dataOut (channelLIn i)

def audioROutValid (i : In) : Bool := i.audioRInValid

def audioRInReady (i : In) : Bool := i.audioROutReady

/-- In mono the right output is the left output word of the moment. -/
def audioROutData (s : ReverbFPGA) (i : In) : BitVec 24 :=
  if i.stereoNMono then s.channelR.dataOut (channelRIn i) else s.audioLOutData i

end ReverbFPGA

/-! ### The delay lines of a channel -/

/-- The delay lines of a channel. -/
inductive Line where
  | mainEcho (j : Fin 12)
  | nearEcho (j : Fin 7)
  | lfcf1 (j : Fin 8)
  | lfcf2 (j : Fin 8)
  | apf (j : Fin 4)
  deriving DecidableEq

namespace Line

/-- The generic `dataSize` of the line. -/
def width : Line → ℕ
  | mainEcho _ => 24
  | nearEcho _ => 24
  | lfcf1 _ => 25
  | lfcf2 _ => 25
  | apf _ => 26

/-- The port `currentN` of the line when the predelay register holds `p`. -/
def currentN (p : ℕ) : Line → ℕ
  | mainEcho _ => p
  | nearEcho _ => nearEchoCurrentN p
  | lfcf1 j => nLFCF j / 2
  | lfcf2 j => nLFCF j / 2
  | apf j => nAPF j

/-- The generic `Ns_max` of the line. -/
def nsMax : Line → ℕ
  | mainEcho _ => mainEchoNsMax
  | nearEcho _ => nearEchoNsMax
  | lfcf1 j => nLFCF j / 2
  | lfcf2 j => nLFCF j / 2
  | apf j => nAPF j

end Line

namespace Channel

/-- The registers of a delay line of the channel. -/
def line (s : Channel) : (l : Line) → DelayLine l.width
  | .mainEcho j => s.earlyReverb.delayLines j
  | .nearEcho j => s.earlyReverb.nearEchoes j
  | .lfcf1 j => (s.lateReverb.lfcf j).delayLineOperator1
  | .lfcf2 j => (s.lateReverb.lfcf j).delayLineOperator2
  | .apf j => (s.lateReverb.apf j).delayLineOperator

/-- The ports of a delay line of the channel. -/
def lineIn (s : Channel) (i : In) : (l : Line) → DelayLine.In l.width
  | .mainEcho j => s.earlyReverb.delayLines.lineIn
      (EarlyReverb.delayLinesIn (earlyReverbIn i)) j
  | .nearEcho j => s.earlyReverb.nearEchoes.lineIn
      (s.earlyReverb.nearEchoesIn (earlyReverbIn i)) j
  | .lfcf1 j => (s.lateReverb.lfcf j).delayLine1In (nLFCF j)
      (LateReverb.lfcfIn (s.lateReverbIn i))
  | .lfcf2 j => (s.lateReverb.lfcf j).delayLine2In (nLFCF j)
      (LateReverb.lfcfIn (s.lateReverbIn i))
  | .apf j => (s.lateReverb.apf j).delayLineIn (nAPF j) (s.lateReverb.apfIn (s.lateReverbIn i) j)

/-- **Every line is a delay line on its own ports.** -/
theorem line_edge (s : Channel) (i : In) (l : Line) :
    (s.edge i).line l = (s.line l).edge (s.lineIn i l) := by
  cases l <;> rfl

/-- A delay line of a run of a channel is a run of a delay line. -/
theorem isRun_line {s : ℕ → Channel} {inp : ℕ → In} (h : IsRun edge s inp) (l : Line) :
    IsRun DelayLine.edge (fun t => (s t).line l) (fun t => (s t).lineIn (inp t) l) :=
  h.component (fun s => s.line l) (fun s i => s.lineIn i l) fun s i => s.line_edge i l

@[simp] theorem lineIn_rst (s : Channel) (i : In) (l : Line) : (s.lineIn i l).rst = i.rst := by
  cases l <;> rfl

@[simp] theorem lineIn_dataSampledValid (s : Channel) (i : In) (l : Line) :
    (s.lineIn i l).dataSampledValid = i.dataSampledValid := by
  cases l <;> rfl

/-- The delay of a line depends on the predelay register only. -/
@[simp] theorem lineIn_currentN (s : Channel) (i : In) (l : Line) :
    (s.lineIn i l).currentN = l.currentN i.preDelayValue.toNat := by
  cases l <;> rfl

/-- The low-pass filter of a comb. -/
def lpFilter (s : Channel) (j : Fin 8) : LPF 25 := (s.lateReverb.lfcf j).lpFilter

/-- The ports of the low-pass filter of a comb. -/
def lpFilterIn (s : Channel) (i : In) (j : Fin 8) : LPF.In 25 :=
  (s.lateReverb.lfcf j).lpFilterIn (LateReverb.lfcfIn (s.lateReverbIn i))

theorem lpFilter_edge (s : Channel) (i : In) (j : Fin 8) :
    (s.edge i).lpFilter j = (s.lpFilter j).edge (s.lpFilterIn i j) := rfl

/-- A filter of a run of a channel is a run of a filter. -/
theorem isRun_lpFilter {s : ℕ → Channel} {inp : ℕ → In} (h : IsRun edge s inp) (j : Fin 8) :
    IsRun LPF.edge (fun t => (s t).lpFilter j) (fun t => (s t).lpFilterIn (inp t) j) :=
  h.component (fun s => s.lpFilter j) (fun s i => s.lpFilterIn i j)
    fun s i => s.lpFilter_edge i j

end Channel

end Reverb
