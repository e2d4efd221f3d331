import Mathlib.Data.Fin.VecNotation
import ReverbFPGA.Hardware.Filters
import ReverbFPGA.Hardware.Chain

namespace Reverb

/-!
# Early and late reverb

`earlyReverb.vhd` and `lateReverb.vhd`, with the generic `dataSize` at 24.  The source numbers
its arrays of instances from 1, the model from 0.
-/

open Signed

/-! ### `earlyReverb.vhd` -/

/-- `nbrDelayLines_initEcho`. -/
def nbrDelayLinesInitEcho : ℕ := 12

/-- `ratio_initEcho_earlyEchoes`. -/
def ratioInitEchoEarlyEchoes : ℕ := 50

/-- The generic `Ns_max` of the lines of the main echo. -/
def mainEchoNsMax : ℕ := 1000

/-- The generic `Ns_max` of the lines of the near echoes. -/
def nearEchoNsMax : ℕ := 1000 * nbrDelayLinesInitEcho / ratioInitEchoEarlyEchoes

/-- The port `currentN` of the lines of the near echoes. -/
def nearEchoCurrentN (nbrDelaysPerLineInitEcho : ℕ) : ℕ :=
  nbrDelaysPerLineInitEcho * nbrDelayLinesInitEcho / ratioInitEchoEarlyEchoes + 5

/-- The weights of the eight echoes. -/
def coefs : Fin 8 → BitVec 24 :=
  ![0b111111111111111111111111,
    0b110110011001100110011001,
    0b101111111111111111111111,
    0b101010111000010100011110,
    0b100110011001100110011001,
    0b100011001100110011001100,
    0b100001010001111010110111,
    0b011111111111111111111111]

/-- The registers of `earlyReverb`: the lines of the main echo and of the near echoes. -/
structure EarlyReverb where
  delayLines : Chain 24 12
  nearEchoes : Chain 24 7

/-- The input ports of `earlyReverb`. -/
structure EarlyReverb.In where
  rst : Bool
  dataSampledValid : Bool
  dataIn : BitVec 24
  nbrDelaysPerLineInitEcho : ℕ

namespace EarlyReverb

/-- The main echo, and each near echo. -/
def delayedInputs (s : EarlyReverb) : Fin 8 → BitVec 24 :=
  Fin.cases (s.delayLines 11).dataOut fun j => (s.nearEchoes j).dataOut

/-- The ports of the lines of the main echo. -/
def delayLinesIn (i : In) : Chain.In 24 12 where
  rst := i.rst
  dataSampledValid := i.dataSampledValid
  dataIn := i.dataIn
  currentN := fun _ => i.nbrDelaysPerLineInitEcho

/-- The ports of the lines of the near echoes. -/
def nearEchoesIn (s : EarlyReverb) (i : In) : Chain.In 24 7 where
  rst := i.rst
  dataSampledValid := i.dataSampledValid
  dataIn := s.delayedInputs 0
  currentN := fun _ => nearEchoCurrentN i.nbrDelaysPerLineInitEcho

/-- The weighted echoes. -/
def inputAdder (s : EarlyReverb) (j : Fin 8) : BitVec 24 :=
  coefMult (s.delayedInputs j) (coefs j)

/-- The sum of the eight weighted taps, with three bits more than a word. -/
def outputAdder (s : EarlyReverb) : BitVec 27 :=
  resize 27 (s.inputAdder 0) + resize 27 (s.inputAdder 1) + resize 27 (s.inputAdder 2) +
    resize 27 (s.inputAdder 3) + resize 27 (s.inputAdder 4) + resize 27 (s.inputAdder 5) +
    resize 27 (s.inputAdder 6) + resize 27 (s.inputAdder 7)

/-- The last near echo feeds the late reverb. -/
def dataOutToLateReverb (s : EarlyReverb) : BitVec 24 := s.delayedInputs 7

/-- An eighth of the sum. -/
def dataOutEarlyReverb (s : EarlyReverb) : BitVec 24 := slice 3 24 s.outputAdder

/-- A rising edge of the nineteen delay lines; each one reads the output of the line before it. -/
def edge (s : EarlyReverb) (i : In) : EarlyReverb where
  delayLines := s.delayLines.edge (delayLinesIn i)
  nearEchoes := s.nearEchoes.edge (s.nearEchoesIn i)

end EarlyReverb

/-! ### `lateReverb.vhd` -/

/-- The delays of the parallel combs. -/
def nLFCF : Fin 8 → ℕ := ![1857, 1917, 1791, 1722, 1577, 1656, 1488, 1416]

/-- The delays of the all-passes in series. -/
def nAPF : Fin 4 → ℕ := ![443, 997, 881, 701]

/-- The registers of `lateReverb`. -/
structure LateReverb where
  lfcf : Fin 8 → LFCF
  apf : Fin 4 → APF

/-- The input ports of `lateReverb`. -/
structure LateReverb.In where
  rst : Bool
  dataSampledValid : Bool
  dataIn : BitVec 24
  dampingValue : BitVec 25
  decayValue : BitVec 25

namespace LateReverb

/-- The ports of each comb. -/
def lfcfIn (i : In) : LFCF.In where
  rst := i.rst
  dataSampledValid := i.dataSampledValid
  dataIn := i.dataIn
  dampingValue := i.dampingValue
  decayValue := i.decayValue

/-- The outputs of the combs. -/
def inputAdder (s : LateReverb) (j : Fin 8) : BitVec 24 := (s.lfcf j).dataOut

/-- The sum of the eight combs, with three bits more than a word. -/
def outputAdder (s : LateReverb) : BitVec 27 :=
  resize 27 (s.inputAdder 0) + resize 27 (s.inputAdder 1) + resize 27 (s.inputAdder 2) +
    resize 27 (s.inputAdder 3) + resize 27 (s.inputAdder 4) + resize 27 (s.inputAdder 5) +
    resize 27 (s.inputAdder 6) + resize 27 (s.inputAdder 7)

/-- What the `dataIN` port of all-pass `j` is wired to: the eighth of the sum of the combs, or
    the output of the all-pass before.  Index 4 is past the last all-pass, the output of the
    series. -/
def apfDataIn (s : LateReverb) : ℕ → BitVec 24
  | 0 => slice 3 24 s.outputAdder
  | j + 1 => (s.apf (Fin.ofNat 4 j)).dataOut (s.apfDataIn j)

/-- The ports of all-pass `j`. -/
def apfIn (s : LateReverb) (i : In) (j : Fin 4) : APF.In where
  rst := i.rst
  dataSampledValid := i.dataSampledValid
  dataIn := s.apfDataIn j

/-- The output of the last all-pass. -/
def dataOut (s : LateReverb) : BitVec 24 := s.apfDataIn 4

/-- A rising edge of the combs and of the all-passes. -/
def edge (s : LateReverb) (i : In) : LateReverb where
  lfcf := fun j => (s.lfcf j).edge (nLFCF j) (lfcfIn i)
  apf := fun j => (s.apf j).edge (nAPF j) (s.apfIn i j)

end LateReverb

end Reverb
