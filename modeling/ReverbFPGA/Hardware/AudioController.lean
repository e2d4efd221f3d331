import ReverbFPGA.Lib.Fifo

namespace Reverb

/-!
# The audio controller

`reverbFPGA_Qsys_audio_controller.v` and its modules, which sit between the serial bus of the codec
and the two channels of the design:

* `ClockEdge`, `BitCounter` — `altera_up_clock_edge.v` and `altera_up_audio_bit_counter.v`;
* `Deserializer` — `altera_up_audio_in_deserializer.v`, with one `InChannel` per side;
* `Serializer` — `altera_up_audio_out_serializer.v`, with one `OutChannel` per side;
* `AudioController` — all of them, with the two flags that wait for the first edges of the clock
  of the sides.

`altera_up_sync_fifo.v` is a FIFO of the vendor for 128 words, with the first word on show: a
parameter `F`.
-/

open Fifo

/-! ### `altera_up_clock_edge.v` -/

/-- The last two values of a clock of the codec, sampled by the clock of the design. -/
structure ClockEdge where
  curTestClk : Bool
  lastTestClk : Bool

namespace ClockEdge

/-- The register pair moves on by one sample. -/
def edge (s : ClockEdge) (testClk : Bool) : ClockEdge := ⟨testClk, s.curTestClk⟩

/-- The two samples differ. -/
def foundEdge (s : ClockEdge) : Bool := s.lastTestClk ^^ s.curTestClk

/-- They differ, and the newer one is high. -/
def risingEdge (s : ClockEdge) : Bool := s.foundEdge && s.curTestClk

/-- They differ, and the older one is high. -/
def fallingEdge (s : ClockEdge) : Bool := s.foundEdge && s.lastTestClk

end ClockEdge

/-! ### `altera_up_audio_bit_counter.v` -/

/-- The position in the word on the bus, and whether bits are still taken. -/
structure BitCounter where
  bitCounter : BitVec 5
  counting : Bool

/-- The counter for 24 bits. -/
def BitCounter.edge (s : BitCounter) (reset bitClkFallingEdge leftRightClkEdge : Bool) :
    BitCounter where
  bitCounter :=
    if reset then 0
    else if leftRightClkEdge then 23
    else if bitClkFallingEdge && s.bitCounter != 0 then s.bitCounter - 1
    else s.bitCounter
  counting :=
    if reset then false
    else if leftRightClkEdge then true
    else if bitClkFallingEdge && s.bitCounter == 0 then false
    else s.counting

/-! ### `altera_up_sync_fifo.v` -/

/-- `scfifo` with the parameters of `altera_up_sync_fifo.v`. -/
abbrev SyncFifo := ShowAhead (BitVec 24) 128

/-- The flag `fifo_is_full` with the seven bits of `words_used`. -/
def SyncFifo.used (F : SyncFifo) (s : F.State) : BitVec 8 :=
  BitVec.cons (F.full s) (BitVec.ofNat 7 (F.usedw s))

variable (F : SyncFifo)

/-! ### `altera_up_audio_in_deserializer.v` -/

/-- One side: its FIFO, and `left_audio_fifo_read_space` or `right_audio_fifo_read_space`. -/
structure InChannel where
  fifo : F.State
  readSpace : BitVec 8

variable {F}

namespace InChannel

/-- The ports of the FIFO: a word is written if there is room, and read if there is one. -/
def fifoIn (s : InChannel F) (reset write : Bool) (data : BitVec 24) (readEn : Bool) :
    Fifo.In (BitVec 24) where
  sclr := reset
  wrreq := write && !F.full s.fifo
  data := data
  rdreq := readEn && !F.empty s.fifo

/-- A rising edge of the FIFO; the read space is the number of words it held before the edge. -/
def edge (s : InChannel F) (reset write : Bool) (data : BitVec 24) (readEn : Bool) :
    InChannel F where
  fifo := F.edge s.fifo (s.fifoIn reset write data readEn)
  readSpace := if reset then 0 else SyncFifo.used F s.fifo

end InChannel

variable (F)

/-- The two sides share the shift register, which collects the bits of the current word. -/
structure Deserializer where
  left : InChannel F
  right : InChannel F
  dataInShiftReg : BitVec 24
  bitCounter : BitCounter

/-- The ports, with the edges that the controller has found on the clocks. -/
structure Deserializer.In where
  reset : Bool
  bitClkRisingEdge : Bool
  bitClkFallingEdge : Bool
  leftRightClkRisingEdge : Bool
  leftRightClkFallingEdge : Bool
  doneChannelSync : Bool
  serialAudioInData : Bool
  readLeftAudioDataEn : Bool
  readRightAudioDataEn : Bool

variable {F}

/-- The left word is complete when the clock of the sides falls, the right one when it rises. -/
def Deserializer.edge (s : Deserializer F) (i : In) : Deserializer F where
  left := s.left.edge i.reset (i.leftRightClkFallingEdge && i.doneChannelSync) s.dataInShiftReg
    i.readLeftAudioDataEn
  right := s.right.edge i.reset (i.leftRightClkRisingEdge && i.doneChannelSync) s.dataInShiftReg
    i.readRightAudioDataEn
  dataInShiftReg :=
    if i.reset then 0
    else if i.bitClkRisingEdge && s.bitCounter.counting then
      s.dataInShiftReg.shiftConcat i.serialAudioInData
    else s.dataInShiftReg
  bitCounter := s.bitCounter.edge i.reset i.bitClkFallingEdge
    (i.leftRightClkRisingEdge || i.leftRightClkFallingEdge)

/-! ### `altera_up_audio_out_serializer.v` -/

variable (F)

/-- One side: its FIFO, and `left_channel_fifo_write_space` or `right_channel_fifo_write_space`. -/
structure OutChannel where
  fifo : F.State
  writeSpace : BitVec 8

variable {F}

namespace OutChannel

/-- The ports of the FIFO: a word is written if there is room. -/
def fifoIn (s : OutChannel F) (reset dataEn : Bool) (data : BitVec 24) (read : Bool) :
    Fifo.In (BitVec 24) where
  sclr := reset
  wrreq := dataEn && !F.full s.fifo
  data := data
  rdreq := read

/-- A rising edge of the FIFO; the write space is what 128 words leave over. -/
def edge (s : OutChannel F) (reset dataEn : Bool) (data : BitVec 24) (read : Bool) :
    OutChannel F where
  fifo := F.edge s.fifo (s.fifoIn reset dataEn data read)
  writeSpace := if reset then 0 else 0x80 - SyncFifo.used F s.fifo

end OutChannel

variable (F)

/-- The two sides share the shift register, whose top bit goes out; `leftChannelWasRead` keeps a
    right word from being sent without its left one. -/
structure Serializer where
  left : OutChannel F
  right : OutChannel F
  leftChannelWasRead : Bool
  dataOutShiftReg : BitVec 24
  serialAudioOutData : Bool

/-- The ports, with the edges that the controller lets through once the sides are synchronised. -/
structure Serializer.In where
  reset : Bool
  bitClkFallingEdge : Bool
  leftRightClkRisingEdge : Bool
  leftRightClkFallingEdge : Bool
  leftChannelData : BitVec 24
  leftChannelDataEn : Bool
  rightChannelData : BitVec 24
  rightChannelDataEn : Bool

variable {F}

namespace Serializer

/-- `read_left_channel`: at a rising edge of the sides, if both FIFOs hold a word. -/
def readLeftChannel (s : Serializer F) (i : In) : Bool :=
  i.leftRightClkRisingEdge && !F.empty s.left.fifo && !F.empty s.right.fifo

/-- `read_right_channel`: at a falling edge, if the left word has gone. -/
def readRightChannel (s : Serializer F) (i : In) : Bool :=
  i.leftRightClkFallingEdge && s.leftChannelWasRead

/-- A word that is read is loaded; an edge of the sides without one loads silence. -/
def edge (s : Serializer F) (i : In) : Serializer F where
  left := s.left.edge i.reset i.leftChannelDataEn i.leftChannelData (s.readLeftChannel i)
  right := s.right.edge i.reset i.rightChannelDataEn i.rightChannelData (s.readRightChannel i)
  leftChannelWasRead :=
    if i.reset then false
    else if s.readLeftChannel i then true
    else if s.readRightChannel i then false
    else s.leftChannelWasRead
  dataOutShiftReg :=
    if i.reset then 0
    else if s.readLeftChannel i then F.q s.left.fifo
    else if s.readRightChannel i then F.q s.right.fifo
    else if i.leftRightClkRisingEdge || i.leftRightClkFallingEdge then 0
    else if i.bitClkFallingEdge then s.dataOutShiftReg.shiftConcat false
    else s.dataOutShiftReg
  serialAudioOutData := if i.reset then false else s.dataOutShiftReg.getLsbD 23

end Serializer

/-! ### `reverbFPGA_Qsys_audio_controller.v` -/

variable (F)

/-- The edge detectors, the two flags `done_adc_channel_sync` and `done_dac_channel_sync`, and the
    two converters. -/
structure AudioController where
  bitClockEdges : ClockEdge
  adcLeftRightClockEdges : ClockEdge
  dacLeftRightClockEdges : ClockEdge
  doneAdcChannelSync : Bool
  doneDacChannelSync : Bool
  audioInDeserializer : Deserializer F
  audioOutSerializer : Serializer F

/-- The ports: the streams of the design and the serial bus. -/
structure AudioController.In where
  reset : Bool
  fromAdcLeftChannelReady : Bool
  fromAdcRightChannelReady : Bool
  toDacLeftChannelData : BitVec 24
  toDacLeftChannelValid : Bool
  toDacRightChannelData : BitVec 24
  toDacRightChannelValid : Bool
  audAdcDat : Bool
  audAdcLrck : Bool
  audBclk : Bool
  audDacLrck : Bool

variable {F}

namespace AudioController

/-- A left word waits, as far as the registered read space tells. -/
def fromAdcLeftChannelValid (s : AudioController F) : Bool :=
  s.audioInDeserializer.left.readSpace != 0

def fromAdcRightChannelValid (s : AudioController F) : Bool :=
  s.audioInDeserializer.right.readSpace != 0

/-- The oldest left word, shown without being asked for. -/
def fromAdcLeftChannelData (s : AudioController F) : BitVec 24 :=
  F.q s.audioInDeserializer.left.fifo

def fromAdcRightChannelData (s : AudioController F) : BitVec 24 :=
  F.q s.audioInDeserializer.right.fifo

/-- There is room for a left word, as far as the registered write space tells. -/
def toDacLeftChannelReady (s : AudioController F) : Bool :=
  s.audioOutSerializer.left.writeSpace != 0

def toDacRightChannelReady (s : AudioController F) : Bool :=
  s.audioOutSerializer.right.writeSpace != 0

/-- The port map of `Audio_In_Deserializer`: a word is read when it is valid and the sink is
    ready. -/
def deserializerIn (s : AudioController F) (i : In) : Deserializer.In where
  reset := i.reset
  bitClkRisingEdge := s.bitClockEdges.risingEdge
  bitClkFallingEdge := s.bitClockEdges.fallingEdge
  leftRightClkRisingEdge := s.adcLeftRightClockEdges.risingEdge
  leftRightClkFallingEdge := s.adcLeftRightClockEdges.fallingEdge
  doneChannelSync := s.doneAdcChannelSync
  serialAudioInData := i.audAdcDat
  readLeftAudioDataEn := s.fromAdcLeftChannelValid && i.fromAdcLeftChannelReady
  readRightAudioDataEn := s.fromAdcRightChannelValid && i.fromAdcRightChannelReady

/-- The port map of `Audio_Out_Serializer`: the edges of the sides count after the
    synchronisation. -/
def serializerIn (s : AudioController F) (i : In) : Serializer.In where
  reset := i.reset
  bitClkFallingEdge := s.bitClockEdges.fallingEdge
  leftRightClkRisingEdge := s.doneDacChannelSync && s.dacLeftRightClockEdges.risingEdge
  leftRightClkFallingEdge := s.doneDacChannelSync && s.dacLeftRightClockEdges.fallingEdge
  leftChannelData := i.toDacLeftChannelData
  leftChannelDataEn := i.toDacLeftChannelValid && s.toDacLeftChannelReady
  rightChannelData := i.toDacRightChannelData
  rightChannelDataEn := i.toDacRightChannelValid && s.toDacRightChannelReady

/-- A rising edge of `clk`: every register reads the values before the edge. -/
def edge (s : AudioController F) (i : In) : AudioController F where
  bitClockEdges := s.bitClockEdges.edge i.audBclk
  adcLeftRightClockEdges := s.adcLeftRightClockEdges.edge i.audAdcLrck
  dacLeftRightClockEdges := s.dacLeftRightClockEdges.edge i.audDacLrck
  doneAdcChannelSync :=
    if i.reset then false
    else if s.adcLeftRightClockEdges.risingEdge then true
    else s.doneAdcChannelSync
  doneDacChannelSync :=
    if i.reset then false
    else if s.dacLeftRightClockEdges.fallingEdge then true
    else s.doneDacChannelSync
  audioInDeserializer := s.audioInDeserializer.edge (s.deserializerIn i)
  audioOutSerializer := s.audioOutSerializer.edge (s.serializerIn i)

end AudioController

end Reverb
