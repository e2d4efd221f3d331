import ReverbFPGA.Hardware.AudioController

namespace Reverb

/-!
# The FIFOs of the audio controller

The FIFOs check neither for overflow nor for underflow; the controller has to.  Three of them are
read behind their flag `empty`.  The right FIFO of the serializer is not: it is read when the
left one was, half a period of the clock earlier, and that it still has a word is an invariant of
the clock of the sides and of `left_channel_was_read`:

* `AudioController.FifoInv` — the invariant;
* `AudioController.fifos_keep_order` — from a reset on, no FIFO overflows or underflows, so that
  none loses, doubles or reorders a word.
-/

open Clocked Fifo

/-! ### The clock edges -/

namespace ClockEdge

/-- A rising edge leaves the clock high, and is no falling edge. -/
theorem of_risingEdge {s : ClockEdge} (h : s.risingEdge = true) :
    s.curTestClk = true ∧ s.fallingEdge = false := by
  rcases s with ⟨_ | _, _ | _⟩ <;> simp_all [risingEdge, fallingEdge, foundEdge]

/-- While the clock stays high there is no edge. -/
theorem cur_of_last {s : ClockEdge} (hlast : s.lastTestClk = true)
    (hfall : s.fallingEdge = false) : s.curTestClk = true := by
  rcases s with ⟨_ | _, _ | _⟩ <;> simp_all [fallingEdge, foundEdge]

end ClockEdge

namespace AudioController

variable {F : SyncFifo}

/-! ### The four FIFOs -/

/-- The FIFOs of the two sides of the deserializer and of the serializer. -/
inductive AudioFifo where
  | leftIn
  | rightIn
  | leftOut
  | rightOut
  deriving DecidableEq

/-- Where the four FIFOs are in the controller. -/
def fifo (s : AudioController F) : AudioFifo → F.State
  | .leftIn => s.audioInDeserializer.left.fifo
  | .rightIn => s.audioInDeserializer.right.fifo
  | .leftOut => s.audioOutSerializer.left.fifo
  | .rightOut => s.audioOutSerializer.right.fifo

/-- The ports of a FIFO. -/
def fifoIn (s : AudioController F) (i : In) : AudioFifo → Fifo.In (BitVec 24)
  | .leftIn => s.audioInDeserializer.left.fifoIn i.reset
      (s.adcLeftRightClockEdges.fallingEdge && s.doneAdcChannelSync)
      s.audioInDeserializer.dataInShiftReg
      (s.fromAdcLeftChannelValid && i.fromAdcLeftChannelReady)
  | .rightIn => s.audioInDeserializer.right.fifoIn i.reset
      (s.adcLeftRightClockEdges.risingEdge && s.doneAdcChannelSync)
      s.audioInDeserializer.dataInShiftReg
      (s.fromAdcRightChannelValid && i.fromAdcRightChannelReady)
  | .leftOut => s.audioOutSerializer.left.fifoIn i.reset
      (i.toDacLeftChannelValid && s.toDacLeftChannelReady) i.toDacLeftChannelData
      (s.audioOutSerializer.readLeftChannel (s.serializerIn i))
  | .rightOut => s.audioOutSerializer.right.fifoIn i.reset
      (i.toDacRightChannelValid && s.toDacRightChannelReady) i.toDacRightChannelData
      (s.audioOutSerializer.readRightChannel (s.serializerIn i))

/-- **Every FIFO runs on its own ports.** -/
theorem fifo_edge (s : AudioController F) (i : In) (f : AudioFifo) :
    (s.edge i).fifo f = F.edge (s.fifo f) (s.fifoIn i f) := by
  cases f <;> rfl

/-- Each of them makes a run of its own, on the ports that the controller gives it. -/
theorem isRun_fifo {s : ℕ → AudioController F} {inp : ℕ → In} (h : IsRun edge s inp)
    (f : AudioFifo) : IsRun F.edge (fun t => (s t).fifo f) (fun t => (s t).fifoIn (inp t) f) :=
  h.component (fun s => s.fifo f) (fun s i => s.fifoIn i f) fun s i => s.fifo_edge i f

/-- The reset clears all four. -/
@[simp] theorem fifoIn_sclr (s : AudioController F) (i : In) (f : AudioFifo) :
    (s.fifoIn i f).sclr = i.reset := by
  cases f <;> rfl

/-- A word is written only if there is room. -/
theorem full_of_wrreq {s : AudioController F} {i : In} {f : AudioFifo}
    (h : (s.fifoIn i f).wrreq = true) : F.full (s.fifo f) = false := by
  cases f with
  | leftIn | rightIn =>
    simp only [fifoIn, InChannel.fifoIn, Bool.and_eq_true, Bool.not_eq_true'] at h
    exact h.2
  | leftOut | rightOut =>
    simp only [fifoIn, OutChannel.fifoIn, Bool.and_eq_true, Bool.not_eq_true'] at h
    exact h.2

/-! ### The invariant -/

/-- No FIFO holds more than it can, and after a word of the left FIFO of the serializer the clock
    of the sides is high and a word for the right is there. -/
structure FifoInv (s : AudioController F) : Prop where
  length_le : ∀ f, (F.words (s.fifo f)).length ≤ 128
  wasRead : s.audioOutSerializer.leftChannelWasRead = true →
    s.doneDacChannelSync = true ∧ s.dacLeftRightClockEdges.lastTestClk = true ∧
      F.empty (s.fifo .rightOut) = false

/-- After a reset edge the invariant holds. -/
theorem fifoInv_reset (s : AudioController F) {i : In} (h : i.reset = true) :
    FifoInv (s.edge i) where
  length_le := fun f => by
    rw [fifo_edge, F.words_sclr _ _ (by rw [fifoIn_sclr, h])]
    exact Nat.zero_le _
  wasRead := fun hwas => by simp [edge, Serializer.edge, serializerIn, h] at hwas

/-- The invariant makes the use of every FIFO lawful. -/
theorem FifoInv.lawful {s : AudioController F} (h : FifoInv s) (i : In) (f : AudioFifo) :
    F.Lawful (s.fifo f) (s.fifoIn i f) where
  wrreq := fun hwr => by
    have hroom : (F.words (s.fifo f)).length ≠ 128 := of_decide_eq_false (full_of_wrreq hwr)
    have := h.length_le f
    omega
  rdreq := fun hrd => by
    cases f with
    | leftIn | rightIn =>
      simp only [fifoIn, InChannel.fifoIn, Bool.and_eq_true, Bool.not_eq_true'] at hrd
      exact hrd.2
    | leftOut =>
      simp only [fifoIn, OutChannel.fifoIn, Serializer.readLeftChannel, Bool.and_eq_true,
        Bool.not_eq_true'] at hrd
      exact hrd.1.2
    | rightOut =>
      simp only [fifoIn, OutChannel.fifoIn, Serializer.readRightChannel, Bool.and_eq_true] at hrd
      exact (h.wasRead hrd.2).2.2

/-- A right word that is not read stays on show. -/
theorem FifoInv.rightOut_stays {s : AudioController F} (h : FifoInv s) {i : In}
    (hreset : i.reset = false) (hempty : F.empty (s.fifo .rightOut) = false)
    (hread : s.audioOutSerializer.readRightChannel (s.serializerIn i) = false) :
    F.empty ((s.edge i).fifo .rightOut) = false := by
  have hrd : (s.fifoIn i .rightOut).rdreq = false := hread
  rw [fifo_edge]
  refine (h.lawful i .rightOut).empty_edge (by rw [fifoIn_sclr, hreset]) ?_
  rw [In.left, hrd, ShowAhead.words_eq_cons hempty]
  simp

/-- One edge keeps the invariant. -/
theorem FifoInv.edge {s : AudioController F} (h : FifoInv s) (i : In) : FifoInv (s.edge i) := by
  cases hreset : i.reset with
  | true => exact fifoInv_reset s hreset
  | false =>
    refine ⟨fun f => ?_, fun hwas => ?_⟩
    · rw [fifo_edge]
      exact (h.lawful i f).length_le (h.length_le f)
    · simp only [AudioController.edge, Serializer.edge, ClockEdge.edge] at hwas ⊢
      split_ifs at hwas with h0 h1 h2
      -- a left word is read at a rising edge, when there is a right one
      · have hleft := h1
        simp only [Serializer.readLeftChannel, serializerIn, Bool.and_eq_true,
          Bool.not_eq_true'] at hleft
        obtain ⟨⟨⟨hdone, hrise⟩, -⟩, hempty⟩ := hleft
        obtain ⟨hcur, hfall⟩ := ClockEdge.of_risingEdge hrise
        refine ⟨?_, hcur, h.rightOut_stays hreset hempty ?_⟩
        · simp [hreset, hdone]
        · simp [Serializer.readRightChannel, serializerIn, hfall]
      -- without a falling edge the clock is still high
      · obtain ⟨hdone, hlast, hempty⟩ := h.wasRead hwas
        have hfall : s.dacLeftRightClockEdges.fallingEdge = false := by
          simpa [Serializer.readRightChannel, serializerIn, hwas, hdone] using h2
        refine ⟨?_, ClockEdge.cur_of_last hlast hfall, h.rightOut_stays hreset hempty ?_⟩
        · simp [hreset, hdone]
        · simpa using h2

/-- **The FIFOs of the audio controller lose nothing.**  Whatever the codec, the design and the
    reset do after a first reset edge: at every edge the use of each of the four FIFOs is lawful,
    so that the words written to it since the last reset are those read from it, in the same
    order, and those that it holds. -/
theorem fifos_keep_order {s : ℕ → AudioController F} {inp : ℕ → In} (hrun : IsRun edge s inp)
    (hreset : (inp 0).reset = true) (f : AudioFifo) {t : ℕ} (ht : 1 ≤ t) :
    F.Lawful ((s t).fifo f) ((s t).fifoIn (inp t) f) ∧
    ShowAhead.written (fun u => (s u).fifoIn (inp u) f) t =
      F.taken (fun u => (s u).fifo f) (fun u => (s u).fifoIn (inp u) f) t ++
        F.words ((s t).fifo f) := by
  have hinv : ∀ u, 1 ≤ u → FifoInv (s u) := by
    intro u hu
    induction u, hu using Nat.le_induction with
    | base => rw [hrun 0]; exact fifoInv_reset _ hreset
    | succ u _ ih => rw [hrun u]; exact ih.edge _
  have hlaw : ∀ u, 1 ≤ u → F.Lawful ((s u).fifo f) ((s u).fifoIn (inp u) f) :=
    fun u hu => (hinv u hu).lawful _ f
  exact ⟨hlaw t ht,
    ShowAhead.written_eq (isRun_fifo hrun f) (by rw [fifoIn_sclr, hreset]) hlaw ht⟩

/-- A controller in the middle of its work: the design has sent 128 words to the left, and none to
    the right. -/
def overrun : AudioController (plain (BitVec 24) 128) where
  bitClockEdges := ⟨true, false⟩
  adcLeftRightClockEdges := ⟨true, false⟩
  dacLeftRightClockEdges := ⟨true, false⟩
  doneAdcChannelSync := true
  doneDacChannelSync := true
  audioInDeserializer := ⟨⟨([], true), 0⟩, ⟨([], true), 0⟩, 0, ⟨0, false⟩⟩
  audioOutSerializer :=
    ⟨⟨(List.replicate 128 0, false), 1⟩, ⟨([], true), 0x80⟩, true, 0, false⟩

/-- A reset edge, then a design that is always ready and always valid, and clocks of the codec that
    change every three edges. -/
def busy (t : ℕ) : In where
  reset := t == 0
  fromAdcLeftChannelReady := true
  fromAdcRightChannelReady := true
  toDacLeftChannelData := BitVec.ofNat 24 t
  toDacLeftChannelValid := true
  toDacRightChannelData := BitVec.ofNat 24 (2 * t)
  toDacRightChannelValid := true
  audAdcDat := t % 2 == 0
  audAdcLrck := t / 3 % 2 == 0
  audBclk := t % 2 == 0
  audDacLrck := t / 3 % 2 == 0

/-- Both sides are flooded; still the right FIFO keeps the order of the words that it took in. -/
theorem fifos_keep_order_busy :
    let s := run edge overrun busy
    ShowAhead.written (fun u => (s u).fifoIn (busy u) .rightOut) 500 =
      (plain (BitVec 24) 128).taken (fun u => (s u).fifo .rightOut)
        (fun u => (s u).fifoIn (busy u) .rightOut) 500 ++
        (plain (BitVec 24) 128).words ((s 500).fifo .rightOut) :=
  (fifos_keep_order (isRun_run overrun busy) rfl .rightOut (by decide)).2

end AudioController

end Reverb
