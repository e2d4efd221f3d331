import Mathlib.Logic.Function.Basic
import Mathlib.Tactic.SplitIfs
import Mathlib.Order.Basic
import ReverbFPGA.Lib.Clocked
import ReverbFPGA.Lib.ShiftMemory

namespace Reverb

/-!
# The delay line and its RAM

`RAM.vhd` and `delayLine.vhd`, one clock edge at a time:

* `RAM.edge` — the single-clock memory with registered read data.  A read of the cell that is
  written at the same edge returns the old word;
* `DelayLine.process` — the `case shiftState` of the clocked process, on its own registers;
* `DelayLine.edge` — both processes at one edge: every register is computed from the values
  that all registers had before it.

Addresses are integers, as in the source, and the model does not clip them: that they stay
within the declared ranges is a property to be proved (`DelayLine.InRange`).  A step lemma
per state of the FSM (`edge_idle_tick`, `edge_pull_first`, …) says all that an edge does, and
the other modules use only these.
-/

open Function (update)

variable {w : ℕ}

/-! ### `RAM.vhd` -/

/-- The registers of `RAM`: the block of cells and the read register.  The array of the source
    has the indices `0 .. nbr_blocks - 1`. -/
structure RAM (w : ℕ) where
  ramBlock : ℤ → BitVec w
  rdData : BitVec w

/-- A rising edge of `clk`. -/
def RAM.edge (r : RAM w) (wrData : BitVec w) (wrAddr rdAddr : ℤ) (we : Bool) : RAM w where
  ramBlock := if we then update r.ramBlock wrAddr wrData else r.ramBlock
  rdData := r.ramBlock rdAddr

/-! ### `delayLine.vhd` -/

/-- `shiftState_type`. -/
inductive ShiftState where
  | idle
  | pull
  | shift
  | endPipeline
  | push
  deriving DecidableEq, Repr

/-- The registers of a `delayLine`: the signals of its clocked process, the two variables
    `cnt` and `read_addr_pipeline`, and the RAM it instantiates. -/
structure DelayLine (w : ℕ) where
  shiftState : ShiftState
  wrData : BitVec w
  wrAddr : ℤ
  rdAddr : ℤ
  we : Bool
  currentNValid : ℤ
  cnt : ℤ
  readAddrPipeline : ℤ
  dataOut : BitVec w
  ram : RAM w

/-- The input ports of a `delayLine`; `true` is the level `'1'`. -/
structure DelayLine.In (w : ℕ) where
  rst : Bool
  dataSampledValid : Bool
  dataIn : BitVec w
  currentN : ℕ

namespace DelayLine

/-- The clocked process of `delayLine.vhd`. -/
def process (s : DelayLine w) (i : In w) : DelayLine w :=
  if i.rst = false then
    -- the addresses, `cnt`, `dataOUT` and the RAM are not reset
    { s with we := false, shiftState := .idle }
  else
    match s.shiftState with
    | .idle =>
      if i.dataSampledValid then
        -- `currentN` is looked at here only
        { s with
          we := false
          cnt := 0
          currentNValid := (i.currentN : ℤ) - 1
          readAddrPipeline := ((i.currentN : ℤ) - 1) - 4
          rdAddr := ((i.currentN : ℤ) - 1) - 1
          shiftState := .pull }
      else
        { s with we := false, cnt := 0 }
    | .pull =>
      if s.cnt = 0 then
        { s with rdAddr := s.currentNValid - 2, cnt := s.cnt + 1 }
      else if s.cnt = 1 then
        { s with
          rdAddr := s.currentNValid - 3
          dataOut := s.ram.rdData
          cnt := 0
          shiftState := .shift }
      else s
    | .shift =>
      -- cell `r` is addressed, the word of cell `r + 2` has been read and goes to cell `r + 3`
      let s' := { s with
        rdAddr := s.readAddrPipeline
        we := true
        wrAddr := s.readAddrPipeline + 3
        wrData := s.ram.rdData }
      if s.readAddrPipeline > 0 then
        { s' with readAddrPipeline := s.readAddrPipeline - 1 }
      else
        { s' with shiftState := .endPipeline }
    | .endPipeline =>
      -- no more reads are needed, two words are still on their way
      if s.cnt = 0 then
        { s with wrAddr := 2, wrData := s.ram.rdData, cnt := s.cnt + 1 }
      else if s.cnt = 1 then
        { s with wrAddr := 1, wrData := s.ram.rdData, cnt := 0, shiftState := .push }
      else s
    | .push =>
      -- `dataIN` is sampled here, at the end of the pass
      { s with wrAddr := 0, wrData := i.dataIn, shiftState := .idle }

/-- A rising edge of `clk50M`: the process above and the process of `RAM_module`. -/
def edge (s : DelayLine w) (i : In w) : DelayLine w :=
  { s.process i with ram := s.ram.edge s.wrData s.wrAddr s.rdAddr s.we }

/-- The FSM starts a pass at an edge: it waits for a tick and the tick is there. -/
def Accepts (s : DelayLine w) (i : In w) : Prop :=
  i.rst = true ∧ s.shiftState = .idle ∧ i.dataSampledValid = true

instance (s : DelayLine w) (i : In w) : Decidable (Accepts s i) :=
  inferInstanceAs (Decidable (_ ∧ _ ∧ _))

/-- The content of the RAM once the write in flight, if there is one, has been clocked. -/
def content (s : DelayLine w) : ℤ → BitVec w :=
  if s.we then update s.ram.ramBlock s.wrAddr s.wrData else s.ram.ramBlock

/-- Without a write in flight the content is the RAM. -/
theorem content_of_not_we {s : DelayLine w} (h : s.we = false) : s.content = s.ram.ramBlock := by
  simp [content, h]

/-- A cell that is not being written already has its word. -/
theorem ramBlock_eq_content {s : DelayLine w} {a : ℤ} (h : s.we = true → s.wrAddr ≠ a) :
    s.ram.ramBlock a = s.content a := by
  unfold content
  split_ifs with hwe
  · rw [Function.update_of_ne (h hwe).symm]
  · rfl

/-! ### What the RAM does at an edge -/

/-- The write in flight reaches the RAM at the edge. -/
@[simp] theorem edge_ramBlock (s : DelayLine w) (i : In w) :
    (s.edge i).ram.ramBlock = s.content := rfl

/-- The read sees the RAM before the edge. -/
@[simp] theorem edge_rdData (s : DelayLine w) (i : In w) :
    (s.edge i).ram.rdData = s.ram.ramBlock s.rdAddr := rfl

/-- Without a new write the content stays. -/
theorem content_edge_of_not_we {s : DelayLine w} {i : In w} (h : (s.edge i).we = false) :
    (s.edge i).content = s.content := by
  rw [content_of_not_we h, edge_ramBlock]

/-- With a new write in flight the content is updated by it. -/
theorem content_edge_of_we {s : DelayLine w} {i : In w} (h : (s.edge i).we = true) :
    (s.edge i).content = update s.content (s.edge i).wrAddr (s.edge i).wrData := by
  simp [content, h]

/-! ### What the FSM does at an edge, state by state -/

/-- A reset drops the write in flight and goes to the idle state; the RAM and the output stay. -/
theorem edge_reset {s : DelayLine w} {i : In w} (hr : i.rst = false) :
    s.edge i = { s with
      we := false
      shiftState := .idle
      ram := s.ram.edge s.wrData s.wrAddr s.rdAddr s.we } := by
  simp [edge, process, hr]

/-- Without a tick the idle state waits. -/
theorem edge_idle_rest {s : DelayLine w} {i : In w} (hr : i.rst = true)
    (hs : s.shiftState = .idle) (hv : i.dataSampledValid = false) :
    s.edge i = { s with
      we := false
      cnt := 0
      ram := s.ram.edge s.wrData s.wrAddr s.rdAddr s.we } := by
  simp [edge, process, hr, hs, hv]

/-- A tick latches the delay and asks for the top word. -/
theorem edge_idle_tick {s : DelayLine w} {i : In w} (h : Accepts s i) :
    s.edge i = { s with
      we := false
      cnt := 0
      currentNValid := (i.currentN : ℤ) - 1
      readAddrPipeline := (i.currentN : ℤ) - 5
      rdAddr := (i.currentN : ℤ) - 2
      shiftState := .pull
      ram := s.ram.edge s.wrData s.wrAddr s.rdAddr s.we } := by
  obtain ⟨hr, hs, hv⟩ := h
  simp only [edge, process, hr, hs, hv, Bool.true_eq_false, if_false, if_true]
  rw [show (i.currentN : ℤ) - 1 - 4 = i.currentN - 5 by omega,
    show (i.currentN : ℤ) - 1 - 1 = i.currentN - 2 by omega]

/-- The second read is asked for. -/
theorem edge_pull_first {s : DelayLine w} {i : In w} (hr : i.rst = true)
    (hs : s.shiftState = .pull) (hc : s.cnt = 0) :
    s.edge i = { s with
      rdAddr := s.currentNValid - 2
      cnt := 1
      ram := s.ram.edge s.wrData s.wrAddr s.rdAddr s.we } := by
  simp [edge, process, hr, hs, hc]

/-- The top word has arrived and goes out. -/
theorem edge_pull_second {s : DelayLine w} {i : In w} (hr : i.rst = true)
    (hs : s.shiftState = .pull) (hc : s.cnt = 1) :
    s.edge i = { s with
      rdAddr := s.currentNValid - 3
      dataOut := s.ram.rdData
      cnt := 0
      shiftState := .shift
      ram := s.ram.edge s.wrData s.wrAddr s.rdAddr s.we } := by
  simp [edge, process, hr, hs, hc]

/-- The word that was read goes one cell up, and the next read is two cells below. -/
theorem edge_shift {s : DelayLine w} {i : In w} (hr : i.rst = true)
    (hs : s.shiftState = .shift) :
    s.edge i = { s with
      rdAddr := s.readAddrPipeline
      we := true
      wrAddr := s.readAddrPipeline + 3
      wrData := s.ram.rdData
      readAddrPipeline :=
        if s.readAddrPipeline > 0 then s.readAddrPipeline - 1 else s.readAddrPipeline
      shiftState := if s.readAddrPipeline > 0 then .shift else .endPipeline
      ram := s.ram.edge s.wrData s.wrAddr s.rdAddr s.we } := by
  simp only [edge, process, hr, hs, Bool.true_eq_false, if_false]
  split_ifs <;> rfl

/-- The word of cell one is written to cell two. -/
theorem edge_endPipeline_first {s : DelayLine w} {i : In w} (hr : i.rst = true)
    (hs : s.shiftState = .endPipeline) (hc : s.cnt = 0) :
    s.edge i = { s with
      wrAddr := 2
      wrData := s.ram.rdData
      cnt := 1
      ram := s.ram.edge s.wrData s.wrAddr s.rdAddr s.we } := by
  simp [edge, process, hr, hs, hc]

/-- The word of cell zero is written to cell one. -/
theorem edge_endPipeline_second {s : DelayLine w} {i : In w} (hr : i.rst = true)
    (hs : s.shiftState = .endPipeline) (hc : s.cnt = 1) :
    s.edge i = { s with
      wrAddr := 1
      wrData := s.ram.rdData
      cnt := 0
      shiftState := .push
      ram := s.ram.edge s.wrData s.wrAddr s.rdAddr s.we } := by
  simp [edge, process, hr, hs, hc]

/-- The word at the port is written to cell zero. -/
theorem edge_push {s : DelayLine w} {i : In w} (hr : i.rst = true)
    (hs : s.shiftState = .push) :
    s.edge i = { s with
      wrAddr := 0
      wrData := i.dataIn
      shiftState := .idle
      ram := s.ram.edge s.wrData s.wrAddr s.rdAddr s.we } := by
  simp [edge, process, hr, hs]

/-- `dataOUT` changes at one place only, in the second cycle of the pull state. -/
theorem dataOut_edge {s : DelayLine w} {i : In w}
    (h : i.rst = true → s.shiftState = .pull → s.cnt ≠ 1) : (s.edge i).dataOut = s.dataOut := by
  by_cases hr : i.rst = true
  · cases hs : s.shiftState with
    | pull =>
      have hc : s.cnt ≠ 1 := h hr hs
      by_cases h0 : s.cnt = 0
      · rw [edge_pull_first hr hs h0]
      · simp [edge, process, hr, hs, h0, hc]
    | idle | shift | endPipeline | push =>
      simp only [edge, process, hr, hs, Bool.true_eq_false, if_false]
      try split_ifs
      all_goals rfl
  · rw [edge_reset (by simpa using hr)]

/-- Where the word of a write in flight comes from: it was in flight before, or the FSM moves the
    word that was read, or it pushes the one at the port. -/
theorem wrData_edge {s : DelayLine w} {i : In w} (hwe : (s.edge i).we = true) :
    (s.we = true ∧ (s.edge i).wrData = s.wrData) ∨
      (s.shiftState ≠ .idle ∧ (s.edge i).wrData = s.ram.rdData) ∨
      (s.shiftState = .push ∧ (s.edge i).wrData = i.dataIn) := by
  by_cases hr : i.rst = true
  · cases hs : s.shiftState with
    | idle | pull =>
      -- neither state sets `we`
      left
      simp only [edge, process, hr, hs, Bool.true_eq_false, if_false] at hwe ⊢
      split_ifs at hwe ⊢ <;> simp_all
    | shift =>
      right; left
      rw [edge_shift hr hs]
      simp
    | endPipeline =>
      rcases eq_or_ne s.cnt 0 with h0 | h0
      · right; left
        rw [edge_endPipeline_first hr hs h0]
        simp
      · rcases eq_or_ne s.cnt 1 with h1 | h1
        · right; left
          rw [edge_endPipeline_second hr hs h1]
          simp
        · left
          simpa [edge, process, hr, hs, h0, h1] using hwe
    | push =>
      right; right
      rw [edge_push hr hs]
      simp
  · rw [edge_reset (by simpa using hr)] at hwe
    exact absurd hwe (by simp)

/-- Only the idle state looks at `data_sampled_valid` and `currentN`. -/
theorem edge_congr_of_busy {s : DelayLine w} {i i' : In w} (hs : s.shiftState ≠ .idle)
    (hr : i.rst = i'.rst) (hd : i.dataIn = i'.dataIn) : s.edge i = s.edge i' := by
  unfold edge process
  rw [hr, hd]
  cases h : s.shiftState with
  | idle => exact absurd h hs
  | pull | shift | endPipeline | push => rfl

end DelayLine

end Reverb
