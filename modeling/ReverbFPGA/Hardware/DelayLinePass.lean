import Mathlib.Tactic.Ring
import Mathlib.Tactic.IntervalCases
import ReverbFPGA.Hardware.DelayLine

namespace Reverb

/-!
# One pass of the delay line

A tick that is accepted with `currentN = c` starts a pass of `c + 2` edges.  With
`m` the content of the RAM at the tick and `M = c - 1`, the phases of a pass are

* `Pulling k` — before edges 1 and 2: the address of the last cell is on its way, nothing
  is written;
* `Shifting r` — before edges 3 … c - 2: cells `r + 4 .. M - 1` are shifted, a write of the
  lowest of them is in flight, and the read register is two cells ahead, at `m (r + 2)`;
* `Ending k` — before edges c - 1 and c: the pipeline drains into cells 2 and 1;
* push, then idle again with the content `shiftIn M x m`.

`Pass.content_end`, `Pass.dataOut_eq` and `Pass.busy` are what the rest of the development uses.
-/

open Clocked ShiftMemory
open Function (update)

variable {w : ℕ}

namespace DelayLine

/-! ### The phases -/

/-- The tick is accepted, the last cell's word has not reached `dataOUT` yet. -/
structure Pulling (m : ℤ → BitVec w) (c : ℕ) (y : BitVec w) (k : ℤ) (s : DelayLine w) : Prop where
  state : s.shiftState = .pull
  cnt : s.cnt = k
  valid : s.currentNValid = c - 1
  pipe : s.readAddrPipeline = c - 5
  rdAddr : s.rdAddr = c - 2 - k
  rdData : k = 1 → s.ram.rdData = m (c - 2)
  not_we : s.we = false
  ramBlock : s.ram.ramBlock = m
  dataOut : s.dataOut = y

/-- The loop body, about to read cell `r` and to write cell `r + 3`. -/
structure Shifting (m : ℤ → BitVec w) (c : ℕ) (r : ℤ) (s : DelayLine w) : Prop where
  state : s.shiftState = .shift
  cnt : s.cnt = 0
  pipe : s.readAddrPipeline = r
  rdAddr : s.rdAddr = r + 1
  rdData : s.ram.rdData = m (r + 2)
  writing : s.we = true → s.wrAddr = r + 4
  content : s.content = shiftFrom (r + 4) (c - 1) m
  dataOut : s.dataOut = m (c - 2)

/-- The pipeline drains: cells `3 - k .. M - 1` are shifted. -/
structure Ending (m : ℤ → BitVec w) (c : ℕ) (k : ℤ) (s : DelayLine w) : Prop where
  state : s.shiftState = .endPipeline
  cnt : s.cnt = k
  rdAddr : s.rdAddr = 0
  rdData : s.ram.rdData = m (1 - k)
  writing : s.we = true
  wrAddr : s.wrAddr = 3 - k
  content : s.content = shiftFrom (3 - k) (c - 1) m
  dataOut : s.dataOut = m (c - 2)

/-- Only cell 0 is left to be written. -/
structure Pushing (m : ℤ → BitVec w) (c : ℕ) (s : DelayLine w) : Prop where
  state : s.shiftState = .push
  writing : s.we = true
  content : s.content = shiftFrom 1 (c - 1) m
  dataOut : s.dataOut = m (c - 2)

/-! ### From one phase to the next -/

variable {m : ℤ → BitVec w} {c : ℕ} {y : BitVec w} {r k : ℤ} {s : DelayLine w} {i : In w}

/-- A tick in the idle state starts the pull. -/
theorem Accepts.pulling (h : Accepts s i) (hN : i.currentN = c) :
    Pulling s.content c s.dataOut 0 (s.edge i) := by
  rw [edge_idle_tick h]
  constructor <;> simp [hN]
  rfl

/-- The first edge of the pull waits for the RAM to read the top word. -/
theorem Pulling.next (h : Pulling m c y 0 s) (hr : i.rst = true) :
    Pulling m c y 1 (s.edge i) := by
  have hrd : s.ram.ramBlock s.rdAddr = m (c - 2) := by
    rw [h.ramBlock, h.rdAddr]; congr 1; omega
  rw [edge_pull_first hr h.state h.cnt]
  constructor
  -- the second read is asked for, one cell below the first
  case rdAddr => simp only [h.valid]; omega
  case rdData => intro _; exact hrd
  case ramBlock => simp [RAM.edge, h.not_we, h.ramBlock]
  all_goals simp [h.state, h.valid, h.pipe, h.not_we, h.dataOut]

/-- The second edge puts that word on the output and starts the shift at the top of the line. -/
theorem Pulling.shifting (h : Pulling m c y 1 s) (hr : i.rst = true) :
    Shifting m c (c - 5) (s.edge i) := by
  have hrd : s.ram.ramBlock s.rdAddr = m (c - 5 + 2) := by
    rw [h.ramBlock, h.rdAddr]; congr 1; omega
  rw [edge_pull_second hr h.state h.cnt]
  constructor
  case rdAddr => simp only [h.valid]; omega
  case rdData => exact hrd
  -- nothing has been moved yet
  case content =>
    rw [show (c : ℤ) - 5 + 4 = c - 1 by omega, shiftFrom_self]
    simp [DelayLine.content, RAM.edge, h.not_we, h.ramBlock]
  case dataOut => exact h.rdData rfl
  all_goals simp [h.pipe, h.not_we]

/-- **The loop step.** The read of cell `r + 1` is ahead of every write made so far, so it
    still returns the old word; the write of cell `r + 3` joins those already made. -/
theorem shift_step (h : Shifting m c r s) (hrc : r ≤ (c : ℤ) - 5) (hr : i.rst = true) :
    (s.edge i).ram.rdData = m (r + 1) ∧
      (s.edge i).content = shiftFrom (r + 3) (c - 1) m := by
  constructor
  · have hcell : s.ram.ramBlock s.rdAddr = s.content s.rdAddr :=
      ramBlock_eq_content fun hwe => by rw [h.writing hwe, h.rdAddr]; omega
    rw [edge_rdData, hcell, h.content, h.rdAddr, shiftFrom_of_lt _ (by omega)]
  -- the word of cell `r + 2` is in the read register by now
  · have hwe : (s.edge i).we = true := by rw [edge_shift hr h.state]
    have haddr : (s.edge i).wrAddr = r + 3 := by rw [edge_shift hr h.state]; simp [h.pipe]
    have hdata : (s.edge i).wrData = m (r + 3 - 1) := by
      rw [edge_shift hr h.state, show r + 3 - 1 = r + 2 by ring]; exact h.rdData
    rw [content_edge_of_we hwe, haddr, hdata, h.content, show r + 4 = r + 3 + 1 by ring]
    exact update_shiftFrom m (by omega)

/-- One edge of the shift moves one word up by one cell. -/
theorem Shifting.next (h : Shifting m c r s) (h0 : 0 < r) (hrc : r ≤ (c : ℤ) - 5)
    (hr : i.rst = true) : Shifting m c (r - 1) (s.edge i) := by
  obtain ⟨hrd, hcont⟩ := shift_step h hrc hr
  constructor
  case rdData => rw [hrd]; congr 1; omega
  case content => rw [hcont]; congr 1; omega
  all_goals rw [edge_shift hr h.state]
  case writing => intro _; simp only [h.pipe]; omega
  all_goals simp [h0, h.cnt, h.pipe, h.dataOut]

/-- At address zero the pipeline is emptied. -/
theorem Shifting.ending (h : Shifting m c 0 s) (hc : 5 ≤ c) (hr : i.rst = true) :
    Ending m c 0 (s.edge i) := by
  obtain ⟨hrd, hcont⟩ := shift_step h (by omega) hr
  constructor
  case rdData => rw [hrd]; congr 1
  case content => rw [hcont]; congr 1
  all_goals rw [edge_shift hr h.state]
  all_goals simp [h.cnt, h.pipe, h.dataOut]

/-- The read of cell 0 returns its old word: the write in flight is of a cell above. -/
theorem Ending.rdData_edge (h : Ending m c k s) (hk : k ≤ 1) :
    (s.edge i).ram.rdData = m 0 := by
  have hcell : s.ram.ramBlock s.rdAddr = s.content s.rdAddr :=
    ramBlock_eq_content fun _ => by rw [h.wrAddr, h.rdAddr]; omega
  rw [edge_rdData, hcell, h.content, h.rdAddr, shiftFrom_of_lt _ (by omega)]

/-- The first of the two edges that empty it. -/
theorem Ending.next (h : Ending m c 0 s) (hc : 5 ≤ c) (hr : i.rst = true) :
    Ending m c 1 (s.edge i) := by
  have hwe : (s.edge i).we = true := by
    rw [edge_endPipeline_first hr h.state h.cnt]; exact h.writing
  constructor
  case rdData => rw [h.rdData_edge (by omega)]; rfl
  case content =>
    rw [content_edge_of_we hwe, edge_endPipeline_first hr h.state h.cnt, h.content]
    simp only [h.rdData]
    exact update_shiftFrom m (a := 2) (by omega)
  all_goals rw [edge_endPipeline_first hr h.state h.cnt]
  all_goals simp [h.state, h.rdAddr, h.writing, h.dataOut]

/-- The second one, after which only the new word is missing. -/
theorem Ending.pushing (h : Ending m c 1 s) (hc : 5 ≤ c) (hr : i.rst = true) :
    Pushing m c (s.edge i) := by
  have hwe : (s.edge i).we = true := by
    rw [edge_endPipeline_second hr h.state h.cnt]; exact h.writing
  constructor
  case content =>
    rw [content_edge_of_we hwe, edge_endPipeline_second hr h.state h.cnt, h.content]
    simp only [h.rdData]
    exact update_shiftFrom m (a := 1) (by omega)
  all_goals rw [edge_endPipeline_second hr h.state h.cnt]
  all_goals simp [h.writing, h.dataOut]

/-- The push writes the new word; the output is the word that was pulled. -/
theorem Pushing.done (h : Pushing m c s) (hr : i.rst = true) :
    (s.edge i).shiftState = .idle ∧ (s.edge i).content = shiftIn (c - 1) i.dataIn m ∧
      (s.edge i).dataOut = m (c - 2) := by
  -- cell 0 is the last one that is written
  have hwe : (s.edge i).we = true := by rw [edge_push hr h.state]; exact h.writing
  refine ⟨by rw [edge_push hr h.state], ?_, by rw [edge_push hr h.state]; exact h.dataOut⟩
  rw [content_edge_of_we hwe, edge_push hr h.state, h.content]
  exact update_shiftFrom_one _ _ _

/-! ### A whole pass -/

/-- In the run `s`, a tick is accepted at edge `t` with `currentN = c`, and no reset comes
    before the pass is over. -/
structure Pass (s : ℕ → DelayLine w) (inp : ℕ → In w) (t c : ℕ) : Prop where
  run : IsRun edge s inp
  accepts : Accepts (s t) (inp t)
  currentN : (inp t).currentN = c
  five_le : 5 ≤ c
  rst : ∀ k, k ≤ c + 1 → (inp (t + k)).rst = true

namespace Pass

variable {s : ℕ → DelayLine w} {inp : ℕ → In w} {t c : ℕ}

/-- The state one edge after the tick. -/
theorem pulling_one (h : Pass s inp t c) :
    Pulling (s t).content c (s t).dataOut 0 (s (t + 1)) := by
  rw [h.run t]; exact h.accepts.pulling h.currentN

/-- The state two edges after the tick. -/
theorem pulling_two (h : Pass s inp t c) :
    Pulling (s t).content c (s t).dataOut 1 (s (t + 2)) := by
  rw [h.run (t + 1)]; exact h.pulling_one.next (h.rst 1 (by omega))

/-- Before edge `3 + j` the loop is at cell `c - 5 - j`. -/
theorem shifting (h : Pass s inp t c) {j : ℕ} (hj : j ≤ c - 5) :
    Shifting (s t).content c (c - 5 - j) (s (t + (3 + j))) := by
  have h5 := h.five_le
  -- one loop step for each edge, from the state that the pull leaves behind
  induction j with
  | zero =>
    have := h.pulling_two.shifting (i := inp (t + 2)) (h.rst 2 (by omega))
    rw [show t + (3 + 0) = t + 2 + 1 by omega, h.run (t + 2)]
    simpa using this
  | succ j ih =>
    have hstep := (ih (by omega)).next (i := inp (t + (3 + j))) (by omega) (by omega)
      (h.rst (3 + j) (by omega))
    rw [show t + (3 + (j + 1)) = t + (3 + j) + 1 by omega, h.run]
    convert hstep using 1
    push_cast; ring

/-- The state `c - 1` edges after the tick. -/
theorem ending_zero (h : Pass s inp t c) : Ending (s t).content c 0 (s (t + (c - 1))) := by
  have h5 := h.five_le
  have hlast := h.shifting (j := c - 5) le_rfl
  rw [show (c : ℤ) - 5 - ((c - 5 : ℕ) : ℤ) = 0 by omega] at hlast
  have := hlast.ending (i := inp (t + (3 + (c - 5)))) h5 (h.rst _ (by omega))
  rwa [← h.run, show t + (3 + (c - 5)) + 1 = t + (c - 1) by omega] at this

/-- The state `c` edges after the tick. -/
theorem ending_one (h : Pass s inp t c) : Ending (s t).content c 1 (s (t + c)) := by
  have h5 := h.five_le
  have := h.ending_zero.next (i := inp (t + (c - 1))) h5 (h.rst _ (by omega))
  rwa [← h.run, show t + (c - 1) + 1 = t + c by omega] at this

/-- The state `c + 1` edges after the tick. -/
theorem pushing (h : Pass s inp t c) : Pushing (s t).content c (s (t + c + 1)) := by
  have := h.ending_one.pushing (i := inp (t + c)) h.five_le (h.rst c (by omega))
  rwa [← h.run] at this

/-- **The end of a pass.** -/
theorem done (h : Pass s inp t c) :
    (s (t + c + 2)).shiftState = .idle ∧
      (s (t + c + 2)).content =
        shiftIn (c - 1) (inp (t + c + 1)).dataIn (s t).content ∧
      (s (t + c + 2)).dataOut = (s t).content (c - 2) := by
  have := h.pushing.done (i := inp (t + c + 1)) (h.rst (c + 1) le_rfl)
  rwa [← h.run] at this

/-- The pass is over `c + 2` edges after the tick. -/
theorem idle_end (h : Pass s inp t c) : (s (t + c + 2)).shiftState = .idle := h.done.1

/-- By then the line has shifted by one word, and the new word is in cell zero. -/
theorem content_end (h : Pass s inp t c) :
    (s (t + c + 2)).content = shiftIn (c - 1) (inp (t + c + 1)).dataIn (s t).content :=
  h.done.2.1

/-- Each edge of a pass falls in one of its phases. -/
theorem phase (h : Pass s inp t c) {k : ℕ} (h1 : 1 ≤ k) (h2 : k ≤ c + 1) :
    k = 1 ∨ k = 2 ∨ (∃ j, j ≤ c - 5 ∧ k = 3 + j) ∨ k = c - 1 ∨ k = c ∨ k = c + 1 := by
  have h5 := h.five_le
  by_cases hk : k ≤ 2
  · omega
  -- the phases are two edges, `c - 4` edges and three edges long
  · by_cases hk' : k ≤ c - 2
    · exact Or.inr (Or.inr (Or.inl ⟨k - 3, by omega, by omega⟩))
    · omega

/-- The FSM is not idle before the pass is over. -/
theorem busy (h : Pass s inp t c) {k : ℕ} (h1 : 1 ≤ k) (h2 : k ≤ c + 1) :
    (s (t + k)).shiftState ≠ .idle := by
  rcases h.phase h1 h2 with rfl | rfl | ⟨j, hj, rfl⟩ | rfl | rfl | rfl
  · rw [h.pulling_one.state]; decide
  · rw [h.pulling_two.state]; decide
  · rw [(h.shifting hj).state]; decide
  · rw [h.ending_zero.state]; decide
  · rw [h.ending_one.state]; decide
  · rw [show t + (c + 1) = t + c + 1 by omega, h.pushing.state]; decide

/-- `dataOUT` is the old value up to edge 2. -/
theorem dataOut_before (h : Pass s inp t c) {k : ℕ} (h2 : k ≤ 2) :
    (s (t + k)).dataOut = (s t).dataOut := by
  interval_cases k
  · rfl
  · exact h.pulling_one.dataOut
  · exact h.pulling_two.dataOut

/-- `dataOUT` is the word of the last cell from edge 2 on. -/
theorem dataOut_eq (h : Pass s inp t c) {k : ℕ} (h3 : 3 ≤ k) (h2 : k ≤ c + 2) :
    (s (t + k)).dataOut = (s t).content (c - 2) := by
  rcases Nat.lt_or_ge k (c + 2) with hk | hk
  · rcases h.phase (by omega) (Nat.le_of_lt_succ hk) with
      rfl | rfl | ⟨j, hj, rfl⟩ | rfl | rfl | rfl
    · omega
    · omega
    · exact (h.shifting hj).dataOut
    · exact h.ending_zero.dataOut
    · exact h.ending_one.dataOut
    · exact h.pushing.dataOut
  · rw [show k = c + 2 by omega]; exact h.done.2.2

end Pass

end DelayLine

end Reverb
