import ReverbFPGA.Hardware.DelayLine

namespace Reverb

/-!
# Invariants of the delay line

Two properties that every edge preserves, in any state of the FSM and at any pace of the ticks:

* `Holds P` — every word that a delay line stores or puts out satisfies `P`.  A delay line makes
  up no words, so it is enough that the words it pushes do (`Holds.edge`);
* `InRange NsMax` — the address registers are in the ranges that the source declares for them.
  It is enough that `currentN` has a value for which the line is built whenever a pass starts
  (`InRange.edge`), and a pass that starts with a larger one breaks it (`not_inRange_edge`).
-/

variable {w : ℕ}

namespace DelayLine

/-! ### The words -/

/-- Every word that can reach `dataOUT` satisfies `P`: the cells, the write in flight, the read
    register unless the FSM is idle, which reads it no more, and `dataOUT` itself. -/
structure Holds (P : BitVec w → Prop) (s : DelayLine w) : Prop where
  ramBlock : ∀ a, P (s.ram.ramBlock a)
  wrData : s.we = true → P s.wrData
  rdData : s.shiftState ≠ .idle → P s.ram.rdData
  dataOut : P s.dataOut

variable {P : BitVec w → Prop} {s : DelayLine w} {i : In w}

/-- The word in flight included, every cell has the property. -/
theorem Holds.content (h : Holds P s) (a : ℤ) : P (s.content a) := by
  unfold DelayLine.content
  split_ifs with hwe
  · by_cases ha : a = s.wrAddr
    · rw [ha, Function.update_self]
      exact h.wrData hwe
    · rw [Function.update_of_ne ha]
      exact h.ramBlock a
  · exact h.ramBlock a

/-- A property of all words implies a weaker one of all words. -/
theorem Holds.mono {Q : BitVec w → Prop} (h : Holds P s) (hPQ : ∀ v, P v → Q v) : Holds Q s :=
  ⟨fun a => hPQ _ (h.ramBlock a), fun hwe => hPQ _ (h.wrData hwe),
    fun hs => hPQ _ (h.rdData hs), hPQ _ h.dataOut⟩

/-- **No word is made up.** -/
theorem Holds.edge (h : Holds P s) (hin : s.shiftState = .push → P i.dataIn) :
    Holds P (s.edge i) := by
  refine ⟨h.content, fun hwe => ?_, fun _ => h.ramBlock s.rdAddr, ?_⟩
  -- only the push brings a word in from outside
  · rcases wrData_edge hwe with ⟨hold, heq⟩ | ⟨hbusy, heq⟩ | ⟨hpush, heq⟩
    · rw [heq]; exact h.wrData hold
    · rw [heq]; exact h.rdData hbusy
    · rw [heq]; exact hin hpush
  · by_cases hpull : i.rst = true ∧ s.shiftState = .pull ∧ s.cnt = 1
    · obtain ⟨hr, hs, hc⟩ := hpull
      rw [edge_pull_second hr hs hc]
      exact h.rdData (by simp [hs])
    · rw [dataOut_edge fun hr hs hc => hpull ⟨hr, hs, hc⟩]
      exact h.dataOut

/-! ### The addresses -/

/-- The address registers are in their declared ranges, with `N = NsMax - 1` cells, and in the
    pull state `currentN_valid` keeps the next addresses there. -/
structure InRange (NsMax : ℕ) (s : DelayLine w) : Prop where
  rdAddr : 0 ≤ s.rdAddr ∧ s.rdAddr ≤ NsMax - 2
  wrAddr : 0 ≤ s.wrAddr ∧ s.wrAddr ≤ NsMax - 2
  readAddrPipeline : 0 ≤ s.readAddrPipeline ∧ s.readAddrPipeline ≤ NsMax - 5
  currentNValid : s.shiftState = .pull → 4 ≤ s.currentNValid ∧ s.currentNValid ≤ NsMax - 1

variable {NsMax : ℕ}

/-- A pass that starts with a delay for which the line is built, and every later edge of it,
    keep the addresses in range. -/
theorem InRange.edge (h : InRange NsMax s) (h5 : 5 ≤ NsMax)
    (hN : Accepts s i → 5 ≤ i.currentN ∧ i.currentN ≤ NsMax) : InRange NsMax (s.edge i) := by
  obtain ⟨hrd, hwr, hpipe, hvalid⟩ := h
  by_cases hr : i.rst = true
  · cases hs : s.shiftState with
    | idle =>
      by_cases hv : i.dataSampledValid = true
      · have hacc : Accepts s i := ⟨hr, hs, hv⟩
        obtain ⟨hlo, hhi⟩ := hN hacc
        rw [edge_idle_tick hacc]
        constructor <;> simp <;> omega
      · rw [edge_idle_rest hr hs (by simpa using hv)]
        exact ⟨hrd, hwr, hpipe, by simp [hs]⟩
    | pull =>
      obtain ⟨hlo, hhi⟩ := hvalid hs
      rcases eq_or_ne s.cnt 0 with h0 | h0
      · rw [edge_pull_first hr hs h0]
        refine ⟨?_, hwr, hpipe, fun _ => ⟨hlo, hhi⟩⟩
        show 0 ≤ s.currentNValid - 2 ∧ s.currentNValid - 2 ≤ (NsMax : ℤ) - 2
        omega
      · rcases eq_or_ne s.cnt 1 with h1 | h1
        · rw [edge_pull_second hr hs h1]
          refine ⟨?_, hwr, hpipe, by simp⟩
          show 0 ≤ s.currentNValid - 3 ∧ s.currentNValid - 3 ≤ (NsMax : ℤ) - 2
          omega
        · simp only [DelayLine.edge, process, hr, hs, h0, h1, Bool.true_eq_false, if_false]
          exact ⟨hrd, hwr, hpipe, fun _ => ⟨hlo, hhi⟩⟩
    | shift =>
      -- the loop leaves the state at 0, so `read_addr_pipeline` stays where it was loaded or below
      rw [edge_shift hr hs]
      constructor <;> simp only
      · omega
      · omega
      · split_ifs <;> omega
      · split_ifs <;> simp
    | endPipeline =>
      rcases eq_or_ne s.cnt 0 with h0 | h0
      · rw [edge_endPipeline_first hr hs h0]
        refine ⟨hrd, ?_, hpipe, by simp [hs]⟩
        show (0 : ℤ) ≤ 2 ∧ (2 : ℤ) ≤ NsMax - 2
        omega
      · rcases eq_or_ne s.cnt 1 with h1 | h1
        · rw [edge_endPipeline_second hr hs h1]
          refine ⟨hrd, ?_, hpipe, by simp⟩
          show (0 : ℤ) ≤ 1 ∧ (1 : ℤ) ≤ NsMax - 2
          omega
        · simp only [DelayLine.edge, process, hr, hs, h0, h1, Bool.true_eq_false, if_false]
          exact ⟨hrd, hwr, hpipe, by simp⟩
    | push =>
      rw [edge_push hr hs]
      refine ⟨hrd, ?_, hpipe, by simp⟩
      show (0 : ℤ) ≤ 0 ∧ (0 : ℤ) ≤ NsMax - 2
      omega
  · rw [edge_reset (by simpa using hr)]
    exact ⟨hrd, hwr, hpipe, by simp⟩

/-- A pass that starts with a delay for which the line is not built reads past the last cell. -/
theorem not_inRange_edge (hacc : Accepts s i) (hN : NsMax < i.currentN) :
    ¬ InRange NsMax (s.edge i) := by
  intro h
  have := h.rdAddr.2
  rw [edge_idle_tick hacc] at this
  simp only at this
  omega

end DelayLine

end Reverb
