import ReverbFPGA.Hardware.DelayLineRun

namespace Reverb

/-!
# Reads that collide with a write

`RAM.vhd` promises the old word to a read of the cell that is being written.  `edgeMixed` is the
delay line over a RAM without that promise: a colliding read returns any word.

During a pass the write address stays above the read address (`Apart`), and only the write of
the push, to the cell 0 that is read last, collides.  The word read there is dropped: the FSM is
idle, and the next tick fetches the last cell before it looks at the read register again
(`Unread`).  So the two delay lines differ in that register only, while nothing reads it
(`read_collision_harmless`).
-/

open Clocked

variable {w : ℕ}

/-- A rising edge of a RAM in which a read that collides with the write returns `collided`. -/
def RAM.edgeMixed (r : RAM w) (wrData : BitVec w) (wrAddr rdAddr : ℤ) (we : Bool)
    (collided : BitVec w) : RAM w :=
  { r.edge wrData wrAddr rdAddr we with
    rdData := if we = true ∧ rdAddr = wrAddr then collided else r.ramBlock rdAddr }

namespace DelayLine

/-- A rising edge of a delay line over such a RAM. -/
def edgeMixed (s : DelayLine w) (i : In w × BitVec w) : DelayLine w :=
  { s.process i.1 with ram := s.ram.edgeMixed s.wrData s.wrAddr s.rdAddr s.we i.2 }

/-- The same registers, but for the word in the read register of the RAM. -/
def withRead (s : DelayLine w) (v : BitVec w) : DelayLine w :=
  { s with ram := { s.ram with rdData := v } }

/-- The FSM does not look at the read register at the next edge. -/
def Unread (s : DelayLine w) : Prop :=
  s.shiftState = .idle ∨ (s.shiftState = .pull ∧ s.cnt = 0)

/-- Once a pass is under way, the cell that is being read is not the one being written. -/
structure Apart (s : DelayLine w) : Prop where
  pull : s.shiftState = .pull → s.we = false ∧ (s.cnt = 0 ∨ s.cnt = 1) ∧
    4 ≤ s.currentNValid ∧ s.readAddrPipeline = s.currentNValid - 4
  shift : s.shiftState = .shift → s.cnt = 0 ∧ 0 ≤ s.readAddrPipeline ∧
    s.rdAddr = s.readAddrPipeline + 1 ∧ (s.we = true → s.wrAddr = s.readAddrPipeline + 4)
  endPipeline : s.shiftState = .endPipeline → (s.cnt = 0 ∨ s.cnt = 1) ∧ s.rdAddr = 0 ∧
    s.wrAddr = 3 - s.cnt
  push : s.shiftState = .push → s.rdAddr = 0 ∧ s.wrAddr = 1

variable {s : DelayLine w} {i : In w} {v : BitVec w}

theorem apart_of_idle (h : s.shiftState = .idle) : Apart s := by
  constructor <;> simp [h]

/-- **Every edge keeps the addresses apart**, if passes start with delays of 5 or more. -/
theorem Apart.edge (h : Apart s) (hN : Accepts s i → 5 ≤ i.currentN) : Apart (s.edge i) := by
  by_cases hr : i.rst = true
  · cases hs : s.shiftState with
    | idle =>
      by_cases hv : i.dataSampledValid = true
      · have hacc : Accepts s i := ⟨hr, hs, hv⟩
        have h5 := hN hacc
        rw [edge_idle_tick hacc]
        constructor <;> simp
        omega
      · rw [edge_idle_rest hr hs (by simpa using hv)]
        exact apart_of_idle hs
    | pull =>
      obtain ⟨hwe, hcnt, hvalid, hpipe⟩ := h.pull hs
      rcases hcnt with h0 | h1
      · rw [edge_pull_first hr hs h0]
        constructor <;> simp [hs, hwe, hvalid, hpipe]
      · rw [edge_pull_second hr hs h1]
        constructor <;> simp [hwe, hpipe]
        omega
    | shift =>
      obtain ⟨hcnt, hpipe, -, -⟩ := h.shift hs
      rw [edge_shift hr hs]
      by_cases hlast : s.readAddrPipeline > 0
      · constructor <;> simp [hlast, hcnt]
        omega
      · have hzero : s.readAddrPipeline = 0 := by omega
        constructor <;> simp [hcnt, hzero]
    | endPipeline =>
      obtain ⟨hcnt, hrd, -⟩ := h.endPipeline hs
      rcases hcnt with h0 | h1
      · rw [edge_endPipeline_first hr hs h0]
        constructor <;> simp [hs, hrd]
      · rw [edge_endPipeline_second hr hs h1]
        constructor <;> simp [hrd]
    | push =>
      rw [edge_push hr hs]
      exact apart_of_idle rfl
  · rw [edge_reset (by simpa using hr)]
    exact apart_of_idle rfl

/-- **A read that collides is not looked at.** -/
theorem Apart.unread_edge (h : Apart s) (hwe : s.we = true) (haddr : s.rdAddr = s.wrAddr) :
    Unread (s.edge i) := by
  by_cases hr : i.rst = true
  · cases hs : s.shiftState with
    | idle =>
      by_cases hv : i.dataSampledValid = true
      · right
        rw [edge_idle_tick ⟨hr, hs, hv⟩]
        exact ⟨rfl, rfl⟩
      · left
        rw [edge_idle_rest hr hs (by simpa using hv)]
        exact hs
    | pull => rw [(h.pull hs).1] at hwe; exact absurd hwe (by decide)
    | shift =>
      obtain ⟨-, -, hrd, hwr⟩ := h.shift hs
      have := hwr hwe
      omega
    | endPipeline =>
      obtain ⟨hcnt, hrd, hwr⟩ := h.endPipeline hs
      omega
    | push =>
      obtain ⟨hrd, hwr⟩ := h.push hs
      omega
  · left
    rw [edge_reset (by simpa using hr)]

/-- An edge at which the read register is not looked at does the same whatever it holds. -/
theorem process_withRead (h : Unread s) :
    (s.withRead v).process i = (s.process i).withRead v := by
  unfold process withRead
  by_cases hr : i.rst = false
  · rw [if_pos hr, if_pos hr]
  · rw [if_neg hr, if_neg hr]
    rcases h with hs | ⟨hs, hc⟩
    · simp only [hs]
      split_ifs <;> rfl
    · simp only [hs, hc, if_true]

/-- Two delay lines in the same state but for a read register that is not looked at are, after an
    edge over either RAM, in the same state but for the read register. -/
theorem edgeMixed_withRead (h : Unread s ∨ v = s.ram.rdData) (collided : BitVec w) :
    (s.withRead v).edgeMixed (i, collided) = (s.edge i).withRead
      (if s.we = true ∧ s.rdAddr = s.wrAddr then collided else s.ram.ramBlock s.rdAddr) := by
  rcases h with hunread | rfl
  · have hprocess := process_withRead (i := i) (v := v) hunread
    unfold edgeMixed
    rw [hprocess]
    rfl
  · rfl

/-- The same registers but for a read register that is not looked at, and addresses apart. -/
def Related (s s' : DelayLine w) : Prop :=
  Apart s ∧ ∃ v, s' = s.withRead v ∧ (Unread s ∨ v = s.ram.rdData)

/-- One edge of both delay lines. -/
theorem Related.edge {s' : DelayLine w} (h : Related s s') (hN : Accepts s i → 5 ≤ i.currentN)
    (collided : BitVec w) : Related (s.edge i) (s'.edgeMixed (i, collided)) := by
  obtain ⟨hapart, v, rfl, hread⟩ := h
  refine ⟨hapart.edge hN, _, edgeMixed_withRead hread collided, ?_⟩
  by_cases hcol : s.we = true ∧ s.rdAddr = s.wrAddr
  · exact Or.inl (hapart.unread_edge hcol.1 hcol.2)
  · rw [if_neg hcol]
    exact Or.inr rfl

/-- **The delay line does not rely on what a colliding read returns.**  Of two runs with the same
    ports, from the same registers and RAM, that start with a reset or in the idle state, one has
    the RAM of the design, the other returns any words, chosen afresh, for colliding reads: at
    every edge they have the same RAM content, output, write register and FSM state. -/
theorem read_collision_harmless {NsMax : ℕ} {s s' : ℕ → DelayLine w} {inp : ℕ → In w}
    {collided : ℕ → BitVec w} (h : IsRun edge s inp)
    (h' : IsRun edgeMixed s' fun t => (inp t, collided t)) (h0 : s' 0 = s 0)
    (hreset : (inp 0).rst = false ∨ (s 0).shiftState = .idle)
    (hN : ∀ t, Accepts (s t) (inp t) → 5 ≤ (inp t).currentN ∧ (inp t).currentN ≤ NsMax) (t : ℕ) :
    (s' t).ram.ramBlock = (s t).ram.ramBlock ∧ (s' t).dataOut = (s t).dataOut ∧
      ((s t).we = true → (s' t).wrData = (s t).wrData) ∧ (s' t).we = (s t).we ∧
      (s' t).shiftState = (s t).shiftState := by
  have hrun : ∀ a, a ≤ t → Related (s a) (s' a) → Related (s t) (s' t) := fun a hat ha =>
    h.related h' hat ha fun u _ _ hu => hu.edge (fun hacc => (hN u hacc).1) (collided u)
  rcases Nat.eq_zero_or_pos t with rfl | hpos
  · rw [h0]
    exact ⟨rfl, rfl, fun _ => rfl, rfl, rfl⟩
  · have hstart : Related (s 1) (s' 1) := by
      rw [h 0, h' 0, h0]
      rcases hreset with hr | hidle
      · -- the reset leaves both idle, whatever state it hits
        have hidle : ((s 0).edge (inp 0)).shiftState = .idle := by rw [edge_reset hr]
        exact ⟨apart_of_idle hidle, _, edgeMixed_withRead (Or.inr rfl) (collided 0),
          Or.inl (Or.inl hidle)⟩
      · have hsame : Related (s 0) (s 0) := ⟨apart_of_idle hidle, _, rfl, Or.inr rfl⟩
        exact hsame.edge (fun hacc => (hN 0 hacc).1) (collided 0)
    obtain ⟨-, v, heq, -⟩ := hrun 1 hpos hstart
    rw [heq]
    exact ⟨rfl, rfl, fun _ => rfl, rfl, rfl⟩

/-- Ticks every eleven edges after a reset, with changing delays: the write of each push collides
    with a read; at edge 71 the sample pushed by the second tick is the output of both. -/
theorem read_collision_harmless_ticks :
    (run edgeMixed pendingPush (fun t => (resetThenTicks t, 0xAA#8)) 71).dataOut =
      (run edge pendingPush resetThenTicks 71).dataOut := by
  have hcur : ∀ t, 5 ≤ (resetThenTicks t).currentN ∧ (resetThenTicks t).currentN ≤ 8 := by
    intro t
    show 5 ≤ 6 + t / 11 % 3 ∧ 6 + t / 11 % 3 ≤ 8
    omega
  have hrun : IsRun edge _ _ := isRun_run pendingPush resetThenTicks
  exact (read_collision_harmless hrun (isRun_run _ _) rfl (Or.inl rfl) (fun t _ => hcur t) 71).2.1

end DelayLine

end Reverb
