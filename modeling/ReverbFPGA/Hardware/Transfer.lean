import ReverbFPGA.Hardware.SampleModel

namespace Reverb

/-!
# Transfers and passes

An audio sample is handed over at an edge at which both `valid` and `ready` are high.  The tick
of the channels is `valid` alone, and a line of the main echo samples `audioL_IN_data` at its
push state, `predelay + 1` edges later:

* `LPF.Loads` — an edge at which a low-pass filter loads its register, whatever that holds;
* `Channel.ExactlyOnce` — what a channel owes to each transfer: one pass of every delay line,
  one load of every low-pass filter, and the sample of the transfer in the first line;
* `Channel.exactlyOnce_iff` — for one channel, the inputs for which it does so;
* `exactly_once_iff` — the same for both channels of the design.
-/

open Clocked DelayLine FixedPoint

namespace LPF

variable {w : ℕ}

/-- A rising edge with these inputs loads the filter: whatever the register holds, it takes the
    output of the adder. -/
def Loads (i : In w) : Prop := ∀ s : LPF w, s.edge i = ⟨s.outputAdder i⟩

/-- An adder cannot hold both of the registers 0 and 1: the gain of the loop takes both to 0. -/
theorem exists_outputAdder_ne (hw : 1 < w) (i : In w) :
    ∃ s : LPF w, s.outputAdder i ≠ s.prevOutputAdder := by
  by_contra hall
  push Not at hall
  have hd : (i.dampingValue.toNat : ℤ) < 2 ^ w := by exact_mod_cast i.dampingValue.isLt
  have hd0 : (0 : ℤ) ≤ i.dampingValue.toNat := Int.natCast_nonneg _
  have hzero : (0 : BitVec w).toInt = 0 := BitVec.toInt_zero
  have hone : (1 : BitVec w).toInt = 1 := BitVec.toInt_one hw
  have hzeroGain : coefMult 0 i.dampingValue = 0 := by
    apply BitVec.eq_of_toInt_eq
    rw [coefMult_toInt (by omega), hzero, scale, mul_zero, Int.zero_ediv]
  have honeGain : coefMult 1 i.dampingValue = 0 := by
    apply BitVec.eq_of_toInt_eq
    rw [coefMult_toInt (by omega), hone, hzero, scale, mul_one,
      Int.ediv_eq_zero_of_lt hd0 hd]
  -- so the adder puts out the same word for both
  have hholds0 : firstInputAdder i + coefMult 0 i.dampingValue = 0 := hall ⟨0⟩
  have hholds1 : firstInputAdder i + coefMult 1 i.dampingValue = 1 := hall ⟨1⟩
  rw [hzeroGain] at hholds0
  rw [honeGain, hholds0] at hholds1
  have hcontra := congrArg BitVec.toInt hholds1
  rw [hone, hzero] at hcontra
  omega

/-- Out of reset a filter of two or more bits is loaded at the edges at which `data_sampled_valid`
    is high, and at no other. -/
theorem loads_iff (hw : 1 < w) {i : In w} (hr : i.rst = true) :
    Loads i ↔ i.dataSampledValid = true := by
  constructor
  · intro hload
    by_contra hv
    obtain ⟨s, hne⟩ := exists_outputAdder_ne hw i
    have hrest := edge_rest (s := s) hr (Bool.eq_false_iff.mpr hv)
    exact hne (congrArg prevOutputAdder ((hload s).symm.trans hrest))
  · intro hv s
    exact edge_tick hr hv

end LPF

namespace Channel

/-- The channel processes each transfer once: every delay line starts a pass, and every filter
    is loaded, at the edges of the transfers and at no other.  The register of a filter takes
    the output of its adder at a transfer and keeps its word at every other edge; and once the
    pass of a transfer is over, cell 0 of the first line of the main echo holds the sample that
    was on the bus at the transfer. -/
structure ExactlyOnce (s : ℕ → Channel) (inp : ℕ → In) (transfer : ℕ → Prop) (p : ℕ) : Prop where
  passes : ∀ l t, StartsPass (fun u => (s u).line l) t ↔ transfer t
  loads : ∀ j t, LPF.Loads ((s t).lpFilterIn (inp t) j) ↔ transfer t
  latches : ∀ j t, transfer t → ((s (t + 1)).lpFilter j).prevOutputAdder =
    ((s t).lpFilter j).outputAdder ((s t).lpFilterIn (inp t) j)
  keeps : ∀ j t, ¬ transfer t → ((s (t + 1)).lpFilter j).prevOutputAdder =
    ((s t).lpFilter j).prevOutputAdder
  sample : ∀ t, transfer t → ((s (t + p + 2)).line (.mainEcho 0)).content 0 = (inp t).dataIn

/-- A channel under a constant predelay `p`, from a state in which all its delay lines are
    idle. -/
structure Running (s : ℕ → Channel) (inp : ℕ → In) (p : ℕ) : Prop where
  run : IsRun edge s inp
  idle : ∀ l, ((s 0).line l).shiftState = .idle
  rst : ∀ t, (inp t).rst = true
  preDelayValue : ∀ t, (inp t).preDelayValue.toNat = p
  five_le : 5 ≤ p
  le_983 : p ≤ 983

namespace Running

variable {s : ℕ → Channel} {inp : ℕ → In} {p : ℕ} {transfer : ℕ → Prop}

/-- A line starts a pass at the edges at which it is idle and `valid` is high. -/
theorem startsPass_iff (h : Running s inp p) (l : Line) (t : ℕ) :
    StartsPass (fun u => (s u).line l) t ↔
      ((s t).line l).shiftState = .idle ∧ (inp t).dataSampledValid = true := by
  rw [DelayLine.startsPass_iff (isRun_line h.run l) fun u => by rw [lineIn_rst, h.rst],
    lineIn_dataSampledValid]

/-- A filter is loaded at the edges at which `valid` is high. -/
theorem loads_iff (h : Running s inp p) (j : Fin 8) (t : ℕ) :
    LPF.Loads ((s t).lpFilterIn (inp t) j) ↔ (inp t).dataSampledValid = true :=
  LPF.loads_iff (by decide) (h.rst t)

/-- At a tick the register of a filter takes the output of its adder. -/
theorem lpFilter_tick (h : Running s inp p) (j : Fin 8) {t : ℕ}
    (hv : (inp t).dataSampledValid = true) :
    (s (t + 1)).lpFilter j = ⟨((s t).lpFilter j).outputAdder ((s t).lpFilterIn (inp t) j)⟩ :=
  (isRun_lpFilter h.run j t).trans (LPF.edge_tick (h.rst t) hv)

/-- Between the ticks it keeps its word. -/
theorem lpFilter_rest (h : Running s inp p) (j : Fin 8) {t : ℕ}
    (hv : (inp t).dataSampledValid = false) : (s (t + 1)).lpFilter j = (s t).lpFilter j :=
  (isRun_lpFilter h.run j t).trans (LPF.edge_rest (h.rst t) hv)

/-- The word that the pass of edge `t` leaves in cell 0 of the first line is the one on the bus
    `p + 1` edges later. -/
theorem first_cell (h : Running s inp p) {t : ℕ}
    (hidle : ((s t).line (.mainEcho 0)).shiftState = .idle)
    (hv : (inp t).dataSampledValid = true) :
    ((s (t + p + 2)).line (.mainEcho 0)).content 0 = (inp (t + p + 1)).dataIn := by
  have hpass : Pass (fun u => (s u).line (.mainEcho 0))
      (fun u => (s u).lineIn (inp u) (.mainEcho 0)) t p :=
    { run := isRun_line h.run _
      accepts := ⟨by rw [lineIn_rst, h.rst], hidle, by rw [lineIn_dataSampledValid, hv]⟩
      currentN := by rw [lineIn_currentN]; exact h.preDelayValue t
      five_le := h.five_le
      rst := fun k _ => by rw [lineIn_rst, h.rst] }
  rw [hpass.content_end, ShiftMemory.shiftIn_zero]
  rfl

/-- Every line is idle at every tick, if the ticks are 1002 edges apart. -/
theorem idle_of_spaced (h : Running s inp p)
    (hsp : ∀ t u, (inp t).dataSampledValid = true → (inp u).dataSampledValid = true → t < u →
      t + 1002 ≤ u) (l : Line) {t : ℕ} (hv : (inp t).dataSampledValid = true) :
    ((s t).line l).shiftState = .idle := by
  obtain ⟨h5, h1002⟩ := l.currentN_bounds h.five_le h.le_983
  refine idle_of_tick (a := 0) (isRun_line h.run l) (h.idle l) (fun u _ => ?_) h5 (fun u _ _ => ?_)
    (fun t u ht hu htu => ?_) (Nat.zero_le t) (by rw [lineIn_dataSampledValid, hv])
  · rw [lineIn_rst, h.rst]
  · rw [lineIn_currentN, h.preDelayValue]
  · rw [lineIn_dataSampledValid] at ht hu
    have := hsp t u ht hu htu
    omega

/-- **When a channel processes each transfer once**: exactly when `valid` is high at transfers
    only, and the sample of each transfer is still on the bus, or there again, `p + 1` edges
    later. -/
theorem exactlyOnce_iff (h : Running s inp p)
    (hvalid : ∀ t, transfer t → (inp t).dataSampledValid = true)
    (hsp : ∀ t u, transfer t → transfer u → t < u → t + 1002 ≤ u) :
    ExactlyOnce s inp transfer p ↔
      (∀ t, (inp t).dataSampledValid = true → transfer t) ∧
        ∀ t, transfer t → (inp (t + p + 1)).dataIn = (inp t).dataIn := by
  constructor
  -- a filter shows the ticks, the first line the sample
  · intro honce
    refine ⟨fun t hv => (honce.loads 0 t).mp ((h.loads_iff 0 t).mpr hv), fun t ht => ?_⟩
    have hidle := ((h.startsPass_iff _ t).mp ((honce.passes (.mainEcho 0) t).mpr ht)).1
    rw [← h.first_cell hidle (hvalid t ht), honce.sample t ht]
  · rintro ⟨htick, hheld⟩
    have hidle := h.idle_of_spaced fun t u ht hu => hsp t u (htick t ht) (htick u hu)
    constructor
    · intro l t
      rw [h.startsPass_iff]
      exact ⟨fun hs => htick t hs.2, fun ht => ⟨hidle l (hvalid t ht), hvalid t ht⟩⟩
    · intro j t
      rw [h.loads_iff]
      exact ⟨htick t, hvalid t⟩
    · intro j t ht
      rw [h.lpFilter_tick j (hvalid t ht)]
    · intro j t ht
      have hquiet : (inp t).dataSampledValid = false :=
        Bool.eq_false_iff.mpr fun hv => ht (htick t hv)
      rw [h.lpFilter_rest j hquiet]
    · intro t ht
      rw [h.first_cell (hidle _ (hvalid t ht)) (hvalid t ht), hheld t ht]

end Running

end Channel

namespace ReverbFPGA

/-- At an edge with the inputs `i` a sample is handed over to the left channel. -/
def TransferL (i : In) : Prop := i.audioLInValid = true ∧ audioLInReady i = true

/-- At the same edge the sink takes the output sample. -/
example (i : In) : TransferL i ↔ audioLOutValid i = true ∧ i.audioLOutReady = true := Iff.rfl

/-- At an edge with the inputs `i` a sample is handed over to the right channel. -/
def TransferR (i : In) : Prop := i.audioRInValid = true ∧ audioRInReady i = true

example (i : In) : TransferR i ↔ audioROutValid i = true ∧ i.audioROutReady = true := Iff.rfl

/-- **Exactly-once processing**, for every sequence of `valid`, `ready` and data with transfers
    1002 edges apart: each channel processes each of its transfers once exactly when its
    `valid` is never high without `ready`, and the sample of each transfer is on the bus again
    `predelay + 1` edges later. -/
theorem exactly_once_iff {s : ℕ → ReverbFPGA} {inp : ℕ → In} {p : Params}
    (hrun : IsRun edge s inp) (hrst : ∀ t, (inp t).rst = true)
    (hparams : ∀ t, (inp t).params = p) (h5 : 5 ≤ p.preDelayValue.toNat)
    (h983 : p.preDelayValue.toNat ≤ 983)
    (hidleL : ∀ l, ((s 0).channelL.line l).shiftState = .idle)
    (hidleR : ∀ l, ((s 0).channelR.line l).shiftState = .idle)
    (hspL : ∀ t u, TransferL (inp t) → TransferL (inp u) → t < u → t + 1002 ≤ u)
    (hspR : ∀ t u, TransferR (inp t) → TransferR (inp u) → t < u → t + 1002 ≤ u) :
    (Channel.ExactlyOnce (fun t => (s t).channelL) (fun t => channelLIn (inp t))
        (fun t => TransferL (inp t)) p.preDelayValue.toNat ↔
      (∀ t, (inp t).audioLInValid = true → (inp t).audioLOutReady = true) ∧
        ∀ t, TransferL (inp t) →
          (inp (t + p.preDelayValue.toNat + 1)).audioLInData = (inp t).audioLInData) ∧
    (Channel.ExactlyOnce (fun t => (s t).channelR) (fun t => channelRIn (inp t))
        (fun t => TransferR (inp t)) p.preDelayValue.toNat ↔
      (∀ t, (inp t).audioRInValid = true → (inp t).audioROutReady = true) ∧
        ∀ t, TransferR (inp t) →
          (inp (t + p.preDelayValue.toNat + 1)).audioRInData = (inp t).audioRInData) := by
  have hL : Channel.Running (fun t => (s t).channelL) (fun t => channelLIn (inp t))
      p.preDelayValue.toNat :=
    ⟨isRun_channelL hrun, hidleL, hrst,
      fun t => congrArg (fun q => q.preDelayValue.toNat) (hparams t), h5, h983⟩
  have hR : Channel.Running (fun t => (s t).channelR) (fun t => channelRIn (inp t))
      p.preDelayValue.toNat :=
    ⟨isRun_channelR hrun, hidleR, hrst,
      fun t => congrArg (fun q => q.preDelayValue.toNat) (hparams t), h5, h983⟩
  constructor
  · rw [hL.exactlyOnce_iff (fun t ht => ht.1) hspL]
    exact and_congr_left fun _ => forall_congr' fun t =>
      ⟨fun h hv => (h hv).2, fun h hv => ⟨hv, h hv⟩⟩
  · rw [hR.exactlyOnce_iff (fun t ht => ht.1) hspR]
    exact and_congr_left fun _ => forall_congr' fun t =>
      ⟨fun h hv => (h hv).2, fun h hv => ⟨hv, h hv⟩⟩

/-- Both channels at power-up, with empty delay lines. -/
def powerUp : ReverbFPGA := ⟨Channel.powerUp, Channel.powerUp⟩

theorem powerUp_idle (l : Line) : (Channel.powerUp.line l).shiftState = .idle := by
  cases l <;> rfl

/-- The waveforms of `valid`, of `ready` and of the data bus, the same on both sides. -/
def handshake (valid ready : ℕ → Bool) (data : ℕ → BitVec 24) (t : ℕ) : In where
  rst := true
  audioLInValid := valid t
  audioLInData := data t
  audioLOutReady := ready t
  audioRInValid := valid t
  audioRInData := data t
  audioROutReady := ready t
  params := ⟨0x800000, 5, 0x1000000, 0x800000⟩
  stereoNMono := true

/-- With one-cycle pulses, sinks that are always ready and a bus that counts the transfers, the
    last all-pass on the right starts a pass at the transfer of edge 7014, and the first line
    takes the sample 7. -/
theorem exactly_once_iff_pulses :
    let r := run edge powerUp (handshake (every 0 1002) (fun _ => true)
      fun t => BitVec.ofNat 24 (t / 1002))
    StartsPass (fun t => (r t).channelR.line (.apf 3)) (0 + 1002 * 7) ∧
      ((r (0 + 1002 * 7 + 5 + 2)).channelR.line (.mainEcho 0)).content 0 = 7 := by
  have hpulses := pulses_every 0 1002
  have hgap : ∀ t u, every 0 1002 t = true ∧ true = true → every 0 1002 u = true ∧ true = true →
      t < u → t + 1002 ≤ u := fun t u ht hu => hpulses.gap_le ht.1 hu.1
  have hheld : ∀ t, every 0 1002 t = true ∧ true = true →
      BitVec.ofNat 24 ((t + 5 + 1) / 1002) = BitVec.ofNat 24 (t / 1002) := by
    intro t ht
    obtain ⟨n, rfl⟩ := (hpulses.pulse_iff t).mp ht.1
    congr 1
    omega
  have hiff := exactly_once_iff (isRun_run powerUp (handshake (every 0 1002) (fun _ => true)
    fun t => BitVec.ofNat 24 (t / 1002)))
    (fun _ => rfl) (fun _ => rfl) (by decide) (by decide) powerUp_idle powerUp_idle hgap hgap
  have honce := hiff.2.mpr ⟨fun _ _ => rfl, hheld⟩
  exact ⟨(honce.passes (.apf 3) _).mpr ⟨hpulses.tick_at 7, rfl⟩,
    honce.sample _ ⟨hpulses.tick_at 7, rfl⟩⟩

/-- One transfer at edge 0, with `0x111111` on the bus, which carries `0x222222` from edge 1 on:
    the first line of the main echo gets the later word. -/
theorem exactly_once_bus_moves :
    let inp := handshake (fun t => decide (t = 0)) (fun _ => true)
      fun t => if t = 0 then 0x111111 else 0x222222
    (∀ t u, TransferL (inp t) → TransferL (inp u) → t < u → t + 1002 ≤ u) ∧
      ((run edge powerUp inp (0 + 5 + 2)).channelL.line (.mainEcho 0)).content 0 = 0x222222 ∧
      ¬ Channel.ExactlyOnce (fun t => (run edge powerUp inp t).channelL)
        (fun t => channelLIn (inp t)) (fun t => TransferL (inp t)) 5 := by
  intro inp
  have honly : ∀ t, TransferL (inp t) → t = 0 := fun t ht => of_decide_eq_true ht.1
  have hcell : ((run edge powerUp inp (0 + 5 + 2)).channelL.line (.mainEcho 0)).content 0 =
      0x222222 :=
    Channel.Running.first_cell
      { run := isRun_channelL (isRun_run powerUp inp)
        idle := powerUp_idle
        rst := fun _ => rfl
        preDelayValue := fun _ => rfl
        five_le := by decide
        le_983 := by decide } rfl rfl
  refine ⟨fun t u ht hu htu => ?_, hcell, fun honce => ?_⟩
  · have h1 := honly t ht
    have h2 := honly u hu
    omega
  · have hsample := honce.sample 0 ⟨rfl, rfl⟩
    rw [hcell] at hsample
    exact absurd hsample (show ¬ (0x222222 : BitVec 24) = 0x111111 by decide)

end ReverbFPGA

end Reverb
