import ReverbFPGA.Hardware.TickReads

namespace Reverb

/-!
# Ticks of two edges

The audio controller keeps `valid` high for two edges.  A delay line is in its pass at the second
one and does not see it; a low-pass filter, whose input only moves two edges later, latches twice:

* `Channel.Doubled.sample_eq` — a channel makes one step for each such tick: the same passes, but
  with filters that have latched twice (`Sample.doubleStep`);
* `Channel.Doubled.dampedBySquare` — what that is for the ear: the filter with the square of the
  damping.
-/

open Clocked DelayLine FixedPoint Signed

/-! ### Latching twice -/

/-- **Twice is the square of the gain.**  A filter that latches twice on the same input `x` does what
    one with the gain `d ^ 2 / 2 ^ (2 * w)` does, but for five units below and one above. -/
theorem LPF.sum_sum_near {w : ℕ} {d x y : ℤ} (hd : 0 ≤ d) (hdK : d < 2 ^ w)
    (hxlo : -2 ^ w ≤ 2 * x) (hxhi : 2 * x ≤ 2 ^ w) :
    -5 * (2 ^ w) ^ 2 ≤ (2 ^ w) ^ 2 * LPF.sum w d x (LPF.sum w d x y) -
        (((2 ^ w) ^ 2 - d ^ 2) * x + d ^ 2 * y) ∧
      (2 ^ w) ^ 2 * LPF.sum w d x (LPF.sum w d x y) - (((2 ^ w) ^ 2 - d ^ 2) * x + d ^ 2 * y) ≤
        (2 ^ w) ^ 2 := by
  have hK : (0 : ℤ) < 2 ^ w := by positivity
  unfold LPF.sum
  generalize (2 : ℤ) ^ w = K at *
  -- the three roundings
  have hfirst := scale_mul_le hK (K - 1 - d) x
  have hfirst' := lt_scale_mul hK (K - 1 - d) x
  have hsecond := scale_mul_le hK d y
  have hsecond' := lt_scale_mul hK d y
  generalize scale K (K - 1 - d) x = a at *
  generalize scale K d y = b at *
  have hthird := scale_mul_le hK d (a + b)
  have hthird' := lt_scale_mul hK d (a + b)
  generalize scale K d (a + b) = c at *
  -- the two gains of `x` sum up to a unit of the gain less than `1 - d ^ 2`
  have hrest : |(K + d) * x| ≤ K ^ 2 := by
    rw [abs_le]
    constructor <;> nlinarith
  obtain ⟨hrest1, hrest2⟩ := abs_le.mp hrest
  have hdsq : d * K ≤ K ^ 2 := by nlinarith
  constructor
  · have h1 := mul_le_mul_of_nonneg_left hfirst'.le hK.le
    have h2 := mul_le_mul_of_nonneg_left hfirst'.le hd
    have h3 := mul_le_mul_of_nonneg_left hsecond'.le hd
    have h4 := mul_le_mul_of_nonneg_left hthird'.le hK.le
    linarith
  · have h1 := mul_le_mul_of_nonneg_left hfirst hK.le
    have h2 := mul_le_mul_of_nonneg_left hfirst hd
    have h3 := mul_le_mul_of_nonneg_left hsecond hd
    have h4 := mul_le_mul_of_nonneg_left hthird hK.le
    linarith

namespace Channel

/-! ### Ticks of two edges -/

/-- One tick of two edges with the readings `o`, and with the damping `d` at the second edge. -/
def Sample.doubleStep (a : Sample) (o : TickReads) (d : BitVec 25) : Sample :=
  a.pass o (latched a.out (latched a.out a.lp o.atTick) { o.atTick with dampingValue := d })

/-- The state after `n` ticks of two edges. -/
def Sample.doubleSteps (a : Sample) (o : ℕ → TickReads) (d : ℕ → BitVec 25) : ℕ → Sample
  | 0 => a
  | n + 1 => (a.doubleSteps o d n).doubleStep (o n) (d n)

/-- The run of a channel in which all delay lines are idle at the start and each tick lasts two
    edges, from edge `T n` on; the ticks are at least 1002 edges apart, and the predelay is within
    5 and 983 when one comes. -/
structure Doubled (s : ℕ → Channel) (inp : ℕ → In) (T : ℕ → ℕ) : Prop where
  run : IsRun edge s inp
  idle : ∀ l, ((s 0).line l).shiftState = .idle
  rst : ∀ t, (inp t).rst = true
  five_le : ∀ n, 5 ≤ (inp (T n)).preDelayValue.toNat
  le_983 : ∀ n, (inp (T n)).preDelayValue.toNat ≤ 983
  spaced : ∀ n, T n + 1002 ≤ T (n + 1)
  valid_iff : ∀ t, (inp t).dataSampledValid = true ↔ ∃ n, t = T n ∨ t = T n + 1

namespace Doubled

variable {s : ℕ → Channel} {inp : ℕ → In} {T : ℕ → ℕ}

/-- Every line has a delay for which it is built, and a pass that is over before the next tick. -/
theorem currentN_bounds (h : Doubled s inp T) (l : Line) (n : ℕ) :
    5 ≤ l.currentN (inp (T n)).preDelayValue.toNat ∧
      l.currentN (inp (T n)).preDelayValue.toNat + 2 ≤ 1002 :=
  l.currentN_bounds (h.five_le n) (h.le_983 n)

open Classical in
/-- The first edges of the ticks. -/
theorem pulses (h : Doubled s inp T) : Pulses (fun t => decide (∃ n, T n = t)) T 1002 where
  spaced := h.spaced
  pulse_iff := fun _ => decide_eq_true_iff

theorem valid_first (h : Doubled s inp T) (n : ℕ) : (inp (T n)).dataSampledValid = true :=
  (h.valid_iff _).mpr ⟨n, Or.inl rfl⟩

theorem valid_second (h : Doubled s inp T) (n : ℕ) : (inp (T n + 1)).dataSampledValid = true :=
  (h.valid_iff _).mpr ⟨n, Or.inr rfl⟩

/-- `valid` is low from the end of a tick up to the next one. -/
theorem quiet (h : Doubled s inp T) {n t : ℕ} (h1 : T n + 2 ≤ t) (h2 : t < T (n + 1)) :
    (inp t).dataSampledValid = false := by
  rw [Bool.eq_false_iff]
  intro hv
  obtain ⟨m, hm⟩ := (h.valid_iff t).mp hv
  rcases Nat.lt_or_ge n m with hlt | hge
  · have : T (n + 1) ≤ T m := h.pulses.monotone hlt
    omega
  · have : T m ≤ T n := h.pulses.monotone hge
    omega

/-- And before the first tick. -/
theorem quiet_before (h : Doubled s inp T) {t : ℕ} (ht : t < T 0) :
    (inp t).dataSampledValid = false := by
  rw [Bool.eq_false_iff]
  intro hv
  obtain ⟨m, hm⟩ := (h.valid_iff t).mp hv
  have := h.pulses.monotone (Nat.zero_le m)
  omega

/-! ### The delay lines -/

/-- Without `valid` no line starts a pass. -/
theorem not_accepts_of_quiet {l : Line} {t : ℕ} (hv : (inp t).dataSampledValid = false) :
    ¬ Accepts ((s t).line l) ((s t).lineIn (inp t) l) := by
  intro hacc
  have htick := hacc.2.2
  rw [lineIn_dataSampledValid, hv] at htick
  exact absurd htick (by decide)

/-- The pass that a tick starts, if it finds the line idle. -/
theorem pass (h : Doubled s inp T) {l : Line} {n : ℕ}
    (hidle : ((s (T n)).line l).shiftState = .idle) :
    Pass (fun t => (s t).line l) (fun t => (s t).lineIn (inp t) l) (T n)
      (l.currentN (inp (T n)).preDelayValue.toNat) where
  run := isRun_line h.run l
  accepts := ⟨by rw [lineIn_rst, h.rst], hidle, by rw [lineIn_dataSampledValid, h.valid_first]⟩
  currentN := lineIn_currentN _ _ l
  five_le := (h.currentN_bounds l n).1
  rst := fun _ _ => by rw [lineIn_rst, h.rst]

/-- Every tick finds all lines idle. -/
theorem idle_at (h : Doubled s inp T) (l : Line) (n : ℕ) :
    ((s (T n)).line l).shiftState = .idle := by
  induction n with
  | zero =>
    exact (rest (isRun_line h.run l) (Nat.zero_le _) (h.idle l)
      (fun u _ _ => by rw [lineIn_rst, h.rst])
      fun u _ hu => not_accepts_of_quiet (h.quiet_before hu)).1
  | succ n ih =>
    have hpass := h.pass ih
    have hsp := h.spaced n
    obtain ⟨h5, hle⟩ := h.currentN_bounds l n
    exact (rest (isRun_line h.run l) (show T n + _ + 2 ≤ T (n + 1) by omega) hpass.idle_end
      (fun u _ _ => by rw [lineIn_rst, h.rst])
      fun u h1 h2 => not_accepts_of_quiet (h.quiet (n := n) (by omega) h2)).1

open Classical in
/-- **A line sees the first edge of a tick only.** -/
theorem isRun_masked (h : Doubled s inp T) (l : Line) :
    IsRun DelayLine.edge (fun t => (s t).line l) fun t =>
      { (s t).lineIn (inp t) l with dataSampledValid := decide (∃ n, T n = t) } := by
  intro t
  have hedge : (s (t + 1)).line l = ((s t).line l).edge ((s t).lineIn (inp t) l) :=
    isRun_line h.run l t
  show (s (t + 1)).line l = _
  rw [hedge]
  by_cases hsecond : ∃ n, t = T n + 1
  -- at the second edge the line is in its pull state
  · obtain ⟨n, rfl⟩ := hsecond
    have hbusy := (h.pass (h.idle_at l n)).busy (k := 1) le_rfl (by omega)
    exact edge_congr_of_busy hbusy rfl rfl
  · have hvalid : decide (∃ n, T n = t) = ((s t).lineIn (inp t) l).dataSampledValid := by
      rw [lineIn_dataSampledValid, Bool.eq_iff_iff, decide_eq_true_iff, h.valid_iff]
      constructor
      · rintro ⟨n, hn⟩
        exact ⟨n, Or.inl hn.symm⟩
      · rintro ⟨n, hn | hn⟩
        · exact ⟨n, hn.symm⟩
        · exact absurd ⟨n, hn⟩ hsecond
    refine congrArg ((s t).line l).edge ?_
    show _ = { (s t).lineIn (inp t) l with dataSampledValid := decide (∃ n, T n = t) }
    rw [hvalid]

open Classical in
/-- So it makes its passes at the first edges of the ticks. -/
theorem varTicked (h : Doubled s inp T) (l : Line) :
    VarTicked (fun t => (s t).line l)
      (fun t => { (s t).lineIn (inp t) l with dataSampledValid := decide (∃ n, T n = t) }) T
      (fun n => l.currentN (inp (T n)).preDelayValue.toNat) where
  run := h.isRun_masked l
  idle := h.idle l
  rst := fun t => (lineIn_rst _ _ l).trans (h.rst t)
  five_le := fun n => (h.currentN_bounds l n).1
  pulses := h.pulses.mono_gap (by decide)
  room := fun n => by
    have hgap := h.spaced n
    have hpass := (h.currentN_bounds l n).2
    omega
  currentN := fun n => lineIn_currentN _ _ l

/-- The first line pushes the word that is on the bus `predelay + 1` edges after the tick. -/
theorem first_cell (h : Doubled s inp T) (n : ℕ) :
    ((s (T n + (inp (T n)).preDelayValue.toNat + 2)).line (.mainEcho 0)).content 0 =
      (inp (T n + (inp (T n)).preDelayValue.toNat + 1)).dataIn := by
  have hpass : Pass (fun u => (s u).line (.mainEcho 0))
      (fun u => (s u).lineIn (inp u) (.mainEcho 0)) (T n) (inp (T n)).preDelayValue.toNat :=
    h.pass (h.idle_at (.mainEcho 0) n)
  rw [hpass.content_end, ShiftMemory.shiftIn_zero]
  rfl

/-! ### The filters -/

/-- The output words stay over both edges of a tick. -/
theorem out_second (h : Doubled s inp T) (n : ℕ) :
    (s (T n + 1)).sample.out = (s (T n)).sample.out :=
  funext fun l => (h.pass (h.idle_at l n)).dataOut_before (by omega)

/-- A filter holds what it has latched at an edge of a tick. -/
theorem lp_succ (h : Doubled s inp T) {t : ℕ} (hv : (inp t).dataSampledValid = true) :
    (s (t + 1)).sample.lp = latched (s t).sample.out (s t).sample.lp (inp t) := by
  funext j
  have hedge : (s (t + 1)).lpFilter j = ((s t).lpFilter j).edge ((s t).lpFilterIn (inp t) j) :=
    isRun_lpFilter h.run j t
  show ((s (t + 1)).lpFilter j).prevOutputAdder = _
  rw [hedge, LPF.edge_tick (h.rst t) hv]
  rfl

/-- Without a tick it keeps its word. -/
theorem lp_hold (h : Doubled s inp T) {a b : ℕ} (hab : a ≤ b)
    (hq : ∀ t, a ≤ t → t < b → (inp t).dataSampledValid = false) :
    (s b).sample.lp = (s a).sample.lp := by
  induction b, hab using Nat.le_induction with
  | base => rfl
  | succ t hat ih =>
    rw [← ih fun u hau hut => hq u hau (by omega)]
    funext j
    have hedge : (s (t + 1)).lpFilter j = ((s t).lpFilter j).edge ((s t).lpFilterIn (inp t) j) :=
      isRun_lpFilter h.run j t
    show ((s (t + 1)).lpFilter j).prevOutputAdder = _
    rw [hedge, LPF.edge_rest (h.rst t) (hq t hat (by omega))]
    rfl

/-- After a tick the filters have latched twice the same words of the lines. -/
theorem lp_twice (h : Doubled s inp T) (n : ℕ) :
    (s (T n + 2)).sample.lp = latched (s (T n)).sample.out
      (latched (s (T n)).sample.out (s (T n)).sample.lp (inp (T n))) (inp (T n + 1)) := by
  rw [h.lp_succ (h.valid_second n), h.out_second, h.lp_succ (h.valid_first n)]

/-- Up to the next tick they keep that. -/
theorem lp_after (h : Doubled s inp T) {n t : ℕ} (h1 : T n + 2 ≤ t) (h2 : t ≤ T (n + 1)) :
    (s t).sample.lp = latched (s (T n)).sample.out
      (latched (s (T n)).sample.out (s (T n)).sample.lp (inp (T n))) (inp (T n + 1)) := by
  rw [h.lp_hold h1 fun u hu1 hu2 => h.quiet (n := n) hu1 (by omega), h.lp_twice]

/-- With the first edges of the ticks for ticks, and the filters after both edges. -/
theorem passing (h : Doubled s inp T) :
    Passing s inp T fun n =>
      ((s (T n)).sample.doubleStep (tickReads inp (T n)) (inp (T n + 1)).dampingValue).lp where
  line := fun l => ⟨_, h.varTicked l, fun _ => rfl⟩
  lp_eq := fun n t h1 h2 => by
    rw [h.lp_after (by omega) h2]
    funext j
    have hfirst : latched (s (T n)).sample.out (s (T n)).sample.lp (inp (T n)) =
        latched (s (T n)).sample.out (s (T n)).sample.lp (tickReads inp (T n)).atTick :=
      funext fun j => latched_congr rfl j
    rw [hfirst]
    exact latched_congr rfl j

/-- **One step for each tick**, in which the filters latch twice. -/
theorem sample_succ (h : Doubled s inp T) (n : ℕ) :
    (s (T (n + 1))).sample =
      (s (T n)).sample.doubleStep (tickReads inp (T n)) (inp (T n + 1)).dampingValue :=
  h.passing.sample_succ n

/-- Before the first tick the state stays. -/
theorem sample_before (h : Doubled s inp T) : (s (T 0)).sample = (s 0).sample := by
  obtain ⟨hmem, hout⟩ := h.passing.words_before
  have hlp := h.lp_hold (Nat.zero_le (T 0)) fun _ _ ht => h.quiet_before ht
  calc (s (T 0)).sample
      = ⟨(s (T 0)).sample.mem, (s (T 0)).sample.out, (s (T 0)).sample.lp⟩ := rfl
    _ = (s 0).sample := by rw [hmem, hout, hlp]

/-- **The channel refines the machine of double steps.** -/
theorem sample_eq (h : Doubled s inp T) (n : ℕ) :
    (s (T n)).sample = (s 0).sample.doubleSteps (fun k => tickReads inp (T k))
      (fun k => (inp (T k + 1)).dampingValue) n := by
  induction n with
  | zero => exact h.sample_before
  | succ n ih => rw [h.sample_succ, ih, Sample.doubleSteps]

/-- The output words at both edges of a tick come from the same words of the lines, and each from the
    sample that is on the bus at its edge. -/
theorem dataOut_eq (h : Doubled s inp T) (n : ℕ) {b : ℕ} (hb : b ≤ 1) :
    (s (T n + b)).dataOut (inp (T n + b)) =
      wiresDataOut (s (T n)).sample.out (inp (T n + b)) := by
  rw [dataOut_eq_wires]
  obtain rfl | rfl : b = 0 ∨ b = 1 := by omega
  · rfl
  · rw [h.out_second]

end Doubled

/-- From the channel `a` to the channel `b`, the filter of comb `j` goes from its old word towards the
    word of the line as one with the square of the damping `d` would, but for five units below
    and one above. -/
def DampedBySquare (d : BitVec 25) (a b : Channel) (j : Fin 8) : Prop :=
  let x := (a.line (.lfcf2 j)).dataOut.toInt
  let y := (a.lpFilter j).prevOutputAdder.toInt
  let r := (b.lpFilter j).prevOutputAdder.toInt
  let squared := (2 ^ 50 - (d.toNat : ℤ) ^ 2) * x + (d.toNat : ℤ) ^ 2 * y
  squared - 5 * 2 ^ 50 ≤ 2 ^ 50 * r ∧ 2 ^ 50 * r ≤ squared + 2 ^ 50

/-- **The square of the damping**, from tick to tick, if the damping is the same at both edges. -/
theorem Doubled.dampedBySquare {s : ℕ → Channel} {inp : ℕ → In} {T : ℕ → ℕ} (h : Doubled s inp T)
    (n : ℕ) (j : Fin 8) (hd : (inp (T n + 1)).dampingValue = (inp (T n)).dampingValue) :
    DampedBySquare (inp (T n)).dampingValue (s (T n)) (s (T (n + 1))) j := by
  unfold DampedBySquare
  intro x y r squared
  have hlatched : ∀ (lp : Fin 8 → BitVec 25) (i : In), i.dampingValue = (inp (T n)).dampingValue →
      (latched (s (T n)).sample.out lp i j).toInt =
        LPF.sum 25 (inp (T n)).dampingValue.toNat x (lp j).toInt := by
    intro lp i hi
    rw [latched, LPF.outputAdder_toInt (by decide)]
    show LPF.sum 25 (i.dampingValue.toNat : ℤ) x (lp j).toInt = _
    rw [hi]
  have hsum : r = LPF.sum 25 (inp (T n)).dampingValue.toNat x
      (LPF.sum 25 (inp (T n)).dampingValue.toNat x y) := by
    have hsp := h.spaced n
    have htwice := congrFun (h.lp_after (n := n) (by omega) le_rfl) j
    have hword : r = (latched (s (T n)).sample.out (latched (s (T n)).sample.out
        (s (T n)).sample.lp (inp (T n))) (inp (T n + 1)) j).toInt := congrArg BitVec.toInt htwice
    rw [hword, hlatched _ _ hd, hlatched _ _ rfl]
    rfl
  obtain ⟨hxlo, hxhi⟩ := fits_toInt ((s (T n)).line (.lfcf2 j)).dataOut
  have hlt : ((inp (T n)).dampingValue.toNat : ℤ) < 2 ^ 25 := by
    exact_mod_cast (inp (T n)).dampingValue.isLt
  have hnear := LPF.sum_sum_near (w := 25) (y := y) (Int.natCast_nonneg _) hlt hxlo hxhi.le
  rw [← hsum] at hnear
  simp only [squared]
  norm_num at hnear ⊢
  constructor <;> linarith

end Channel

end Reverb
