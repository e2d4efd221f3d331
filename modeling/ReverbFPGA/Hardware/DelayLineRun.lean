import ReverbFPGA.Hardware.DelayLineInv
import ReverbFPGA.Hardware.DelayLinePass

namespace Reverb

/-!
# Whole runs of the delay line

Between two passes nothing happens (`rest`), so from one accepted tick to the next the content
of the RAM makes one in-place shift (`next_tick`).  The run of a delay line therefore refines
the sequence of shifts `ShiftMemory.after`, whatever the delays and the spacing of the ticks:

* `delayLine_refines_shift` — one pass, cell by cell and edge by edge;
* `variable_delay_law` — over a run in which the delay changes, the samples that are never
  left behind come out when they are due;
* `VarTicked`, `Ticked` — ticks that are far enough apart for the passes that they start, with a
  delay of its own at each tick, or a constant one: what the components built from delay lines
  rest on.
-/

open Clocked ShiftMemory

variable {w : ℕ}

namespace DelayLine

variable {s : ℕ → DelayLine w} {inp : ℕ → In w}

/-! ### Between the passes -/

/-- **Nothing happens between two passes**: from an idle state, without a tick, the FSM stays
    idle and neither the content nor the output changes. -/
theorem rest (h : IsRun edge s inp) {a b : ℕ} (hab : a ≤ b) (hidle : (s a).shiftState = .idle)
    (hrst : ∀ u, a ≤ u → u < b → (inp u).rst = true)
    (hquiet : ∀ u, a ≤ u → u < b → ¬ Accepts (s u) (inp u)) :
    (s b).shiftState = .idle ∧ (s b).content = (s a).content ∧ (s b).dataOut = (s a).dataOut := by
  induction b, hab using Nat.le_induction with
  | base => exact ⟨hidle, rfl, rfl⟩
  | succ u hau ih =>
    obtain ⟨hi, hc, hd⟩ := ih (fun v h1 h2 => hrst v h1 (by omega))
      (fun v h1 h2 => hquiet v h1 (by omega))
    have hr := hrst u hau (by omega)
    have hv : (inp u).dataSampledValid = false := by
      rw [Bool.eq_false_iff]
      exact fun hv => hquiet u hau (by omega) ⟨hr, hi, hv⟩
    -- the first of these edges clocks the write of the last push, and clears `we`
    have hedge := edge_idle_rest hr hi hv
    have hwe : ((s u).edge (inp u)).we = false := by rw [hedge]
    rw [h u]
    refine ⟨by rw [hedge]; exact hi, ?_, by rw [hedge]; exact hd⟩
    rw [content_edge_of_not_we hwe, hc]

/-- **From tick to tick.** When the next tick after the one at edge `t` is accepted, the pass
    is over, one shift has been made and the output is the word of the last cell. -/
theorem Pass.next_tick {t t' c : ℕ} (h : Pass s inp t c) (htt' : t < t')
    (hacc : Accepts (s t') (inp t'))
    (hquiet : ∀ u, t < u → u < t' → ¬ Accepts (s u) (inp u))
    (hrst : ∀ u, t ≤ u → u < t' → (inp u).rst = true) :
    t + c + 2 ≤ t' ∧
      (s t').content = shiftIn (c - 1) (inp (t + c + 1)).dataIn (s t).content ∧
      (s t').dataOut = (s t).content (c - 2) := by
  have hover : t + c + 2 ≤ t' := by
    -- an earlier tick would not be accepted
    by_contra hlt
    have hbusy := h.busy (k := t' - t) (by omega) (by omega)
    rw [show t + (t' - t) = t' by omega] at hbusy
    exact hbusy hacc.2.1
  obtain ⟨-, hc, hd⟩ := rest h.run hover h.idle_end (fun u h1 h2 => hrst u (by omega) h2)
    (fun u h1 h2 => hquiet u (by omega) h2)
  exact ⟨hover, by rw [hc, h.content_end], by rw [hd]; exact h.done.2.2⟩

/-- Without a tick no pass starts. -/
theorem not_accepts {t : ℕ} (hv : (inp t).dataSampledValid = false) :
    ¬ Accepts (s t) (inp t) := by
  intro hacc
  rw [hacc.2.2] at hv
  exact absurd hv (by decide)

/-- With the delay `c` at every numbered tick, the delay is `c` at every tick. -/
theorem currentN_of_tick {T : ℕ → ℕ} {gap c : ℕ}
    (hp : Pulses (fun t => (inp t).dataSampledValid) T gap) (hN : ∀ n, (inp (T n)).currentN = c)
    {t : ℕ} (hv : (inp t).dataSampledValid = true) : (inp t).currentN = c := by
  obtain ⟨n, rfl⟩ := (hp.pulse_iff t).mp hv
  exact hN n

/-- **Busy means that a tick came less than a pass ago**, if the delay is `c` at every tick:
    the invariant of an edge, over any ticks. -/
theorem idle_or_busy {a c : ℕ} (h : IsRun edge s inp) (hidle : (s a).shiftState = .idle)
    (hrst : ∀ t, a ≤ t → (inp t).rst = true) (h5 : 5 ≤ c)
    (hN : ∀ t, a ≤ t → (inp t).dataSampledValid = true → (inp t).currentN = c) {t : ℕ}
    (hat : a ≤ t) : (s t).shiftState = .idle ∨
      ∃ u, a ≤ u ∧ u < t ∧ t < u + c + 2 ∧ (inp u).dataSampledValid = true ∧
        Pass s inp u c := by
  induction t, hat using Nat.le_induction with
  | base => exact Or.inl hidle
  | succ t hat ih =>
    rcases ih with hi | ⟨u, hau, hut, htu, hv, hpass⟩
    -- an idle line starts a pass if there is a tick
    · by_cases hv : (inp t).dataSampledValid = true
      · exact Or.inr ⟨t, hat, by omega, by omega, hv,
          h, ⟨hrst t hat, hi, hv⟩, hN t hat hv, h5, fun k _ => hrst _ (by omega)⟩
      · left
        rw [h t, edge_idle_rest (hrst t hat) hi (by simpa using hv)]
        exact hi
    -- a pass goes on until its last edge
    · by_cases hlast : t + 1 < u + c + 2
      · exact Or.inr ⟨u, hau, by omega, hlast, hv, hpass⟩
      · left
        rw [show t + 1 = u + c + 2 by omega]
        exact hpass.idle_end

/-- Ticks that are `c + 2` edges apart all find the FSM idle. -/
theorem idle_of_tick {a c : ℕ} (h : IsRun edge s inp) (hidle : (s a).shiftState = .idle)
    (hrst : ∀ t, a ≤ t → (inp t).rst = true) (h5 : 5 ≤ c)
    (hN : ∀ t, a ≤ t → (inp t).dataSampledValid = true → (inp t).currentN = c)
    (hsp : ∀ t u, (inp t).dataSampledValid = true → (inp u).dataSampledValid = true → t < u →
      t + (c + 2) ≤ u) {t : ℕ} (hat : a ≤ t) (hv : (inp t).dataSampledValid = true) :
    (s t).shiftState = .idle := by
  rcases idle_or_busy h hidle hrst h5 hN hat with hi | ⟨u, -, hut, htu, hu, -⟩
  · exact hi
  · exact absurd (hsp u t hu hv hut) (by omega)

/-! ### One pass, edge by edge -/

/-- The FSM of the run starts a pass at edge `t`. -/
def StartsPass (s : ℕ → DelayLine w) (t : ℕ) : Prop :=
  (s t).shiftState ≠ .pull ∧ (s (t + 1)).shiftState = .pull

instance (s : ℕ → DelayLine w) (t : ℕ) : Decidable (StartsPass s t) :=
  inferInstanceAs (Decidable (_ ∧ _))

/-- A pass starts exactly where a tick finds the FSM idle. -/
theorem startsPass_iff (h : IsRun edge s inp) (hrst : ∀ t, (inp t).rst = true) (t : ℕ) :
    StartsPass s t ↔ (s t).shiftState = .idle ∧ (inp t).dataSampledValid = true := by
  unfold StartsPass
  rw [h t]
  cases hs : (s t).shiftState with
  | idle =>
    cases hv : (inp t).dataSampledValid with
    | true => rw [edge_idle_tick ⟨hrst t, hs, hv⟩]; simp
    | false => rw [edge_idle_rest (hrst t) hs hv]; simp [hs]
  | pull => simp
  | shift => rw [edge_shift (hrst t) hs]; simp; split_ifs <;> simp
  | endPipeline => simp [edge, process, hrst t, hs]; split_ifs <;> simp [hs]
  | push => rw [edge_push (hrst t) hs]; simp

/-- What a pass may read at its own ports: the ticks and the values of `currentN` that come
    during the pass have no effect on any register, then or later. -/
theorem Pass.unaffected {t c : ℕ} (h : Pass s inp t c) {s' : ℕ → DelayLine w} {inp' : ℕ → In w}
    (h' : IsRun edge s' inp') (h0 : s' 0 = s 0)
    (hout : ∀ u, u ≤ t ∨ t + c + 2 ≤ u → inp' u = inp u)
    (hin : ∀ u, (inp' u).rst = (inp u).rst ∧ (inp' u).dataIn = (inp u).dataIn) (u : ℕ) :
    s' u = s u := by
  -- the two inputs differ only where the line is busy and does not look at what differs
  refine (h.run.agree h' (Nat.zero_le u) h0.symm fun v _ _ => ?_).symm
  by_cases hv : v ≤ t ∨ t + c + 2 ≤ v
  · rw [hout v hv]
  · have hbusy := h.busy (k := v - t) (by omega) (by omega)
    rw [show t + (v - t) = v by omega] at hbusy
    exact edge_congr_of_busy hbusy (hin v).1.symm (hin v).2.symm

/-- **The delay line refines an in-place shift of `c - 1` places.**  (a) A tick is accepted
    exactly where the FSM is idle; the pass it starts takes `c + 2` edges, and no tick and no
    change of `currentN` during the pass has any effect.  (b) The first `c - 1` cells are
    shifted by one, with the sample of edge `c + 1` in cell 0, and the others are unchanged.
    (c) `dataOUT` takes the last of these cells at edge 2 and changes at no other edge. -/
theorem delayLine_refines_shift {NsMax : ℕ} (hrun : IsRun edge s inp)
    (hrst : ∀ t, (inp t).rst = true)
    (hN : ∀ t, 5 ≤ (inp t).currentN ∧ (inp t).currentN ≤ NsMax) :
    (∀ t, StartsPass s t ↔ (s t).shiftState = .idle ∧ (inp t).dataSampledValid = true) ∧
    ∀ t c, StartsPass s t → c = (inp t).currentN →
      ((s (t + c + 2)).shiftState = .idle ∧
        ∀ k, 1 ≤ k → k ≤ c + 1 → (s (t + k)).shiftState ≠ .idle) ∧
      (∀ (s' : ℕ → DelayLine w) (inp' : ℕ → In w), IsRun edge s' inp' → s' 0 = s 0 →
        (∀ u, u ≤ t ∨ t + c + 2 ≤ u → inp' u = inp u) →
        (∀ u, (inp' u).rst = (inp u).rst ∧ (inp' u).dataIn = (inp u).dataIn) →
        ∀ u, s' u = s u) ∧
      (∀ (M : ℤ) (mem mem' : ℤ → BitVec w), M = c - 1 → mem = (s (t + 1)).ram.ramBlock →
        mem' = (s (t + c + 3)).ram.ramBlock →
        (∀ i, 1 ≤ i → i ≤ M - 1 → mem' i = mem (i - 1)) ∧
        mem' 0 = (inp (t + c + 1)).dataIn ∧
        (∀ i, M ≤ i → mem' i = mem i) ∧
        (s (t + 3)).dataOut = mem (M - 1)) ∧
      (∀ k, k ≤ c + 1 → k ≠ 2 → (s (t + k + 1)).dataOut = (s (t + k)).dataOut) := by
  refine ⟨startsPass_iff hrun hrst, fun t c hstart hc => ?_⟩
  obtain ⟨hi, hv⟩ := (startsPass_iff hrun hrst t).mp hstart
  have h5 : 5 ≤ c := hc ▸ (hN t).1
  have hpass : Pass s inp t c := ⟨hrun, ⟨hrst t, hi, hv⟩, hc.symm, h5, fun k _ => hrst _⟩
  refine ⟨⟨hpass.idle_end, fun k => hpass.busy⟩,
    fun s' inp' h' h0 hout hin => hpass.unaffected h' h0 hout hin, ?_, ?_⟩
  -- the write in flight at edge 0 is clocked by it, that of the push by edge `c + 2`
  · rintro M mem mem' rfl rfl rfl
    have hmem : (s (t + 1)).ram.ramBlock = (s t).content := by rw [hrun t, edge_ramBlock]
    have hmem' : (s (t + c + 3)).ram.ramBlock =
        shiftIn (c - 1) (inp (t + c + 1)).dataIn (s t).content := by
      rw [hrun (t + c + 2), edge_ramBlock, hpass.content_end]
    rw [hmem, hmem']
    refine ⟨fun i h1 h2 => shiftIn_of_mem _ _ h1 h2, shiftIn_zero _ _ _,
      fun i h1 => shiftIn_of_le _ _ (by omega) h1, ?_⟩
    rw [hpass.dataOut_eq le_rfl (by omega)]
    congr 1; ring
  -- `dataOUT` is constant up to edge 2 and from there on
  · intro k hk hk2
    rcases Nat.lt_or_ge k 2 with hlt | hge
    · rw [Nat.add_assoc, hpass.dataOut_before (by omega), hpass.dataOut_before (by omega)]
    · rw [Nat.add_assoc, hpass.dataOut_eq (by omega) (by omega),
        hpass.dataOut_eq (by omega) (by omega)]

/-- A line with the declared power-up values and an empty RAM. -/
def powerUp (w : ℕ) : DelayLine w where
  shiftState := .idle
  wrData := 0
  wrAddr := 0
  rdAddr := 0
  we := false
  currentNValid := 4
  cnt := 0
  readAddrPipeline := 0
  dataOut := 0
  ram := ⟨fun _ => 0, 0⟩

/-- At power-up all words are zero. -/
theorem holds_powerUp : Holds (· = 0) (powerUp w) :=
  ⟨fun _ => rfl, fun hwe => absurd hwe Bool.false_ne_true, fun _ => rfl, rfl⟩

/-- On a tick with the shortest delay, the sample of edge 6 is in cell 0 after edge 7. -/
theorem delayLine_refines_shift_shortest :
    (run edge (powerUp 8) (fun t => ⟨true, t == 0, BitVec.ofNat 8 t, 5⟩) 8).ram.ramBlock 0
      = 6#8 := by
  have hrun : IsRun edge _ _ :=
    isRun_run (powerUp 8) fun t => ⟨true, t == 0, BitVec.ofNat 8 t, 5⟩
  have h5 : 5 ≤ 5 ∧ 5 ≤ 5 := ⟨le_rfl, le_rfl⟩
  obtain ⟨-, hpass⟩ := delayLine_refines_shift hrun (fun _ => rfl) fun _ => h5
  obtain ⟨-, -, hshift, -⟩ := hpass 0 5 (by decide) rfl
  exact (hshift 4 _ _ rfl rfl rfl).2.1

/-! ### Runs in which the delay changes -/

/-- The number of ticks accepted before edge `t`. -/
def tickNo (s : ℕ → DelayLine w) (inp : ℕ → In w) (t : ℕ) : ℕ :=
  Nat.count (fun u => Accepts (s u) (inp u)) t

/-- **Refinement over a run.** Number the accepted ticks from 0 on.  At tick `n` the content of
    the RAM is the content at tick 0 after `n` in-place shifts, the `j`-th over `c_j - 1` cells
    and with the sample pushed by tick `j`. -/
theorem content_eq_after (h : IsRun edge s inp) {t : ℕ} (hacc : Accepts (s t) (inp t))
    (hrst : ∀ u v, Accepts (s u) (inp u) → u ≤ v → (inp v).rst = true)
    (hN : ∀ u, Accepts (s u) (inp u) → 5 ≤ (inp u).currentN) :
    ∃ T : ℕ → ℕ, T (tickNo s inp t) = t ∧
      (∀ j, j ≤ tickNo s inp t → Accepts (s (T j)) (inp (T j)) ∧ tickNo s inp (T j) = j) ∧
      ∀ n, n ≤ tickNo s inp t → (s (T n)).content =
        after (s (T 0)).content (fun j => (inp (T j)).currentN - 1)
          (fun j => (inp (T j + (inp (T j)).currentN + 1)).dataIn) n := by
  obtain ⟨T, hT, hev⟩ := exists_enum (p := fun u => Accepts (s u) (inp u)) hacc
  refine ⟨T, hT, hev, after_eq_of_step fun n hn => ?_⟩
  obtain ⟨hacc_n, hno_n⟩ := hev n (le_of_lt hn)
  obtain ⟨hacc_n1, hno_n1⟩ := hev (n + 1) hn
  -- no tick is accepted between these two, so `next_tick` applies
  have hlt : T n < T (n + 1) := by
    by_contra hge
    have := Nat.count_monotone (fun u => Accepts (s u) (inp u)) (not_lt.mp hge)
    omega
  have hpass : Pass s inp (T n) (inp (T n)).currentN :=
    ⟨h, hacc_n, rfl, hN _ hacc_n, fun k _ => hrst _ _ hacc_n (by omega)⟩
  exact (hpass.next_tick hlt hacc_n1
    (fun u => not_event_between (p := fun u => Accepts (s u) (inp u)) hacc_n
      (hno_n1.trans (congrArg (· + 1) hno_n.symm)))
    (fun u hu _ => hrst _ _ hacc_n hu)).2.1

/-- The core of the run law, for a run in which no reset follows an accepted tick. -/
theorem dataOut_live (h : IsRun edge s inp) {tn tk : ℕ}
    (hrst : ∀ u v, Accepts (s u) (inp u) → u ≤ v → (inp v).rst = true)
    (hN : ∀ t, Accepts (s t) (inp t) → 5 ≤ (inp t).currentN)
    (hn : Accepts (s tn) (inp tn)) (hk : Accepts (s tk) (inp tk))
    (hkn : tickNo s inp tk + ((inp tn).currentN - 1) = tickNo s inp tn)
    (hlive : ∀ tj, Accepts (s tj) (inp tj) → tickNo s inp tk < tickNo s inp tj →
      tickNo s inp tj < tickNo s inp tn →
      tickNo s inp tj - tickNo s inp tk < (inp tj).currentN - 1) :
    (s (tn + 3)).dataOut = (inp (tk + (inp tk).currentN + 1)).dataIn := by
  have h5 := hN tn hn
  have hpass : Pass s inp tn (inp tn).currentN :=
    ⟨h, hn, rfl, h5, fun k _ => hrst _ _ hn (by omega)⟩
  obtain ⟨T, hTn, hev, hcontent⟩ := content_eq_after h hn hrst hN
  -- tick `k` is one of the ticks numbered by `T`
  have hTk : T (tickNo s inp tk) = tk := by
    obtain ⟨hacc, hno⟩ := hev (tickNo s inp tk) (by omega)
    exact Nat.count_injective hacc hk hno
  have hreach : ∀ j, tickNo s inp tk < j → j < tickNo s inp tn →
      (j : ℤ) - tickNo s inp tk < (inp (T j)).currentN - 1 := by
    intro j hkj hjn
    obtain ⟨hacc, hno⟩ := hev j (le_of_lt hjn)
    have := hlive (T j) hacc (by omega) (by omega)
    omega
  have hword := after_live (s (T 0)).content (fun j => ((inp (T j)).currentN : ℤ) - 1)
    (fun j => (inp (T j + (inp (T j)).currentN + 1)).dataIn) (by omega) hreach
  rw [← hcontent _ le_rfl, hTn, hTk] at hword
  rw [hpass.dataOut_eq le_rfl (by omega), ← hword]
  congr 1; omega

/-- **Whole-run law of a delay that changes.**  After a reset in any state of the FSM, number
    the ticks accepted.  If tick `n` has the delay `c_n` and tick `k` came `c_n - 1` ticks
    before it, then after the pull of tick `n` the output is the sample that tick `k` pushed:
    (first part) whenever every tick `j` between the two had a delay with `c_j - 1 > j - k`;
    (second part) in particular when they all had the delay `c_n`. -/
theorem variable_delay_law {NsMax r : ℕ} (h : IsRun edge s inp)
    (hlow : ∀ t, t < r → (inp t).rst = false) (hhigh : ∀ t, r ≤ t → (inp t).rst = true)
    (hN : ∀ t, Accepts (s t) (inp t) → 5 ≤ (inp t).currentN ∧ (inp t).currentN ≤ NsMax)
    {tn tk : ℕ} (hn : Accepts (s tn) (inp tn)) (hk : Accepts (s tk) (inp tk))
    (hkn : tickNo s inp tk + ((inp tn).currentN - 1) = tickNo s inp tn) :
    ((∀ tj, Accepts (s tj) (inp tj) → tickNo s inp tk < tickNo s inp tj →
        tickNo s inp tj < tickNo s inp tn →
        tickNo s inp tj - tickNo s inp tk < (inp tj).currentN - 1) →
      (s (tn + 3)).dataOut = (inp (tk + (inp tk).currentN + 1)).dataIn) ∧
    ((∀ tj, Accepts (s tj) (inp tj) → tickNo s inp tk < tickNo s inp tj →
        tickNo s inp tj < tickNo s inp tn → (inp tj).currentN = (inp tn).currentN) →
      (s (tn + 3)).dataOut = (inp (tk + (inp tk).currentN + 1)).dataIn) := by
  -- no tick is accepted during the reset, so none is followed by it
  have hrst : ∀ u v, Accepts (s u) (inp u) → u ≤ v → (inp v).rst = true := by
    intro u v hu huv
    rcases Nat.lt_or_ge u r with hur | hur
    · exact absurd hu.1 (by rw [hlow u hur]; decide)
    · exact hhigh v (by omega)
  refine ⟨dataOut_live h hrst (fun t ht => (hN t ht).1) hn hk hkn, fun hconst => ?_⟩
  refine dataOut_live h hrst (fun t ht => (hN t ht).1) hn hk hkn fun tj hj hkj hjn => ?_
  rw [hconst tj hj hkj hjn]
  omega

/-- A reset at edge 0, then a tick every eleven edges; the delays are 6, 7, 8, 6, 7, 8, …, and the
    sample of edge `t` is `t`. -/
def resetThenTicks (t : ℕ) : In 8 :=
  ⟨t != 0, t % 11 == 2, BitVec.ofNat 8 t, 6 + t / 11 % 3⟩

/-- The state in which a reset hits a pending push. -/
def pendingPush : DelayLine 8 := { powerUp 8 with shiftState := .push }

/-- The reset hits a pending push; the sample of edge 21, pushed by the tick at edge 13 with the
    delay 7, is the output after the pull of the tick at edge 68, five ticks later, with the
    delay 6. -/
theorem variable_delay_law_changing :
    (run edge pendingPush resetThenTicks 71).dataOut = 21#8 := by
  have hn : Accepts (run edge pendingPush resetThenTicks 68) (resetThenTicks 68) := by
    decide +kernel
  have hk : Accepts (run edge pendingPush resetThenTicks 13) (resetThenTicks 13) := by decide
  have hlow : ∀ t, t < 1 → (resetThenTicks t).rst = false := by decide
  have hhigh : ∀ t, 1 ≤ t → (resetThenTicks t).rst = true := by
    intro t ht
    have hne : t ≠ 0 := by omega
    simp [resetThenTicks, hne]
  have hcur : ∀ t, 6 ≤ (resetThenTicks t).currentN ∧ (resetThenTicks t).currentN ≤ 8 := by
    intro t
    show 6 ≤ 6 + t / 11 % 3 ∧ 6 + t / 11 % 3 ≤ 8
    omega
  have hkn : tickNo (run edge pendingPush resetThenTicks) resetThenTicks 13 + (6 - 1) =
      tickNo (run edge pendingPush resetThenTicks) resetThenTicks 68 := by decide +kernel
  refine (variable_delay_law (isRun_run _ _) hlow hhigh
    (fun t _ => ⟨(by decide : 5 ≤ 6).trans (hcur t).1, (hcur t).2⟩) hn hk hkn).1
    fun tj _ hkj hjn => ?_
  -- every tick in between has a delay of 6 or more, and comes less than five ticks after edge 13
  have hlow := (hcur tj).1
  omega

/-! ### Ticks that leave time for a pass -/

/-- The ports of a delay line that starts idle, under the ticks `T 0 < T 1 < …`.  The delay at
    tick `n` is `c n`, and its pass is over when the next tick comes. -/
structure VarTicked (s : ℕ → DelayLine w) (inp : ℕ → In w) (T c : ℕ → ℕ) : Prop where
  run : IsRun edge s inp
  idle : (s 0).shiftState = .idle
  rst : ∀ t, (inp t).rst = true
  five_le : ∀ n, 5 ≤ c n
  pulses : Pulses (fun t => (inp t).dataSampledValid) T 1
  room : ∀ n, T n + c n + 2 ≤ T (n + 1)
  currentN : ∀ n, (inp (T n)).currentN = c n

namespace VarTicked

variable {T c : ℕ → ℕ}

/-- Before the first tick the line keeps its content and its output. -/
theorem before (h : VarTicked s inp T c) {t : ℕ} (ht : t ≤ T 0) :
    (s t).shiftState = .idle ∧ (s t).content = (s 0).content ∧
      (s t).dataOut = (s 0).dataOut :=
  rest h.run (Nat.zero_le t) h.idle (fun u _ _ => h.rst u)
    fun _ _ hu => not_accepts (h.pulses.quiet_before (lt_of_lt_of_le hu ht))

/-- A tick that finds the line idle starts a pass. -/
theorem pass (h : VarTicked s inp T c) {n : ℕ} (hidle : (s (T n)).shiftState = .idle) :
    Pass s inp (T n) (c n) :=
  ⟨h.run, ⟨h.rst _, hidle, h.pulses.tick_at n⟩, h.currentN n, h.five_le n, fun _ _ => h.rst _⟩

/-- After the pass of a tick the line rests until the next one. -/
theorem rest_pass (h : VarTicked s inp T c) {n t : ℕ} (hpass : Pass s inp (T n) (c n))
    (h1 : T n + c n + 2 ≤ t) (h2 : t ≤ T (n + 1)) :
    (s t).shiftState = .idle ∧ (s t).content = (s (T n + c n + 2)).content ∧
      (s t).dataOut = (s (T n + c n + 2)).dataOut :=
  rest h.run h1 hpass.idle_end (fun u _ _ => h.rst u)
    fun _ h3 h4 => not_accepts (h.pulses.quiet (n := n) (by omega) (by omega))

/-- Every tick is accepted. -/
theorem idle_at (h : VarTicked s inp T c) (n : ℕ) : (s (T n)).shiftState = .idle := by
  induction n with
  | zero => exact (h.before le_rfl).1
  | succ n ih => exact (h.rest_pass (h.pass ih) (h.room n) le_rfl).1

theorem passes (h : VarTicked s inp T c) (n : ℕ) : Pass s inp (T n) (c n) := h.pass (h.idle_at n)

/-- **From tick to tick**, the content makes one shift with the sample of the push. -/
theorem content_succ (h : VarTicked s inp T c) (n : ℕ) :
    (s (T (n + 1))).content =
      shiftIn (c n - 1) (inp (T n + c n + 1)).dataIn (s (T n)).content := by
  rw [(h.rest_pass (h.passes n) (h.room n) le_rfl).2.1, (h.passes n).content_end]

/-- **`dataOUT` between two ticks**: from edge 2 of tick `n` to edge 2 of the next tick it is
    the word that the last cell held at tick `n`. -/
theorem dataOut_eq (h : VarTicked s inp T c) {n t : ℕ} (h1 : T n + 3 ≤ t)
    (h2 : t ≤ T (n + 1) + 2) : (s t).dataOut = (s (T n)).content (c n - 2) := by
  have hroom := h.room n
  have h5 := h.five_le n
  have hin : ∀ u, T n + 3 ≤ u → u ≤ T n + c n + 2 →
      (s u).dataOut = (s (T n)).content (c n - 2) := by
    intro u hu1 hu2
    have := (h.passes n).dataOut_eq (k := u - T n) (by omega) (by omega)
    rwa [show T n + (u - T n) = u by omega] at this
  -- the next tick leaves `dataOUT` alone for two edges more
  have hrest : ∀ u, T n + c n + 2 ≤ u → u ≤ T (n + 1) →
      (s u).dataOut = (s (T n)).content (c n - 2) := by
    intro u hu1 hu2
    rw [(h.rest_pass (h.passes n) hu1 hu2).2.2, hin _ (by omega) le_rfl]
  rcases Nat.lt_or_ge (T (n + 1)) t with hlt | hge
  · have := (h.passes (n + 1)).dataOut_before (k := t - T (n + 1)) (by omega)
    rw [show T (n + 1) + (t - T (n + 1)) = t by omega] at this
    rw [this, hrest _ hroom le_rfl]
  · rcases Nat.lt_or_ge t (T n + c n + 2) with hlt | hge'
    · exact hin t h1 (by omega)
    · exact hrest t hge' hge

/-- Up to edge 2 of the first tick `dataOUT` keeps its first value. -/
theorem dataOut_before (h : VarTicked s inp T c) {t : ℕ} (ht : t ≤ T 0 + 2) :
    (s t).dataOut = (s 0).dataOut := by
  rcases Nat.lt_or_ge (T 0) t with hlt | hge
  · have := (h.passes 0).dataOut_before (k := t - T 0) (by omega)
    rw [show T 0 + (t - T 0) = t by omega] at this
    rw [this, (h.before le_rfl).2.2]
  · exact (h.before hge).2.2

/-- The content at tick `n`, from the content at the start and the samples pushed. -/
theorem content_eq (h : VarTicked s inp T c) (n : ℕ) :
    (s (T n)).content = after (s 0).content (fun j => (c j : ℤ) - 1)
      (fun j => (inp (T j + c j + 1)).dataIn) n := by
  rw [← (h.before le_rfl).2.1]
  exact after_eq_of_step (m := fun k => (s (T k)).content) (fun k _ => h.content_succ k) n le_rfl

/-- **The delay.** If no pass in between was too short for it, the sample that tick `k` pushed is
    the output after edge 2 of the tick that looks for it, `c n - 1` ticks later. -/
theorem dataOut_delayed (h : VarTicked s inp T c) {k n t : ℕ} (hkn : k + (c n - 1) = n)
    (hlive : ∀ j, k < j → j < n → j - k < c j - 1) (h1 : T n + 3 ≤ t) (h2 : t ≤ T (n + 1) + 2) :
    (s t).dataOut = (inp (T k + c k + 1)).dataIn := by
  have h5 := h.five_le n
  have hreach : ∀ j, k < j → j < n → (j : ℤ) - k < (c j : ℤ) - 1 := by
    intro j hkj hjn
    have := hlive j hkj hjn
    omega
  have hword := after_live (s 0).content (fun j => (c j : ℤ) - 1)
    (fun j => (inp (T j + c j + 1)).dataIn) (by omega) hreach
  rw [h.dataOut_eq h1 h2, h.content_eq, ← hword]
  congr 1; omega

end VarTicked

/-! ### A constant delay under regular ticks -/

/-- The ports of a delay line whose delay is `c` at the ticks `T 0 < T 1 < …`, which are far
    enough apart for a pass, and which starts idle. -/
structure Ticked (s : ℕ → DelayLine w) (inp : ℕ → In w) (T : ℕ → ℕ) (c : ℕ) : Prop where
  run : IsRun edge s inp
  idle : (s 0).shiftState = .idle
  rst : ∀ t, (inp t).rst = true
  five_le : 5 ≤ c
  pulses : Pulses (fun t => (inp t).dataSampledValid) T (c + 2)
  currentN : ∀ n, (inp (T n)).currentN = c

namespace Ticked

variable {T : ℕ → ℕ} {c : ℕ}

/-- A constant delay is a changing one that does not change. -/
theorem varTicked (h : Ticked s inp T c) : VarTicked s inp T fun _ => c where
  run := h.run
  idle := h.idle
  rst := h.rst
  five_le := fun _ => h.five_le
  pulses := h.pulses.mono_gap (by omega)
  room := h.pulses.spaced
  currentN := h.currentN

/-- Up to the first tick nothing moves. -/
theorem before (h : Ticked s inp T c) {t : ℕ} (ht : t ≤ T 0) :
    (s t).shiftState = .idle ∧ (s t).content = (s 0).content ∧
      (s t).dataOut = (s 0).dataOut := h.varTicked.before ht

/-- A tick shifts the line and pushes the word at the port `c + 1` edges later. -/
theorem content_succ (h : Ticked s inp T c) (n : ℕ) :
    (s (T (n + 1))).content =
      shiftIn (c - 1) (inp (T n + c + 1)).dataIn (s (T n)).content := h.varTicked.content_succ n

/-- The output holds the top word of a tick until the pull of the next one. -/
theorem dataOut_eq (h : Ticked s inp T c) {n t : ℕ} (h1 : T n + 3 ≤ t) (h2 : t ≤ T (n + 1) + 2) :
    (s t).dataOut = (s (T n)).content (c - 2) := h.varTicked.dataOut_eq h1 h2

/-- Until the pull of the first tick the output stays. -/
theorem dataOut_before (h : Ticked s inp T c) {t : ℕ} (ht : t ≤ T 0 + 2) :
    (s t).dataOut = (s 0).dataOut := h.varTicked.dataOut_before ht

/-- The first `c - 1` words put out are those that the cells held at the start. -/
theorem dataOut_initial (h : Ticked s inp T c) {n t : ℕ} (hn : n < c - 1) (h1 : T n + 3 ≤ t)
    (h2 : t ≤ T (n + 1) + 2) : (s t).dataOut = (s 0).content (c - 2 - n) := by
  have hcells := after_initial (s 0).content (c - 1) (fun j => (inp (T j + c + 1)).dataIn)
    (n := n) (i := c - 2) (by omega) (by omega)
  rw [h.dataOut_eq h1 h2, h.varTicked.content_eq, ← hcells]
  rw [show ((c - 1 : ℕ) : ℤ) = c - 1 by omega]

/-- After edge 2 of tick `n + (c - 1)`, and up to edge 2 of the next tick, the output is the
    sample that tick `n` pushed. -/
theorem dataOut_delayed (h : Ticked s inp T c) {n t : ℕ} (h1 : T (n + (c - 1)) + 3 ≤ t)
    (h2 : t ≤ T (n + (c - 1) + 1) + 2) : (s t).dataOut = (inp (T n + c + 1)).dataIn :=
  h.varTicked.dataOut_delayed rfl (fun j hj hjn => by omega) h1 h2

end Ticked

end DelayLine

end Reverb
