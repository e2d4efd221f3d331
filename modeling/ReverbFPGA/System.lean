import ReverbFPGA.Software.Bus
import ReverbFPGA.Software.Display
import ReverbFPGA.Software.Predelay

namespace Reverb

/-!
# The processor and the delay lines together

The registers of a predelay of 246 ms or more drive the lines of the near echoes outside their RAM.
`lines_in_range_while_shown` is what the user can see of it: with a predelay register that is
in order when the program starts, every line keeps its addresses in range as long as no more than
245 ms have been on the displays, whatever is rounded and however the clock edges fall between the
single writes of the processor.  The displays are behind by the six writes that follow the one of
the register.
-/

open Clocked Rounding Batched DelayLine

namespace App

variable {fl : ℚ → ℚ} {params : Params} {hex : Fin 6 → BitVec 6} {readings : ℕ → Readings} {t : ℕ}

/-! ### The predelay register -/

/-- With 245 ms on the displays the word is in the range of the delay lines. -/
theorem word_of_shown (h : Rounds 24 fl) {v : ℚ} (h0 : 6 / 1024 ≤ v) (h1 : v ≤ 1000 / 1024) {d : ℕ}
    (hd : ⌊256 * v⌋₊ ≤ d) (hle : d ≤ 245) :
    5 ≤ paramWord fl .predelay v ∧ paramWord fl .predelay v ≤ 983 := by
  have hlt : 256 * v < 246 := by
    have hfloor : ⌊256 * v⌋₊ < 246 := by omega
    exact_mod_cast (Nat.floor_lt (by linarith)).mp hfloor
  constructor
  · have hfive : 5 ≤ ⌊1023 * v⌋₊ := Nat.le_floor (by push_cast; linarith)
    exact le_trans hfive (paramWord_predelay_between h (by linarith) h1).1
  -- 1023 * v stays below 983.5, and no rounding takes it further
  · rw [paramWord_predelay_eq h]
    have hround := h.le_natCast_div (n := 1967) (by norm_num) 1 (x := 1023 * v) (by linarith)
      (by norm_num; linarith)
    refine Nat.lt_succ_iff.mp ((Nat.floor_lt (h.nonneg (by linarith))).mpr ?_)
    norm_num at hround ⊢
    linarith

/-- **Run of iterations.** The values stay within the rounded bounds. -/
theorem bounded_foldl (h : Rounds 24 fl) (rs : List Readings) {s : App} (hs : Bounded fl s) :
    Bounded fl (rs.foldl (iteration fl) s) := by
  induction rs generalizing s with
  | nil => exact hs
  | cons r rs ih => exact ih (hs.iteration h r)

/-- What is committed is on the displays six writes later. -/
theorem shown_of_committed (h7 : (bus fl params hex readings t).pending.length = 7) :
    (bus fl params hex readings (t + 7)).pending = [] ∧
      (bus fl params hex readings (t + 7)).outer.hex = (loop fl params hex readings (t + 1)).hex := by
  obtain ⟨hnil, htaken⟩ := Program.settles h7
  have hdone : committed fl params hex readings (t + 7) =
      committed fl params hex readings (t + 1) := by
    rw [committed_succ t, if_pos h7, ← htaken]
    exact if_neg (by rw [hnil]; simp)
  refine ⟨hnil, ?_⟩
  rw [bus_idle hnil, loop, hdone]

/-- Whenever, up to step `K`, an iteration is through and the predelay is on the displays, it is `d`
    or less. -/
def ShownUpTo (d K : ℕ) (fl : ℚ → ℚ) (params : Params) (hex : Fin 6 → BitVec 6)
    (readings : ℕ → Readings) : Prop :=
  ∀ k, 0 < k → k ≤ K → (bus fl params hex readings k).pending = [] →
    shownParam (bus fl params hex readings k).outer.hex = some .predelay →
    ∀ d', shownNumber (bus fl params hex readings k).outer.hex = some d' → d' ≤ d

/-- As long as the displays have shown 245 ms at most, six writes later, the predelay register is
    in the range of the lines. -/
theorem loop_predelay (h : Rounds 24 fl)
    (hreg : 5 ≤ params.preDelayValue.toNat ∧ params.preDelayValue.toNat ≤ 983) {K : ℕ}
    (hshown : ShownUpTo 245 (K + 6) fl params hex readings) {t : ℕ} (ht : t ≤ K) :
    5 ≤ (loop fl params hex readings t).params.preDelayValue.toNat ∧
      (loop fl params hex readings t).params.preDelayValue.toNat ≤ 983 := by
  induction t with
  | zero => exact hreg
  | succ t ih =>
    have ih := ih (by omega)
    by_cases h7 : (bus fl params hex readings t).pending.length = 7
    -- a commit: the reading `r` on top of those that are committed
    · obtain ⟨hnil, hhex⟩ := shown_of_committed h7
      obtain ⟨r, hdone⟩ := committed_seven h7
      have hloop : loop fl params hex readings (t + 1) =
          (loop fl params hex readings t).iteration fl r := by
        rw [loop, hdone, List.foldl_concat]
      have hs : Bounded fl (loop fl params hex readings t) :=
        bounded_foldl h _ (bounded_start h params hex)
      rw [hloop] at hhex ⊢
      by_cases hr : r.paramType = .predelay
      · obtain ⟨hparam, -, hnumber⟩ := iteration_shown h hs hr (by decide)
        obtain ⟨hv, hword⟩ := iteration_predelay_word h hs hr
        have hbounds := hs.iteration h r .predelay
        have hlo := (valueToDisplay_between h .predelay hbounds.1 hbounds.2).1
        rw [← hhex] at hparam hnumber
        rw [hword]
        exact word_of_shown h hv.1 hv.2 hlo (hshown (t + 7) (by omega) (by omega) hnil hparam _ hnumber)
      · have hread := iteration_read_low fl (loop fl params hex readings t) r (p := .predelay)
          (by decide)
        rw [if_pos ⟨rfl, hr⟩] at hread
        rw [show ((loop fl params hex readings t).iteration fl r).params.preDelayValue.toNat =
          (loop fl params hex readings t).params.preDelayValue.toNat from hread]
        exact ih
    · rw [loop, committed_succ, if_neg h7]
      exact ih

/-! ### The delay lines -/

/-- **No line leaves its RAM while the displays show 245 ms at most.**  The program starts with a
    predelay register within 5 and 983; the loop makes its writes one at a time, with any readings
    and any rounding, and a channel reads the predelay register at each of its clock edges, at edge
    `u` as it is after `clk u` steps of the processor.  The lines are in range at edge `t` if the
    displays have shown 245 ms at most up to then and for the six steps that follow. -/
theorem lines_in_range_while_shown (h : Rounds 24 fl)
    (hreg : 5 ≤ params.preDelayValue.toNat ∧ params.preDelayValue.toNat ≤ 983)
    {s : ℕ → Channel} {inp : ℕ → Channel.In} (hrun : IsRun Channel.edge s inp)
    (h0 : ∀ l, ((s 0).line l).InRange l.nsMax) {clk : ℕ → ℕ} (hclk : Monotone clk)
    (hbus : ∀ u, (inp u).preDelayValue =
      (bus fl params hex readings (clk u)).outer.params.preDelayValue) {t : ℕ}
    (hshown : ShownUpTo 245 (clk t + 6) fl params hex readings) (l : Line) :
    ((s t).line l).InRange l.nsMax := by
  refine Channel.line_inRange hrun h0 (fun u hu => ?_) l
  rw [hbus u, bus_predelay]
  exact loop_predelay h hreg hshown (hclk hu.le)

/-- With the key held down, the loop is through with some number of iterations. -/
theorem loop_held (t : ℕ) : ∃ n, n ≤ t ∧ loop id resetParams resetHex (fun _ => holdIncrement) t =
    run (iteration id) (start id resetParams resetHex) (fun _ => holdIncrement) n := by
  induction t with
  | zero => exact ⟨0, le_rfl, rfl⟩
  | succ t ih =>
    obtain ⟨n, hn, hloop⟩ := ih
    by_cases h7 : (bus id resetParams resetHex (fun _ => holdIncrement) t).pending.length = 7
    · obtain ⟨r, hdone⟩ := committed_seven h7
      have hmem : r ∈ committed id resetParams resetHex (fun _ => holdIncrement) (t + 1) := by
        rw [hdone]
        exact List.mem_concat_self
      obtain ⟨_, rfl⟩ := exists_of_mem_committed hmem
      refine ⟨n + 1, by omega, ?_⟩
      rw [loop, hdone, List.foldl_concat, run_succ, ← hloop]
    · refine ⟨n, by omega, ?_⟩
      rw [← hloop, loop, committed_succ, if_neg h7]

/-- For the first 300000 steps no more than 232 ms are reached. -/
theorem shownUpTo_held :
    ShownUpTo 245 300000 id resetParams resetHex (fun _ => holdIncrement) := by
  intro k _ hk hnil hparam d hd
  obtain ⟨n, hn, hloop⟩ := loop_held k
  have hhex := congrArg Ports.hex (bus_idle hnil)
  rw [hloop] at hhex
  rw [hhex] at hparam hd
  cases n with
  -- the dashes of the reset
  | zero => exact absurd hparam (by decide)
  | succ n =>
    have hs := bounded_run (rounds_id 24) resetParams resetHex (fun _ => holdIncrement) n
    have hnumber := (iteration_shown (rounds_id 24) hs (r := holdIncrement) (p := .predelay)
      (by decide) (by decide)).2.2
    have hbounds := hs.iteration (rounds_id 24) holdIncrement .predelay
    have hhi := (valueToDisplay_between (rounds_id 24) .predelay hbounds.1 hbounds.2).2.1
    have hstep : run (iteration id) (start id resetParams resetHex) (fun _ => holdIncrement) (n + 1) =
        iteration id (run (iteration id) (start id resetParams resetHex) (fun _ => holdIncrement) n)
          holdIncrement := rfl
    rw [← hstep] at hnumber hhi
    have heq := Option.some.inj (hnumber.symm.trans hd)
    have hcast : ((n + 1 : ℕ) : ℚ) ≤ 300000 := by exact_mod_cast hn.trans hk
    have hceil : ⌈((displayScale .predelay : ℕ) : ℚ) *
        (run (iteration id) (start id resetParams resetHex) (fun _ => holdIncrement)
          (n + 1)).currentParamValue .predelay⌉₊ ≤ 232 := by
      rw [predelay_held, Nat.ceil_le]
      have hscale : ((displayScale .predelay : ℕ) : ℚ) = 256 := by norm_num [displayScale]
      have hmin : min (6 / 1024 + ((n + 1 : ℕ) : ℚ) * (3 / 1000000)) (1000 / 1024) ≤ _ :=
        min_le_left _ _
      rw [hscale]
      push_cast at hmin hcast ⊢
      linarith
    omega

/-- At power-up every line is within its own memory. -/
theorem powerUp_inRange (l : Line) : (Channel.powerUp.line l).InRange l.nsMax := by
  have h5 := l.five_le_nsMax
  have h : ∀ w, (DelayLine.powerUp w).InRange l.nsMax := fun w =>
    ⟨by simp [DelayLine.powerUp]; omega, by simp [DelayLine.powerUp]; omega,
      by simp [DelayLine.powerUp]; omega, fun hpull => by simp [DelayLine.powerUp] at hpull⟩
  cases l <;> exact h _

/-- With the key held down for three million clock edges, ten to a step of the processor, the
    first near echo keeps its addresses. -/
theorem lines_in_range_while_shown_held :
    let inp : ℕ → Channel.In := fun u =>
      { Channel.steady 1041 (BitVec.ofNat 24) ⟨0x800000, 5, 0x1000000, 0x800000⟩ u with
        preDelayValue := (bus id resetParams resetHex (fun _ => holdIncrement)
          (u / 10)).outer.params.preDelayValue }
    ((run Channel.edge Channel.powerUp inp 2999900).line (.nearEcho 0)).InRange
      (Line.nearEcho 0).nsMax := by
  intro inp
  -- ten clock edges to a step of the processor
  have hclk : Monotone fun u : ℕ => u / 10 := fun a b hab => Nat.div_le_div_right hab
  exact lines_in_range_while_shown (rounds_id 24) (by decide) (isRun_run _ inp) powerUp_inRange
    hclk (fun _ => rfl) (fun k hpos hk => shownUpTo_held k hpos (hk.trans (by decide))) (.nearEcho 0)

end App

end Reverb
