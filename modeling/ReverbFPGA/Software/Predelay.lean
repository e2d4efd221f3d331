import ReverbFPGA.Hardware.DelayLineInv
import ReverbFPGA.Software.App

namespace Reverb

/-!
# From the predelay key to the addresses of the delay lines

The predelay register reaches 999, while the lines of the near echoes have 239 cells and are
told to delay by `p * 12 / 50 + 5`: more than their `Ns_max` of 240 from `p = 984` on
(`Line.inRange_iff`).  `delay_lines_in_range_iff` is the statement about whole runs of the main
loop, with exact arithmetic, together with any run of the hardware on the values that the
register goes through.
-/

open Clocked DelayLine

/-! ### The delay lines -/

/-- The lines of a channel are told to delay by no more than they can with a predelay of 5 to
    983. -/
theorem Line.inRange_iff (p : ℕ) :
    (∀ l : Line, 5 ≤ l.currentN p ∧ l.currentN p ≤ l.nsMax) ↔ 5 ≤ p ∧ p ≤ 983 := by
  constructor
  · intro h
    have hmain := (h (.mainEcho 0)).1
    have hnear := (h (.nearEcho 0)).2
    simp only [currentN, nsMax, nearEchoCurrentN, nearEchoNsMax, nbrDelayLinesInitEcho,
      ratioInitEchoEarlyEchoes] at hmain hnear
    omega
  · rintro ⟨h5, h983⟩ l
    cases l with
    | mainEcho j =>
      simp only [currentN, nsMax, mainEchoNsMax]
      omega
    | nearEcho j =>
      simp only [currentN, nsMax, nearEchoCurrentN, nearEchoNsMax, nbrDelayLinesInitEcho,
        ratioInitEchoEarlyEchoes]
      omega
    | lfcf1 j | lfcf2 j =>
      show 5 ≤ nLFCF j / 2 ∧ nLFCF j / 2 ≤ nLFCF j / 2
      revert j; decide
    | apf j =>
      show 5 ≤ nAPF j ∧ nAPF j ≤ nAPF j
      revert j; decide

/-- Every line has the five cells that its FSM needs. -/
theorem Line.five_le_nsMax (l : Line) : 5 ≤ l.nsMax := by
  have h := (Line.inRange_iff 5).mpr ⟨le_rfl, by norm_num⟩ l
  omega

/-- The addresses of all lines of a channel are in range as long as the predelay register has
    been within 5 and 983, whatever the reset, the ticks and the data do. -/
theorem Channel.line_inRange {s : ℕ → Channel} {inp : ℕ → Channel.In}
    (hrun : IsRun Channel.edge s inp) (h0 : ∀ l, ((s 0).line l).InRange l.nsMax) {t : ℕ}
    (hp : ∀ u, u < t → 5 ≤ (inp u).preDelayValue.toNat ∧ (inp u).preDelayValue.toNat ≤ 983)
    (l : Line) : ((s t).line l).InRange l.nsMax := by
  refine hrun.invariant_before (P := fun s => (s.line l).InRange l.nsMax)
    (Q := fun i => 5 ≤ i.preDelayValue.toNat ∧ i.preDelayValue.toNat ≤ 983) (h0 l) hp ?_
  intro s i hi hs
  rw [Channel.line_edge]
  apply hs.edge l.five_le_nsMax
  intro _
  rw [Channel.lineIn_currentN]
  exact (Line.inRange_iff _).mpr hi l

namespace App

/-! ### The predelay in one iteration -/

/-- The value of the predelay that an iteration with the direction `u` sets, in exact
    arithmetic. -/
theorem updatedValue_predelay (u : UpdateType) (v : ℚ) :
    updatedValue id .predelay u v =
      max (6 / 1024) (min (v + u.value * (3 / 1000000)) (1000 / 1024)) := rfl

/-- The clamp holds, from whatever value. -/
theorem updatedValue_predelay_mem (u : UpdateType) (v : ℚ) :
    6 / 1024 ≤ updatedValue id .predelay u v ∧
      updatedValue id .predelay u v ≤ 1000 / 1024 := by
  rw [updatedValue_predelay]
  exact ⟨le_max_left _ _, max_le (by norm_num) (min_le_right _ _)⟩

/-- The word for the predelay `v`. -/
theorem paramWord_predelay (v : ℚ) : paramWord id .predelay v = ⌊v * 1023⌋₊ := by
  unfold paramWord ParamType.dataWidth
  norm_num

/-- The register holds the word, which is at least 5 and at most 999. -/
theorem paramWord_predelay_mem {v : ℚ} (hlo : 6 / 1024 ≤ v) (hhi : v ≤ 1000 / 1024) :
    5 ≤ paramWord id .predelay v ∧ paramWord id .predelay v ≤ 999 := by
  rw [paramWord_predelay]
  constructor
  · exact Nat.le_floor (by push_cast; linarith)
  · exact Nat.lt_succ_iff.mp ((Nat.floor_lt (by linarith)).mpr (by push_cast; linarith))

/-- The value up to which the near echoes keep to their memories. -/
theorem paramWord_predelay_le_iff {v : ℚ} (hv : 0 ≤ v) :
    paramWord id .predelay v ≤ 983 ↔ v < 984 / 1023 := by
  rw [paramWord_predelay, ← Nat.lt_succ_iff, Nat.floor_lt (by linarith)]
  push_cast
  constructor <;> intro h <;> linarith

/-- What an iteration that selects the predelay does to its value and its register. -/
theorem iteration_predelay {s : App} {r : Readings} (hr : r.paramType = .predelay) :
    (s.iteration id r).currentParamValue .predelay =
        updatedValue id .predelay r.updateType (s.currentParamValue .predelay) ∧
      (s.iteration id r).params.preDelayValue.toNat =
        paramWord id .predelay ((s.iteration id r).currentParamValue .predelay) := by
  have hvalue : (s.iteration id r).currentParamValue .predelay =
      updatedValue id .predelay r.updateType (s.currentParamValue .predelay) := by
    unfold iteration
    rw [hr, updateParamValue_currentParamValue id (by decide), Function.update_self,
      initParamValue_currentParamValue]
  refine ⟨hvalue, ?_⟩
  obtain ⟨hlo, hhi⟩ := updatedValue_predelay_mem r.updateType (s.currentParamValue .predelay)
  have hword := (paramWord_predelay_mem hlo hhi).2
  rw [← hvalue] at hword
  have hwrite : (s.iteration id r).params.read .predelay =
      paramWord id .predelay ((s.iteration id r).currentParamValue .predelay) % 2 ^ 10 := by
    unfold iteration
    rw [hr, updateParamValue_params id (by decide), Params.read_write]
    rfl
  show (s.iteration id r).params.read .predelay = _
  rw [hwrite, Nat.mod_eq_of_lt (by omega)]

/-- An iteration that selects another parameter, or none, leaves the predelay alone. -/
theorem iteration_other {s : App} {r : Readings} (hr : r.paramType ≠ .predelay) :
    (s.iteration id r).currentParamValue .predelay = s.currentParamValue .predelay ∧
      (s.iteration id r).params.preDelayValue = s.params.preDelayValue := by
  unfold iteration
  cases hp : r.paramType with
  | predelay => exact absurd hp hr
  | noneParam =>
    obtain ⟨hparams, hvalues⟩ :=
      updateParamValue_noneParam id r.updateType (s.initParamValue id)
    exact ⟨hvalues .predelay (by decide), by rw [hparams]; rfl⟩
  | mix | decay | damping =>
    rw [updateParamValue_currentParamValue id (by decide),
      updateParamValue_params id (by decide), Function.update_of_ne (by decide)]
    exact ⟨rfl, rfl⟩

/-! ### Whole runs -/

/-- An increment of the predelay that would take it to `984 / 1023` or beyond. -/
def TooFar (s : App) (r : Readings) : Prop :=
  r.paramType = .predelay ∧ r.updateType = .incr ∧
    984 / 1023 ≤ s.currentParamValue .predelay + 3 / 1000000

/-- The predelay is at least its minimum and below `984 / 1023`, and its register is in the
    range of the delay lines. -/
def Near (s : App) : Prop :=
  (6 / 1024 ≤ s.currentParamValue .predelay ∧ s.currentParamValue .predelay < 984 / 1023) ∧
    5 ≤ s.params.preDelayValue.toNat ∧ s.params.preDelayValue.toNat ≤ 983

/-- **One iteration** keeps the predelay near unless it takes it too far. -/
theorem Near.iteration {s : App} {r : Readings} (h : Near s) (hr : ¬TooFar s r) :
    Near (s.iteration id r) := by
  obtain ⟨⟨hlo, hhi⟩, hreg⟩ := h
  by_cases hp : r.paramType = .predelay
  -- only an increment can take the value past the bound
  · obtain ⟨hvalue, hword⟩ := iteration_predelay (s := s) hp
    have hmem := updatedValue_predelay_mem r.updateType (s.currentParamValue .predelay)
    have hlt : updatedValue id .predelay r.updateType (s.currentParamValue .predelay)
        < 984 / 1023 := by
      rw [updatedValue_predelay]
      refine max_lt (by norm_num) (lt_of_le_of_lt (min_le_left _ _) ?_)
      cases hu : r.updateType with
      | incr =>
        by_contra hge
        refine hr ⟨hp, hu, ?_⟩
        simp only [UpdateType.value, Int.cast_one, one_mul, not_lt] at hge
        exact hge
      | decr | none =>
        simp only [UpdateType.value]
        push_cast
        linarith
    rw [← hvalue] at hmem hlt
    refine ⟨⟨hmem.1, hlt⟩, ?_⟩
    rw [hword]
    exact ⟨(paramWord_predelay_mem hmem.1 hmem.2).1,
      (paramWord_predelay_le_iff (by linarith)).mpr hlt⟩
  · obtain ⟨hvalue, hparams⟩ := iteration_other (s := s) hp
    unfold Near
    rw [hvalue, hparams]
    exact ⟨⟨hlo, hhi⟩, hreg⟩

/-- An iteration that takes the predelay too far leaves 984 or more in its register. -/
theorem TooFar.iteration {s : App} {r : Readings} (h : TooFar s r) :
    983 < (s.iteration id r).params.preDelayValue.toNat := by
  obtain ⟨hp, hu, hv⟩ := h
  obtain ⟨hvalue, hword⟩ := iteration_predelay (s := s) hp
  have hmem := updatedValue_predelay_mem r.updateType (s.currentParamValue .predelay)
  rw [hword, hvalue]
  by_contra hle
  have hlt := (paramWord_predelay_le_iff (by linarith)).mp (not_lt.mp hle)
  rw [updatedValue_predelay, hu] at hlt
  have hmin := lt_of_le_of_lt (le_max_right _ _) hlt
  simp only [UpdateType.value, Int.cast_one, one_mul] at hmin
  rcases min_lt_iff.mp hmin with h1 | h2
  · linarith
  -- the maximum of the parameter is itself too far
  · norm_num at h2

/-- **When no user action drives a delay line outside its RAM.**  Over `N` iterations of the
    main loop, from any content of the registers at the program's start: every line receives a
    delay for which it is built in every state, and keeps its addresses in range at every edge
    of every run of a channel on the values that the predelay register goes through, exactly if
    the register starts within 5 and 983 and no iteration takes the predelay too far. -/
theorem delay_lines_in_range_iff (params : Params) (hex : Fin 6 → BitVec 6)
    (readings : ℕ → Readings) (N : ℕ) :
    let app := run (iteration id) (start id params hex) readings
    ((∀ n, n ≤ N → ∀ l : Line, 5 ≤ l.currentN (app n).params.preDelayValue.toNat ∧
        l.currentN (app n).params.preDelayValue.toNat ≤ l.nsMax) ∧
      ∀ (s : ℕ → Channel) (inp : ℕ → Channel.In), IsRun Channel.edge s inp →
        (∀ l, ((s 0).line l).InRange l.nsMax) →
        (∀ t, ∃ n, n ≤ N ∧ (inp t).preDelayValue = (app n).params.preDelayValue) →
        ∀ t l, ((s t).line l).InRange l.nsMax) ↔
    (5 ≤ params.preDelayValue.toNat ∧ params.preDelayValue.toNat ≤ 983) ∧
      ∀ n, n < N → ¬TooFar (app n) (readings n) := by
  intro app
  constructor
  · rintro ⟨hlines, -⟩
    refine ⟨(Line.inRange_iff _).mp (hlines 0 (Nat.zero_le N)), fun n hn hfar => ?_⟩
    have hreg := (Line.inRange_iff _).mp (hlines (n + 1) hn)
    exact absurd hreg.2 (not_le.mpr hfar.iteration)
  -- `Near` is the invariant of the main loop
  · rintro ⟨hstart, hnear⟩
    have happ : ∀ n, n ≤ N → Near (app n) := by
      intro n hn
      induction n with
      | zero =>
        have hmin : (app 0).currentParamValue .predelay = 6 / 1024 := rfl
        refine ⟨?_, hstart⟩
        rw [hmin]
        norm_num
      | succ n ih => exact (ih (by omega)).iteration (hnear n hn)
    refine ⟨fun n hn => (Line.inRange_iff _).mpr (happ n hn).2,
      fun s inp hrun h0 hsched t l => Channel.line_inRange hrun h0 (fun u _ => ?_) l⟩
    obtain ⟨n, hn, heq⟩ := hsched u
    rw [heq]
    exact (happ n hn).2

/-- The predelay key held down. -/
def holdIncrement : Readings := ⟨0b0100, 0b10⟩

/-- The predelay after `n` iterations with the key held down. -/
theorem predelay_held (n : ℕ) :
    (run (iteration id) (start id resetParams resetHex) (fun _ => holdIncrement)
      n).currentParamValue .predelay = min (6 / 1024 + n * (3 / 1000000) : ℚ) (1000 / 1024) := by
  induction n with
  | zero =>
    show (6 / 1024 : ℚ) = _
    norm_num
  | succ n ih =>
    have hup : updatedValue id .predelay .incr
        (min (6 / 1024 + n * (3 / 1000000) : ℚ) (1000 / 1024)) =
          min (6 / 1024 + ((n + 1 : ℕ) : ℚ) * (3 / 1000000)) (1000 / 1024) := by
      have hn : (0 : ℚ) ≤ n * (3 / 1000000) := by positivity
      rw [updatedValue_predelay]
      simp only [UpdateType.value]
      push_cast
      rw [max_eq_right]
      · rcases le_total (6 / 1024 + n * (3 / 1000000) : ℚ) (1000 / 1024) with h | h
        · rw [min_eq_left h]
          congr 1
          ring
        · rw [min_eq_right h, min_eq_right (by norm_num), min_eq_right (by linarith)]
      · refine le_min ?_ (by norm_num)
        rcases min_choice (6 / 1024 + n * (3 / 1000000) : ℚ) (1000 / 1024) with h | h <;>
          rw [h] <;> linarith
    rw [run_succ, (iteration_predelay (r := holdIncrement) (by decide)).1, ih]
    exact hup

/-- After 318673 iterations with the key held down, the near echoes are told to delay by 241,
    with an `Ns_max` of 240. -/
theorem near_echo_out_of_range :
    ¬ ∀ n, n ≤ 318673 → ∀ l : Line,
      5 ≤ l.currentN (run (iteration id) (start id resetParams resetHex)
        (fun _ => holdIncrement) n).params.preDelayValue.toNat ∧
      l.currentN (run (iteration id) (start id resetParams resetHex)
        (fun _ => holdIncrement) n).params.preDelayValue.toNat ≤ l.nsMax := by
  intro h
  have hreg := (Line.inRange_iff _).mp (h (318672 + 1) (by norm_num))
  have hfar : TooFar (run (iteration id) (start id resetParams resetHex)
      (fun _ => holdIncrement) 318672) holdIncrement := by
    refine ⟨by decide, by decide, ?_⟩
    rw [predelay_held]
    norm_num
  exact absurd hreg.2 (not_le.mpr hfar.iteration)

end App

end Reverb
