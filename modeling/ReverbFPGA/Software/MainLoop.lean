import ReverbFPGA.Lib.Keyed
import ReverbFPGA.Software.App

namespace Reverb

/-!
# Runs of the main loop

With exact arithmetic, over any readings of the two input ports:

* `updates_isolated` — the values of the parameters are clamped, and each depends on the
  readings that select it only.  An iteration is an event of a family of components
  (`Keyed.step`), one for each parameter and one for none;
* `registers_coherent_iff` — the registers hold the words of the values after every iteration,
  exactly if the predelay register does after the first.  `initParamValue` refreshes the other
  three, whatever they held.
-/

open Clocked

namespace App

/-! ### The values -/

/-- **One iteration** changes the value of the parameter that is selected, also with none. -/
theorem iteration_currentParamValue (fl : ℚ → ℚ) (s : App) (r : Readings) :
    (s.iteration fl r).currentParamValue =
      Keyed.step Readings.paramType (fun p v r => updatedValue fl p r.updateType v)
        s.currentParamValue r := by
  unfold iteration Keyed.step
  cases hp : r.paramType with
  | noneParam =>
    -- the value of the dummy entry is clamped to 0, and then set to 0
    have hnone : ∀ v, updatedValue fl .noneParam r.updateType v = fl 0 := fun v =>
      max_eq_left (min_le_right _ _)
    simp [updateParamValue, hnone]
  | mix | predelay | decay | damping =>
    rw [updateParamValue_currentParamValue fl (by decide), initParamValue_currentParamValue]

/-- The values after some iterations: each direction that was read moves the value of its own
    parameter. -/
theorem foldl_currentParamValue (fl : ℚ → ℚ) (s : App) (rs : List Readings) :
    (rs.foldl (iteration fl) s).currentParamValue =
      rs.foldl (Keyed.step Readings.paramType fun p v r => updatedValue fl p r.updateType v)
        s.currentParamValue := by
  induction rs generalizing s with
  | nil => rfl
  | cons r rs ih => rw [List.foldl_cons, List.foldl_cons, ih, iteration_currentParamValue]

/-- The value of every parameter is in its range. -/
def Clamped (s : App) : Prop :=
  ∀ p, paramValueMIN id p ≤ s.currentParamValue p ∧ s.currentParamValue p ≤ paramValueMAX id p

/-- In exact arithmetic every lower bound is below its upper bound. -/
theorem paramValueMIN_le_MAX (p : ParamType) : paramValueMIN id p ≤ paramValueMAX id p := by
  cases p <;> norm_num [paramValueMIN, paramValueMAX]

/-- The program starts at the lower bounds. -/
theorem start_currentParamValue (fl : ℚ → ℚ) (params : Params) (hex : Fin 6 → BitVec 6)
    (p : ParamType) : (start fl params hex).currentParamValue p = paramValueMIN fl p := by
  cases p <;> rfl

/-- So every value starts within its bounds. -/
theorem start_clamped (params : Params) (hex : Fin 6 → BitVec 6) :
    Clamped (start id params hex) := by
  intro p
  rw [start_currentParamValue]
  exact ⟨le_rfl, paramValueMIN_le_MAX p⟩

/-- An update ends within the bounds, from wherever it started. -/
theorem updatedValue_mem (p : ParamType) (u : UpdateType) (v : ℚ) :
    paramValueMIN id p ≤ updatedValue id p u v ∧ updatedValue id p u v ≤ paramValueMAX id p :=
  ⟨le_max_left _ _, max_le (paramValueMIN_le_MAX p) (min_le_right _ _)⟩

/-- **Run of the loop.** The values stay within their bounds. -/
theorem Clamped.foldl {s : App} (h : Clamped s) (rs : List Readings) :
    Clamped (rs.foldl (iteration id) s) := by
  -- the range of a value only depends on its own parameter
  let InRange : ParamType → ℚ → Prop := fun p v => paramValueMIN id p ≤ v ∧ v ≤ paramValueMAX id p
  have hstep : ∀ (p : ParamType) (v : ℚ) (r : Readings), InRange p v →
      InRange p (updatedValue id p r.updateType v) :=
    fun p v r _ => updatedValue_mem p r.updateType v
  unfold Clamped
  rw [foldl_currentParamValue]
  exact Keyed.foldl_step_invariant (P := InRange) h hstep rs

/-- The directions, -1, 0 and 1, of the readings that select a parameter. -/
def directions (p : ParamType) (rs : List Readings) : List ℤ :=
  (rs.filter fun r => r.paramType = p).map fun r => r.updateType.value

/-- The value of a parameter after the readings is a fold over those that select it. -/
theorem foldl_start_apply (fl : ℚ → ℚ) (params : Params) (hex : Fin 6 → BitVec 6)
    (rs : List Readings) (p : ParamType) :
    (rs.foldl (iteration fl) (start fl params hex)).currentParamValue p =
      (rs.filter fun r => r.paramType = p).foldl (fun v r => updatedValue fl p r.updateType v)
        (paramValueMIN fl p) := by
  rw [foldl_currentParamValue, Keyed.foldl_step_apply, start_currentParamValue]

/-- In exact arithmetic it is a fold over its own directions. -/
theorem foldl_currentParamValue_apply (params : Params) (hex : Fin 6 → BitVec 6)
    (rs : List Readings) (p : ParamType) :
    (rs.foldl (iteration id) (start id params hex)).currentParamValue p =
      (directions p rs).foldl (fun v (dir : ℤ) =>
        clamp (v + dir * paramValueIncr id p) (paramValueMIN id p) (paramValueMAX id p))
        (paramValueMIN id p) := by
  rw [foldl_start_apply, directions, List.foldl_map]
  rfl

/-- **Updates are clamped, isolated and independent of their order.**  After any readings, every
    value is in its range and the one of no parameter is 0; the value of a parameter is the
    fold of the clamped steps over the directions of the readings that select it, from its
    minimum; and readings with the same directions for each parameter, interleaved as they may
    be, end in the same values. -/
theorem updates_isolated (params : Params) (hex : Fin 6 → BitVec 6) (rs : List Readings) :
    let app := rs.foldl (iteration id) (start id params hex)
    (∀ p, paramValueMIN id p ≤ app.currentParamValue p ∧
      app.currentParamValue p ≤ paramValueMAX id p) ∧
    app.currentParamValue .noneParam = 0 ∧
    (∀ p, app.currentParamValue p = (directions p rs).foldl (fun v (dir : ℤ) =>
      clamp (v + dir * paramValueIncr id p) (paramValueMIN id p) (paramValueMAX id p))
      (paramValueMIN id p)) ∧
    ∀ rs' : List Readings, (∀ p, p ≠ .noneParam → directions p rs' = directions p rs) →
      (rs'.foldl (iteration id) (start id params hex)).currentParamValue =
        app.currentParamValue := by
  intro app
  have hclamped : ∀ rs' : List Readings, Clamped (rs'.foldl (iteration id) (start id params hex)) :=
    (start_clamped params hex).foldl
  -- both bounds of no parameter are 0
  have hnone : ∀ rs' : List Readings,
      (rs'.foldl (iteration id) (start id params hex)).currentParamValue .noneParam = 0 := by
    intro rs'
    exact le_antisymm (hclamped rs' .noneParam).2 (hclamped rs' .noneParam).1
  refine ⟨hclamped rs, hnone rs, foldl_currentParamValue_apply params hex rs, fun rs' hdirs => ?_⟩
  ext p
  rcases eq_or_ne p .noneParam with rfl | hp
  · rw [hnone rs', hnone rs]
  · rw [foldl_currentParamValue_apply, foldl_currentParamValue_apply, hdirs p hp]

/-! ### The registers -/

/-- The register of every parameter holds the word of its value. -/
def Coherent (s : App) : Prop :=
  ∀ p, p ≠ .noneParam → s.params.read p = paramWord id p (s.currentParamValue p)

theorem paramValueMIN_nonneg_exact (p : ParamType) : 0 ≤ paramValueMIN id p := by
  cases p <;> norm_num [paramValueMIN]

theorem paramValueMAX_le_one_exact (p : ParamType) : paramValueMAX id p ≤ 1 := by
  cases p <;> norm_num [paramValueMAX]

/-- In exact arithmetic every word fits its register. -/
theorem paramWord_lt {p : ParamType} {v : ℚ} (hmin : paramValueMIN id p ≤ v)
    (hmax : v ≤ paramValueMAX id p) : paramWord id p v < 2 ^ p.dataWidth := by
  have h0 : 0 ≤ v := le_trans (paramValueMIN_nonneg_exact p) hmin
  have h1 : v ≤ 1 := le_trans hmax (paramValueMAX_le_one_exact p)
  have hfull : (0 : ℚ) ≤ 2 ^ p.dataWidth - 1 := by
    linarith [one_le_pow₀ (show (1 : ℚ) ≤ 2 by norm_num) (n := p.dataWidth)]
  show ⌊v * (2 ^ p.dataWidth - 1)⌋₊ < 2 ^ p.dataWidth
  rw [Nat.floor_lt (mul_nonneg h0 hfull)]
  push_cast
  linarith [mul_le_of_le_one_left hfull h1]

/-- **Step of the loop.** One iteration keeps the values within their bounds. -/
theorem Clamped.iteration {s : App} (h : Clamped s) (r : Readings) : Clamped (s.iteration id r) :=
  h.foldl [r]

/-- **One iteration** leaves the low bits of the word of the value in every register, but for the
    predelay register if the predelay is not selected: that one is left alone. -/
theorem iteration_read_low (fl : ℚ → ℚ) (s : App) (r : Readings) {p : ParamType}
    (hp : p ≠ .noneParam) :
    (s.iteration fl r).params.read p =
      if p = .predelay ∧ r.paramType ≠ .predelay then s.params.read p
      else paramWord fl p ((s.iteration fl r).currentParamValue p) % 2 ^ p.dataWidth := by
  by_cases hr : r.paramType = p
  · subst hr
    rw [if_neg (fun hno => hno.2 hno.1)]
    unfold iteration
    rw [updateParamValue_params fl hp, Params.read_write]
  · -- the register is the one that `initParamValue` has left
    have hread : (s.iteration fl r).params.read p = (s.initParamValue fl).params.read p := by
      unfold iteration
      by_cases hnone : r.paramType = .noneParam
      · rw [hnone, (updateParamValue_noneParam fl _ _).1]
      · rw [updateParamValue_params fl hnone, Params.read_write_of_ne _ hr]
    have hvalue : (s.iteration fl r).currentParamValue p = s.currentParamValue p := by
      rw [iteration_currentParamValue, Keyed.step_of_ne hr]
    rw [hvalue, hread, initParamValue_read fl s hp]
    by_cases hpre : p = .predelay
    · rw [if_pos hpre, if_pos ⟨hpre, fun h' => hr (h'.trans hpre.symm)⟩]
    · rw [if_neg hpre, if_neg fun h' => hpre h'.1]

/-- In exact arithmetic that is the word. -/
theorem iteration_read {s : App} (h : Clamped s) (r : Readings) {p : ParamType}
    (hp : p ≠ .noneParam) :
    (s.iteration id r).params.read p =
      if p = .predelay ∧ r.paramType ≠ .predelay then s.params.read p
      else paramWord id p ((s.iteration id r).currentParamValue p) := by
  rw [iteration_read_low id s r hp,
    Nat.mod_eq_of_lt (paramWord_lt (h.iteration r p).1 (h.iteration r p).2)]

/-- After an iteration the registers are coherent exactly if the predelay register is. -/
theorem iteration_coherent_iff {s : App} (h : Clamped s) (r : Readings) :
    Coherent (s.iteration id r) ↔ r.paramType = .predelay ∨
      s.params.read .predelay = paramWord id .predelay (s.currentParamValue .predelay) := by
  by_cases hr : r.paramType = .predelay
  · refine iff_of_true (fun p hp => ?_) (Or.inl hr)
    rw [iteration_read h r hp, if_neg fun h' => h'.2 hr]
  · have hvalue : (s.iteration id r).currentParamValue .predelay =
        s.currentParamValue .predelay := by
      rw [iteration_currentParamValue, Keyed.step_of_ne hr]
    constructor
    · intro hcoh
      have hpre := hcoh .predelay (by decide)
      rw [iteration_read h r (by decide), if_pos ⟨rfl, hr⟩, hvalue] at hpre
      exact Or.inr hpre
    · rintro (hsel | hpre) p hp
      · exact absurd hsel hr
      · rw [iteration_read h r hp]
        split_ifs with hcase
        · rw [hcase.1, hvalue, hpre]
        · rfl

/-- The word of the predelay at the start is the reset value of its register. -/
theorem paramWord_predelay_start : paramWord id .predelay (paramValueMIN id .predelay) = 5 := by
  show ⌊(6 / 1024 : ℚ) * (2 ^ 10 - 1)⌋₊ = 5
  rw [Nat.floor_eq_iff (by norm_num)]
  norm_num

/-- **When the registers and the values stay coherent.**  Over a run of `N + 1` iterations from
    any content of the registers, all four registers hold the words of the values after each
    iteration, exactly if the predelay register holds 5 at the program's start, or the first
    iteration selects the predelay. -/
theorem registers_coherent_iff (params : Params) (hex : Fin 6 → BitVec 6)
    (readings : ℕ → Readings) (N : ℕ) :
    let app := run (iteration id) (start id params hex) readings
    (∀ n, n ≤ N → Coherent (app (n + 1))) ↔
      params.preDelayValue.toNat = 5 ∨ (readings 0).paramType = .predelay := by
  intro app
  have hclamped : ∀ n, Clamped (app n) := by
    intro n
    induction n with
    | zero => exact start_clamped params hex
    | succ n ih => exact ih.iteration (readings n)
  have hfirst : Coherent (app 1) ↔
      params.preDelayValue.toNat = 5 ∨ (readings 0).paramType = .predelay := by
    have hiff := iteration_coherent_iff (hclamped 0) (readings 0)
    rw [show (app 0).currentParamValue .predelay = paramValueMIN id .predelay from rfl,
      paramWord_predelay_start] at hiff
    exact hiff.trans or_comm
  constructor
  · exact fun hall => hfirst.mp (hall 0 (Nat.zero_le N))
  · intro hstart n _
    induction n with
    | zero => exact hfirst.mpr hstart
    | succ n ih =>
      exact (iteration_coherent_iff (hclamped (n + 1)) (readings (n + 1))).mpr
        (Or.inr (ih (by omega) .predelay (by decide)))

/-- A predelay of 999, left over in its register, stays there while no parameter is selected;
    the value of the predelay is 6/1024 again, whose word is 5. -/
theorem stale_predelay_register :
    ¬ Coherent (run (iteration id) (start id { resetParams with preDelayValue := 999 } resetHex)
      (fun _ => ⟨0, 0⟩) 1) := by
  intro hcoh
  have hfirst := (iteration_coherent_iff (start_clamped _ _) _).mp hcoh
  rw [start_currentParamValue, paramWord_predelay_start] at hfirst
  exact absurd hfirst (by decide)

end App

end Reverb
