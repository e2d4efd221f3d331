import Mathlib.Algebra.Order.Group.MinMax
import ReverbFPGA.Software.MainLoop
import ReverbFPGA.Software.Words

namespace Reverb

/-!
# Runs of the main loop in single precision

What the rounding of `float` does to the values of the parameters, over whole runs:

* `single_tracks_exact` — a value is off by a unit of rounding for each update of the parameter at
  most, and by none for the iterations in between, however many there are: the value that is
  stored is not rounded again (`stored_updatedValue`), and the clamping spreads no error;
* `held_key_reaches_end` — a key that is held moves the value with every iteration, and reaches
  the end of the range exactly: a step is 3e-6, which at the values near 1 is about 50 units.
-/

open Clocked Rounding

namespace App

variable {fl : ℚ → ℚ} {p : ParamType} {u : UpdateType} {v v' : ℚ}

/-! ### The range, with any rounding -/

/-- The bounds of a parameter keep their order under every rounding that the model allows. -/
theorem paramValueMIN_le (h : Rounds 24 fl) (p : ParamType) :
    paramValueMIN fl p ≤ paramValueMAX fl p := by
  cases p <;> exact h.mono (by norm_num) (by norm_num)

/-- A key leaves the value between the bounds, whatever the value was. -/
theorem updatedValue_range (h : Rounds 24 fl) (p : ParamType) (u : UpdateType) (v : ℚ) :
    paramValueMIN fl p ≤ updatedValue fl p u v ∧ updatedValue fl p u v ≤ paramValueMAX fl p :=
  ⟨le_max_left _ _, max_le (paramValueMIN_le h p) (min_le_right _ _)⟩

/-- The value of every parameter is in its range. -/
def Bounded (fl : ℚ → ℚ) (s : App) : Prop :=
  ∀ p, paramValueMIN fl p ≤ s.currentParamValue p ∧ s.currentParamValue p ≤ paramValueMAX fl p

/-- The program starts at the lower bounds. -/
theorem bounded_start (h : Rounds 24 fl) (params : Params) (hex : Fin 6 → BitVec 6) :
    Bounded fl (start fl params hex) := by
  intro p
  rw [start_currentParamValue]
  exact ⟨le_rfl, paramValueMIN_le h p⟩

/-- One turn of the loop keeps every value between its bounds. -/
theorem Bounded.iteration {s : App} (hs : Bounded fl s) (h : Rounds 24 fl) (r : Readings) :
    Bounded fl (s.iteration fl r) := by
  intro p
  rw [iteration_currentParamValue]
  by_cases hp : r.paramType = p
  · rw [Keyed.step_of_eq hp]
    exact updatedValue_range h _ _ _
  · rw [Keyed.step_of_ne hp]
    exact hs p

/-! ### What is stored -/

theorem rounds_single : Rounds 24 single := rounds_roundBits (by norm_num)

/-- Below two, rounding costs half a unit of the twenty-fourth bit at most. -/
theorem single_near {x : ℚ} (hx : |x| < 2) : |single x - x| ≤ 1 / 2 ^ 24 := by
  have hulp : ulp 24 x ≤ 2 ^ (0 + 1 - (24 : ℕ) : ℤ) := ulp_le le_rfl (by simpa using hx)
  have herr := abs_roundBits_sub_le 24 x
  norm_num at hulp
  exact le_trans herr (by linarith)

/-- A value that the variable of a parameter can hold: a `float` in the range. -/
def Stored (p : ParamType) (v : ℚ) : Prop :=
  single v = v ∧ paramValueMIN single p ≤ v ∧ v ≤ paramValueMAX single p

/-- A rounded value is stored as it is. -/
theorem single_single {x : ℚ} (hx : 0 < x) : single (single x) = single x :=
  roundBits_roundBits (by norm_num) hx

theorem single_MIN (p : ParamType) : single (paramValueMIN single p) = paramValueMIN single p := by
  cases p with
  | noneParam => simp [paramValueMIN, single]
  | mix | predelay | decay | damping => exact single_single (by norm_num)

theorem single_MAX (p : ParamType) : single (paramValueMAX single p) = paramValueMAX single p := by
  cases p with
  | noneParam => simp [paramValueMAX, single]
  | mix | predelay | decay | damping => exact single_single (by norm_num)

/-- The value at the start is one that the loop can store. -/
theorem stored_MIN (p : ParamType) : Stored p (paramValueMIN single p) :=
  ⟨single_MIN p, le_rfl, paramValueMIN_le rounds_single p⟩

/-- Every parameter has a positive lower bound. -/
theorem paramValueMIN_pos (hp : p ≠ .noneParam) : 0 < paramValueMIN single p := by
  cases p with
  | noneParam => exact absurd rfl hp
  | mix | predelay | decay | damping => exact roundBits_pos (by norm_num) (by norm_num)

theorem Stored.nonneg (h : Stored p v) : 0 ≤ v := le_trans (paramValueMIN_nonneg p) h.2.1

theorem Stored.le_one (h : Stored p v) : v ≤ 1 := le_trans h.2.2 (paramValueMAX_le_one p)

/-- The result of an update is a `float` in the range again. -/
theorem stored_updatedValue (hp : p ≠ .noneParam) (u : UpdateType) (v : ℚ) :
    Stored p (updatedValue single p u v) := by
  refine ⟨?_, updatedValue_range rounds_single p u v⟩
  unfold updatedValue clamp
  rcases max_choice (paramValueMIN single p) (min (single (v + single (single u.value *
    paramValueIncr single p))) (paramValueMAX single p)) with h | h
  · rw [h, single_MIN]
  rw [h]
  rcases min_choice (single (v + single (single u.value * paramValueIncr single p)))
    (paramValueMAX single p) with h' | h'
  -- the rounded sum is positive, so that the sum is
  · rw [h'] at h ⊢
    refine single_single (lt_of_not_ge fun hle => ?_)
    have hmin : paramValueMIN single p ≤ _ := max_eq_right_iff.mp h
    exact absurd (roundBits_nonpos hle) (not_le.mpr (lt_of_lt_of_le (paramValueMIN_pos hp) hmin))
  · rw [h', single_MAX]

/-! ### One update -/

/-- The error of one update. -/
def unitOfRounding : ℚ := 1 / 16000000

/-- The three values of `UpdateType` are exact. -/
theorem single_value (u : UpdateType) : single u.value = u.value := by
  cases u with
  | decr =>
    have := roundBits_neg_of_eq_self single_one
    exact_mod_cast this
  | incr => exact_mod_cast single_one
  | none => simp [UpdateType.value, single]

/-- The step is exact in either direction, once the increment is rounded. -/
theorem single_step (hp : p ≠ .noneParam) (u : UpdateType) :
    single (single u.value * paramValueIncr single p) = u.value * single (3 / 1000000) := by
  have hincr : paramValueIncr single p = single (3 / 1000000) := by
    cases p with
    | noneParam => exact absurd rfl hp
    | mix | predelay | decay | damping => rfl
  have hself : single (single (3 / 1000000)) = single (3 / 1000000) := single_single (by norm_num)
  rw [single_value, hincr]
  cases u with
  | decr =>
    have hneg : single (-single (3 / 1000000)) = -single (3 / 1000000) :=
      roundBits_neg_of_eq_self hself
    simpa [UpdateType.value] using hneg
  | incr => simpa [UpdateType.value] using hself
  | none => simp [UpdateType.value, single]

/-- The step of a key, 3/1000000, is a little off in the single format. -/
theorem increment_near : |single (3 / 1000000) - 3 / 1000000| ≤ 1 / 2 ^ 43 := by
  have hulp : ulp 24 (3 / 1000000) = 2 ^ (-19 + 1 - (24 : ℕ) : ℤ) :=
    ulp_eq (by norm_num) (by norm_num)
  have herr := abs_roundBits_sub_le 24 (3 / 1000000)
  rw [hulp] at herr
  norm_num at herr
  exact le_trans herr (by norm_num)

/-- The rounded sum of an update; without a direction it is the value itself. -/
theorem updated_sum_near (hp : p ≠ .noneParam) (h : Stored p v) (u : UpdateType) :
    |single (v + single (single u.value * paramValueIncr single p)) -
      (v + u.value * (3 / 1000000))| ≤ if u = .none then 0 else unitOfRounding := by
  rw [single_step hp]
  have h0 := h.nonneg
  have h1 := h.le_one
  have hincr := abs_le.mp increment_near
  split_ifs with hu
  · subst hu
    simp [UpdateType.value, h.1]
  · have hvalue : (u.value : ℚ) = 1 ∨ (u.value : ℚ) = -1 := by
      cases u with
      | none => exact absurd rfl hu
      | incr | decr => simp [UpdateType.value]
    have hsum : |v + u.value * single (3 / 1000000)| < 2 := by
      rw [abs_lt]
      rcases hvalue with hval | hval <;> rw [hval] <;> constructor <;> linarith
    have hround := abs_le.mp (single_near hsum)
    rw [unitOfRounding, abs_le]
    rcases hvalue with hval | hval <;> rw [hval] at hround ⊢ <;> constructor <;> linarith

/-! ### The exact values -/

/-- The stored lower bound is close to the exact one. -/
theorem paramValueMIN_near (p : ParamType) :
    |paramValueMIN single p - paramValueMIN id p| ≤ 1 / 2 ^ 24 := by
  cases p <;> exact single_near (by norm_num)

theorem paramValueMAX_near (p : ParamType) :
    |paramValueMAX single p - paramValueMAX id p| ≤ 1 / 2 ^ 24 := by
  cases p <;> exact single_near (by norm_num)

/-- Clamping spreads no error. -/
theorem abs_clamp_sub_clamp_le {x x' a a' b b' e : ℚ} (hx : |x - x'| ≤ e) (ha : |a - a'| ≤ e)
    (hb : |b - b'| ≤ e) : |clamp x a b - clamp x' a' b'| ≤ e :=
  le_trans (abs_max_sub_max_le_max _ _ _ _)
    (max_le ha (le_trans (abs_min_sub_min_le_max _ _ _ _) (max_le hx hb)))

/-- **One update** adds a unit of rounding to the error, and none without a direction. -/
theorem updated_near (hp : p ≠ .noneParam) (h : Stored p v) {e : ℚ} (he : 1 / 2 ^ 24 ≤ e)
    (hv : |v - v'| ≤ e) (u : UpdateType) :
    |updatedValue single p u v - updatedValue id p u v'| ≤
      e + if u = .none then 0 else unitOfRounding := by
  have hexact : updatedValue id p u v' =
      clamp (v' + u.value * (3 / 1000000)) (paramValueMIN id p) (paramValueMAX id p) := by
    cases p with
    | noneParam => exact absurd rfl hp
    | mix | predelay | decay | damping => rfl
  have hunit : e ≤ e + if u = .none then 0 else unitOfRounding := by
    split_ifs <;> norm_num [unitOfRounding]
  rw [hexact]
  -- the clamp keeps the error of the sum and those of its two bounds
  refine abs_clamp_sub_clamp_le ?_ (le_trans (paramValueMIN_near p) (le_trans he hunit))
    (le_trans (paramValueMAX_near p) (le_trans he hunit))
  calc |single (v + single (single u.value * paramValueIncr single p)) -
        (v' + u.value * (3 / 1000000))|
      = |single (v + single (single u.value * paramValueIncr single p)) -
          (v + u.value * (3 / 1000000)) + (v - v')| := by ring_nf
    _ ≤ _ := abs_add_le _ _
    _ ≤ (if u = .none then 0 else unitOfRounding) + e :=
        add_le_add (updated_sum_near hp h u) hv
    _ = _ := add_comm _ _

/-- The readings that select the parameter and move its value. -/
def updates (p : ParamType) (rs : List Readings) : ℕ :=
  (rs.filter fun r => r.paramType = p).countP fun r => r.updateType ≠ .none

/-- **Run of steps.** Each key that is held adds one unit of rounding to the distance, and the
    directions in between add nothing. -/
theorem foldl_updated_near (hp : p ≠ .noneParam) (h : Stored p v) {e : ℚ} (he : 1 / 2 ^ 24 ≤ e)
    (hv : |v - v'| ≤ e) (rs : List Readings) :
    |rs.foldl (fun v r => updatedValue single p r.updateType v) v -
        rs.foldl (fun v r => updatedValue id p r.updateType v) v'| ≤
      e + rs.countP (fun r => r.updateType ≠ .none) * unitOfRounding := by
  induction rs generalizing v v' e with
  | nil => simpa using hv
  | cons r rs ih =>
    have hnext := updated_near hp h he hv r.updateType
    have hunit : e ≤ e + if r.updateType = .none then 0 else unitOfRounding := by
      split_ifs <;> norm_num [unitOfRounding]
    -- the updated value is a stored one, so that the same holds for the rest
    have hrest := ih (stored_updatedValue hp r.updateType v) (le_trans he hunit) hnext
    rw [List.foldl_cons, List.foldl_cons]
    refine le_trans hrest (le_of_eq ?_)
    rw [List.countP_cons]
    by_cases hu : r.updateType = .none
    · simp [hu]
    · simp [hu]
      ring

/-- **Single precision tracks the exact values.**  Over any readings, each value differs from what
    exact arithmetic would make of the same readings by the error of the range and a unit of
    rounding for every reading that moves it. -/
theorem single_tracks_exact (params params' : Params) (hex hex' : Fin 6 → BitVec 6)
    (rs : List Readings) (p : ParamType) :
    |(rs.foldl (iteration single) (start single params hex)).currentParamValue p -
        (rs.foldl (iteration id) (start id params' hex')).currentParamValue p| ≤
      1 / 2 ^ 24 + updates p rs * unitOfRounding := by
  rw [foldl_start_apply, foldl_start_apply, updates]
  rcases eq_or_ne p .noneParam with rfl | hp
  -- the dummy entry is 0 throughout
  · have hzero : ∀ {fl : ℚ → ℚ}, Rounds 24 fl → ∀ rs : List Readings,
        rs.foldl (fun v r => updatedValue fl .noneParam r.updateType v)
          (paramValueMIN fl .noneParam) = 0 := by
      intro fl hfl rs
      have hstep : ∀ r : Readings, updatedValue fl .noneParam r.updateType
          (paramValueMIN fl .noneParam) = paramValueMIN fl .noneParam :=
        fun _ => max_eq_left (min_le_right _ _)
      rw [List.foldl_fixed' hstep]
      exact hfl.zero
    rw [hzero rounds_single, hzero (rounds_id 24), sub_zero, abs_zero]
    norm_num [unitOfRounding]
    positivity
  · exact foldl_updated_near hp (stored_MIN p) le_rfl (paramValueMIN_near p) _

/-! ### A key that is held -/

/-- One iteration with the key. -/
theorem iteration_held {s : App} {r : Readings} (hr : r.paramType = p) :
    (s.iteration single r).currentParamValue p =
      updatedValue single p r.updateType (s.currentParamValue p) := by
  rw [iteration_currentParamValue, Keyed.step_of_eq hr]

/-- A step up is at least this long, unless it ends at the maximum. -/
theorem updatedValue_incr_ge (hp : p ≠ .noneParam) (h : Stored p v) :
    min (v + (3 / 1000000 - unitOfRounding)) (paramValueMAX single p) ≤
      updatedValue single p .incr v := by
  have hsum := (abs_le.mp (updated_sum_near hp h .incr)).1
  rw [if_neg (by decide), UpdateType.value, Int.cast_one, one_mul] at hsum
  refine le_trans (min_le_min_right _ ?_) (le_max_right _ _)
  rw [UpdateType.value]
  push_cast
  linarith

/-- A press downwards lowers the value by almost the exact step, or reaches the lower bound. -/
theorem updatedValue_decr_le (hp : p ≠ .noneParam) (h : Stored p v) :
    updatedValue single p .decr v ≤
      max (v - (3 / 1000000 - unitOfRounding)) (paramValueMIN single p) := by
  have hsum := (abs_le.mp (updated_sum_near hp h .decr)).2
  rw [if_neg (by decide)] at hsum
  unfold updatedValue clamp
  rw [max_comm (v - _)]
  refine max_le_max_left _ (le_trans (min_le_left _ _) ?_)
  rw [UpdateType.value] at hsum ⊢
  push_cast at hsum ⊢
  linarith

section
variable (params : Params) (hex : Fin 6 → BitVec 6) {readings : ℕ → Readings} {m : ℕ}

/-- Along every run the value stays a stored one. -/
theorem run_stored (hp : p ≠ .noneParam) (readings : ℕ → Readings) (n : ℕ) :
    Stored p ((run (iteration single) (start single params hex) readings n).currentParamValue
      p) := by
  induction n with
  | zero =>
    show Stored p ((start single params hex).currentParamValue p)
    rw [start_currentParamValue]
    exact stored_MIN p
  | succ n ih =>
    rw [run_succ, iteration_currentParamValue]
    by_cases hr : (readings n).paramType = p
    · rw [Keyed.step_of_eq hr]
      exact stored_updatedValue hp _ _
    · rw [Keyed.step_of_ne hr]
      exact ih

/-- Within `k` iterations a key that is held moves the value by `k` steps or to the end. -/
theorem held_ge (hp : p ≠ .noneParam)
    (hheld : ∀ n, m ≤ n → (readings n).paramType = p ∧ (readings n).updateType = .incr) (k : ℕ) :
    min (k * (3 / 1000000 - unitOfRounding)) (paramValueMAX single p) ≤
      (run (iteration single) (start single params hex) readings (m + k)).currentParamValue p := by
  induction k with
  | zero =>
    refine le_trans (min_le_left _ _) ?_
    simpa using (run_stored params hex hp readings m).nonneg
  | succ k ih =>
    obtain ⟨hr, hu⟩ := hheld (m + k) (by omega)
    rw [← Nat.add_assoc, run_succ, iteration_held hr, hu]
    refine le_trans ?_ (updatedValue_incr_ge hp (run_stored params hex hp readings _))
    push_cast
    -- still on the way, or at the maximum already
    rcases min_le_iff.mp ih with hk | hk
    · refine min_le_min_right _ ?_
      linarith
    · refine le_min (le_trans (min_le_right _ _) (le_trans hk ?_)) (min_le_right _ _)
      norm_num [unitOfRounding]

/-- The mirror image, with the key held downwards. -/
theorem held_le (hp : p ≠ .noneParam)
    (hheld : ∀ n, m ≤ n → (readings n).paramType = p ∧ (readings n).updateType = .decr) (k : ℕ) :
    (run (iteration single) (start single params hex) readings (m + k)).currentParamValue p ≤
      max (1 - k * (3 / 1000000 - unitOfRounding)) (paramValueMIN single p) := by
  induction k with
  | zero =>
    refine le_trans ?_ (le_max_left _ _)
    simpa using (run_stored params hex hp readings m).le_one
  | succ k ih =>
    obtain ⟨hr, hu⟩ := hheld (m + k) (by omega)
    rw [← Nat.add_assoc, run_succ, iteration_held hr, hu]
    refine le_trans (updatedValue_decr_le hp (run_stored params hex hp readings _)) ?_
    push_cast
    -- still on the way, or at the minimum already
    rcases le_max_iff.mp ih with hk | hk
    · refine max_le_max_right _ ?_
      linarith
    · refine max_le (le_trans ?_ (le_trans hk (le_max_right _ _))) (le_max_right _ _)
      norm_num [unitOfRounding]

/-- **A key that is held reaches the end.**  In single precision, after any readings, the
    increment key held from iteration `m` on moves the value of the selected parameter up with
    every iteration until it is exactly the maximum, within 340426 iterations, and keeps it
    there; the decrement key moves it down to exactly the minimum in the same time. -/
theorem held_key_reaches_end (hp : p ≠ .noneParam) (hu : u ≠ .none)
    (hheld : ∀ n, m ≤ n → (readings n).paramType = p ∧ (readings n).updateType = u) :
    let value := fun n =>
      (run (iteration single) (start single params hex) readings n).currentParamValue p
    let last := if u = .incr then paramValueMAX single p else paramValueMIN single p
    (∀ n, m ≤ n → value n ≠ last →
      if u = .incr then value n < value (n + 1) else value (n + 1) < value n) ∧
    ∀ n, m + 340426 ≤ n → value n = last := by
  intro value last
  have hstored : ∀ n, Stored p (value n) := run_stored params hex hp readings
  -- from iteration `m` on every iteration makes the same update
  have hnext : ∀ n, m ≤ n → value (n + 1) = updatedValue single p u (value n) := by
    intro n hn
    obtain ⟨hr, hu⟩ := hheld n hn
    exact (iteration_held hr).trans (by rw [hu])
  cases u with
  | none => exact absurd rfl hu
  | incr =>
    refine ⟨fun n hn hne => ?_, fun n hn => ?_⟩
    · have hlt : value n < paramValueMAX single p := lt_of_le_of_ne (hstored n).2.2 hne
      rw [if_pos rfl, hnext n hn]
      refine lt_of_lt_of_le (lt_min ?_ hlt) (updatedValue_incr_ge hp (hstored n))
      norm_num [unitOfRounding]
    -- 340426 steps are longer than the whole range
    · have hge := held_ge params hex hp hheld (n - m)
      have hk : (340426 : ℚ) ≤ (n - m : ℕ) := by exact_mod_cast (by omega : 340426 ≤ n - m)
      rw [min_eq_right (le_trans (paramValueMAX_le_one p) (by rw [unitOfRounding]; linarith)),
        Nat.add_sub_cancel' (by omega)] at hge
      exact le_antisymm (hstored n).2.2 hge
  | decr =>
    refine ⟨fun n hn hne => ?_, fun n hn => ?_⟩
    · have hlt : paramValueMIN single p < value n :=
        lt_of_le_of_ne (hstored n).2.1 (Ne.symm hne)
      rw [if_neg (by decide), hnext n hn]
      refine lt_of_le_of_lt (updatedValue_decr_le hp (hstored n)) (max_lt ?_ hlt)
      norm_num [unitOfRounding]
    · have hle := held_le params hex hp hheld (n - m)
      have hk : (340426 : ℚ) ≤ (n - m : ℕ) := by exact_mod_cast (by omega : 340426 ≤ n - m)
      have hmin := paramValueMIN_pos hp
      rw [max_eq_right (by rw [unitOfRounding]; linarith), Nat.add_sub_cancel' (by omega)] at hle
      exact le_antisymm hle (hstored n).2.1

/-- The damping key, held from the start. -/
theorem held_key_reaches_end_damping :
    (run (iteration single) (start single resetParams resetHex) (fun _ => ⟨0b0001, 0b10⟩)
      340426).currentParamValue .damping = paramValueMAX single .damping :=
  (held_key_reaches_end resetParams resetHex (m := 0) (u := .incr) (by decide) (by decide)
    (fun _ _ => ⟨by decide, by decide⟩)).2 340426 (by norm_num)

end

end App

end Reverb
