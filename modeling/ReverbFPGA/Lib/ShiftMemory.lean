import Mathlib.Logic.Function.Basic
import Mathlib.Tactic.Ring
import Mathlib.Tactic.SplitIfs
import Mathlib.Order.Basic

namespace ShiftMemory

/-!
# A memory used as a shift register of changing length

`shiftIn M x m` moves the first `M` cells of `m` up by one place, drops what was in cell
`M - 1` and puts `x` in cell `0`; the cells from `M` on keep what they hold.  The length may
differ from one shift to the next, so a word can be left behind in the cells that a shorter
shift does not reach:

* `shiftFrom a M m` — the half-done shift, the cells `a .. M - 1` already moved: what an
  in-place implementation holds while it works downwards (`update_shiftFrom`);
* `after m M x n` — the memory after the first `n` shifts of a sequence;
* `after_live` — a word pushed by shift `k` lies in cell `j - 1 - k` after `j` shifts, as long
  as each shift in between was long enough to reach it.
-/

variable {α : Type*}

/-- Cells `a .. M - 1` already hold what was one place below them. -/
def shiftFrom (a M : ℤ) (m : ℤ → α) : ℤ → α :=
  fun i => if a ≤ i ∧ i ≤ M - 1 then m (i - 1) else m i

/-- The in-place shift of the first `M` cells, with `x` put in the cell that falls free. -/
def shiftIn (M : ℤ) (x : α) (m : ℤ → α) : ℤ → α :=
  fun i => if i = 0 then x else if 1 ≤ i ∧ i ≤ M - 1 then m (i - 1) else m i

/-- Below the cells that have been moved nothing has changed. -/
theorem shiftFrom_of_lt {a M i : ℤ} (m : ℤ → α) (h : i < a) : shiftFrom a M m i = m i := by
  simp only [shiftFrom]; split_ifs <;> first | rfl | omega

/-- Nothing is moved yet. -/
theorem shiftFrom_self (M : ℤ) (m : ℤ → α) : shiftFrom M M m = m := by
  ext i
  simp only [shiftFrom]; split_ifs <;> first | rfl | omega

/-- One more cell is moved. -/
theorem update_shiftFrom {a M : ℤ} (m : ℤ → α) (h : a ≤ M - 1) :
    Function.update (shiftFrom (a + 1) M m) a (m (a - 1)) = shiftFrom a M m := by
  ext i
  simp only [Function.update_apply, shiftFrom]
  split_ifs <;> first | rfl | omega | (subst_vars; rfl)

/-- The shift is complete once cell `0` has its new word. -/
theorem update_shiftFrom_one (M : ℤ) (x : α) (m : ℤ → α) :
    Function.update (shiftFrom 1 M m) 0 x = shiftIn M x m := by
  ext i
  simp only [Function.update_apply, shiftFrom, shiftIn]

@[simp] theorem shiftIn_zero (M : ℤ) (x : α) (m : ℤ → α) : shiftIn M x m 0 = x := rfl

/-- A cell within the shift takes the word below it. -/
theorem shiftIn_of_mem {M i : ℤ} (x : α) (m : ℤ → α) (h1 : 1 ≤ i) (h2 : i ≤ M - 1) :
    shiftIn M x m i = m (i - 1) := by
  simp only [shiftIn]; split_ifs <;> first | rfl | omega

/-- A cell above the shift keeps its word. -/
theorem shiftIn_of_le {M i : ℤ} (x : α) (m : ℤ → α) (h0 : i ≠ 0) (h : M ≤ i) :
    shiftIn M x m i = m i := by
  simp only [shiftIn]; split_ifs <;> first | rfl | omega

/-! ### Sequences of shifts -/

/-- The memory after `n` shifts, the `j`-th of length `M j` and pushing `x j`. -/
def after (m : ℤ → α) (M : ℕ → ℤ) (x : ℕ → α) : ℕ → ℤ → α
  | 0 => m
  | n + 1 => shiftIn (M n) (x n) (after m M x n)

@[simp] theorem after_zero (m : ℤ → α) (M : ℕ → ℤ) (x : ℕ → α) : after m M x 0 = m := rfl

/-- One more shift. -/
theorem after_succ (m : ℤ → α) (M : ℕ → ℤ) (x : ℕ → α) (n : ℕ) :
    after m M x (n + 1) = shiftIn (M n) (x n) (after m M x n) := rfl

/-- **Live words.** The word that shift `k` pushed is in cell `n - 1 - k` after `n` shifts, if
    every shift `j` in between was longer than the `j - k` places the word had to be by. -/
theorem after_live (m : ℤ → α) (M : ℕ → ℤ) (x : ℕ → α) {k n : ℕ} (hkn : k < n)
    (hreach : ∀ j, k < j → j < n → (j : ℤ) - k < M j) :
    after m M x n (n - 1 - k) = x k := by
  induction n, hkn using Nat.le_induction with
  | base =>
    rw [after_succ, show ((k + 1 : ℕ) : ℤ) - 1 - k = 0 by push_cast; ring, shiftIn_zero]
  | succ n hn ih =>
    -- shift `n` takes the word from cell `n - 1 - k` to cell `n - k`, which it reaches
    have hreach_n : (n : ℤ) - k < M n := hreach n (by omega) (by omega)
    have hcell : ((n + 1 : ℕ) : ℤ) - 1 - k = (n - k : ℤ) := by push_cast; ring
    rw [after_succ, hcell, shiftIn_of_mem _ _ (by omega) (by omega),
      show (n : ℤ) - k - 1 = n - 1 - k by ring]
    exact ih fun j hkj hjn => hreach j hkj (by omega)

/-- With shifts of one length `M`, the words of the start move up until they drop out. -/
theorem after_initial (m : ℤ → α) (M : ℕ) (x : ℕ → α) {n : ℕ} {i : ℤ} (hn : n ≤ i) (hi : i < M) :
    after m (fun _ => (M : ℤ)) x n i = m (i - n) := by
  induction n generalizing i with
  | zero => simp
  | succ n ih =>
    rw [after_succ, shiftIn_of_mem _ _ (by push_cast at hn; omega) (by omega),
      ih (by push_cast at hn; omega) (by omega)]
    congr 1; push_cast; ring

/-- The memory after a further shift depends on the earlier ones only through the memory. -/
theorem after_eq_of_step {m : ℕ → ℤ → α} {M : ℕ → ℤ} {x : ℕ → α} {N : ℕ}
    (h : ∀ n, n < N → m (n + 1) = shiftIn (M n) (x n) (m n)) :
    ∀ n, n ≤ N → m n = after (m 0) M x n := by
  intro n hn
  induction n with
  | zero => rfl
  | succ n ih => rw [h n (by omega), ih (by omega), after_succ]

end ShiftMemory
