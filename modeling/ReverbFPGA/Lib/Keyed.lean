import Mathlib.Logic.Function.Basic
import Mathlib.Data.List.Basic

namespace Keyed

/-!
# Families of independent components

A family holds one component for each key.  An event carries a key, and changes the component
at that key only (`step`).  What a sequence of events leaves at a key is then decided by the
events that carry it, in their order, and by nothing else:

* `foldl_step_apply` — the fold over all events, read at a key, is the fold over the events
  with that key;
* `foldl_step_invariant` — a property that every event keeps of the component it changes.
-/

variable {κ ε : Type*} {α : κ → Type*} [DecidableEq κ]

/-- One event: the component at its key takes a step. -/
def step (key : ε → κ) (f : (k : κ) → α k → ε → α k) (s : (k : κ) → α k) (e : ε) : (k : κ) → α k :=
  Function.update s (key e) (f (key e) (s (key e)) e)

variable {key : ε → κ} {f : (k : κ) → α k → ε → α k} {s : (k : κ) → α k} {e : ε} {k : κ}

/-- The entry with the key of the event moves. -/
theorem step_of_eq (h : key e = k) : step key f s e k = f k (s k) e := by
  subst h
  rw [step, Function.update_self]

/-- The other entries stay. -/
theorem step_of_ne (h : key e ≠ k) : step key f s e k = s k :=
  Function.update_of_ne (Ne.symm h) _ _

/-- **Isolation.** What the events leave at a key is what those with the key make of it. -/
theorem foldl_step_apply (s : (k : κ) → α k) (es : List ε) (k : κ) :
    es.foldl (step key f) s k = (es.filter fun e => key e = k).foldl (f k) (s k) := by
  induction es generalizing s with
  | nil => rfl
  | cons e es ih =>
    rw [List.foldl_cons, ih]
    by_cases h : key e = k
    · rw [List.filter_cons_of_pos (by simpa using h), List.foldl_cons, step_of_eq h]
    · rw [List.filter_cons_of_neg (by simpa using h), step_of_ne h]

/-- A property that every event keeps of the component it changes holds of all components. -/
theorem foldl_step_invariant {P : (k : κ) → α k → Prop} (h0 : ∀ k, P k (s k))
    (hstep : ∀ k v e, P k v → P k (f k v e)) (es : List ε) (k : κ) :
    P k (es.foldl (step key f) s k) := by
  rw [foldl_step_apply]
  generalize es.filter (fun e => key e = k) = es'
  have hk := h0 k
  generalize s k = v at hk
  induction es' generalizing v with
  | nil => exact hk
  | cons e es' ih => exact ih (f k v e) (hstep k v e hk)

end Keyed
