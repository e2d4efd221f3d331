import Mathlib.Data.List.Basic
import ReverbFPGA.Lib.Clocked

namespace Batched

/-!
# A machine that writes one at a time

A program takes in an event, computes the writes that it asks for, and makes them one after the
other; whoever looks at what is written sees all the states in between.

* `step` — one write, or the next event when no write is pending;
* `whole` — an event with all of its writes at once;
* `taken` — the events that a run has taken in so far;
* `run_split` — at any time the run is the whole events, but for the last one, followed by some of
  the writes of the last;
* `settles` — the writes of an event are through after as many steps.
-/

open Clocked

variable {σ π ω ε : Type*}

/-- The variables of the program, what is written, and the writes that it has yet to make. -/
structure State (σ π ω : Type*) where
  inner : σ
  outer : π
  pending : List ω

/-- How a write is made, and what an event makes of the variables and asks to be written. -/
structure Program (σ π ω ε : Type*) where
  write : π → ω → π
  next : σ → ε → σ
  writes : σ → ε → List ω

namespace Program

variable (P : Program σ π ω ε)

/-- While writes are pending the oldest one is made; otherwise the event is taken in. -/
def step (s : State σ π ω) (e : ε) : State σ π ω :=
  match s.pending with
  | w :: ws => { s with outer := P.write s.outer w, pending := ws }
  | [] => { s with inner := P.next s.inner e, pending := P.writes s.inner e }

/-- The event with all its writes at once. -/
def whole (s : σ × π) (e : ε) : σ × π := (P.next s.1 e, (P.writes s.1 e).foldl P.write s.2)

/-- The run from the start of an event. -/
abbrev steps (i : σ) (o : π) (events : ℕ → ε) : ℕ → State σ π ω := run P.step ⟨i, o, []⟩ events

/-- The events that the run has taken in before step `t`. -/
def taken (i : σ) (o : π) (events : ℕ → ε) : ℕ → List ε
  | 0 => []
  | t + 1 =>
    if (P.steps i o events t).pending = [] then taken i o events t ++ [events t]
    else taken i o events t

variable {P} {i : σ} {o : π} {events : ℕ → ε} {t : ℕ}

/-- A step that makes a write. -/
theorem step_pending {s : State σ π ω} {w : ω} {ws : List ω} (h : s.pending = w :: ws) (e : ε) :
    P.step s e = { s with outer := P.write s.outer w, pending := ws } := by
  rw [step, h]

/-- A step that takes in an event. -/
theorem step_idle {s : State σ π ω} (h : s.pending = []) (e : ε) :
    P.step s e = { s with inner := P.next s.inner e, pending := P.writes s.inner e } := by
  rw [step, h]

/-- While writes are pending no event is taken in. -/
theorem taken_succ_pending (h : (P.steps i o events t).pending ≠ []) :
    P.taken i o events (t + 1) = P.taken i o events t := if_neg h

/-- Otherwise the event of the moment is. -/
theorem taken_succ_idle (h : (P.steps i o events t).pending = []) :
    P.taken i o events (t + 1) = P.taken i o events t ++ [events t] := if_pos h

/-- What a run can look like after the events `es`: all of them are through, or some writes of the
    last one are pending. -/
def Split (P : Program σ π ω ε) (a : σ × π) (s : State σ π ω) (es : List ε) : Prop :=
  s.inner = (es.foldl P.whole a).1 ∧
    (s.pending = [] ∧ s.outer = (es.foldl P.whole a).2 ∨
      ∃ rs e made, es = rs ++ [e] ∧ made ++ s.pending = P.writes (rs.foldl P.whole a).1 e ∧
        s.outer = made.foldl P.write (rs.foldl P.whole a).2)

/-- With no write pending all events are through. -/
theorem Split.idle {a : σ × π} {s : State σ π ω} {es : List ε} (h : Split P a s es)
    (hs : s.pending = []) : s.outer = (es.foldl P.whole a).2 := by
  rcases h.2 with ⟨-, hdone⟩ | ⟨rs, e, made, rfl, hmade, houter⟩
  · exact hdone
  · rw [hs, List.append_nil] at hmade
    rw [houter, hmade, List.foldl_concat]
    rfl

/-- **The run splits** into whole events and a part of the last one. -/
theorem run_split (i : σ) (o : π) (events : ℕ → ε) (t : ℕ) :
    Split P (i, o) (P.steps i o events t) (P.taken i o events t) := by
  induction t with
  | zero => exact ⟨rfl, Or.inl ⟨rfl, rfl⟩⟩
  | succ t ih =>
    cases hs : (P.steps i o events t).pending with
    -- an event is taken in: of its writes none is made yet
    | nil =>
      rw [taken_succ_idle hs, steps, run_succ, step_idle hs]
      refine ⟨?_, Or.inr ⟨_, _, [], rfl, ?_, ih.idle hs⟩⟩
      · rw [List.foldl_concat, ih.1]
        rfl
      · rw [List.nil_append, ← ih.1]
    -- one more write of the last event is made
    | cons w ws =>
      rw [taken_succ_pending (by rw [hs]; exact List.cons_ne_nil w ws), steps, run_succ,
        step_pending hs]
      refine ⟨ih.1, ?_⟩
      rcases ih.2 with ⟨hnil, -⟩ | ⟨rs, e, made, htaken, hmade, houter⟩
      · exact absurd (hnil.symm.trans hs) (List.cons_ne_nil w ws).symm
      · refine Or.inr ⟨rs, e, made ++ [w], htaken, ?_, ?_⟩
        · rw [← hmade, hs, List.append_assoc, List.singleton_append]
        · rw [List.foldl_concat, ← houter]

/-- What has been taken in was there at some step. -/
theorem exists_of_mem_taken {e : ε} (h : e ∈ P.taken i o events t) : ∃ k, events k = e := by
  induction t with
  | zero => exact absurd h List.not_mem_nil
  | succ t ih =>
    rw [taken] at h
    split_ifs at h with hidle
    · rcases List.mem_append.mp h with hmem | hmem
      · exact ih hmem
      · exact ⟨t, (List.mem_singleton.mp hmem).symm⟩
    · exact ih h

/-- The pending writes are made, and no event is taken in meanwhile. -/
theorem settles {k : ℕ} (h : (P.steps i o events t).pending.length = k) :
    (P.steps i o events (t + k)).pending = [] ∧
      P.taken i o events (t + k) = P.taken i o events t := by
  induction k generalizing t with
  | zero => exact ⟨List.length_eq_zero_iff.mp h, rfl⟩
  | succ k ih =>
    obtain ⟨w, ws, hs⟩ := List.exists_cons_of_length_eq_add_one h
    have hnext : (P.steps i o events (t + 1)).pending = ws := by
      rw [steps, run_succ, step_pending hs]
    have hlen : (P.steps i o events (t + 1)).pending.length = k := by
      rw [hnext]
      rw [hs, List.length_cons] at h
      omega
    have hrest := ih hlen
    rw [taken_succ_pending (by rw [hs]; exact List.cons_ne_nil w ws)] at hrest
    rwa [show t + (k + 1) = t + 1 + k by omega]

end Program

end Batched
