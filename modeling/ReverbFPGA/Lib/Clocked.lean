import Mathlib.Data.Nat.Nth

namespace Clocked

/-!
# Clocked machines

A synchronous machine is an edge function `σ → ι → σ`: the registers after a clock edge
from the registers and the inputs before it.  A *waveform* is a function of the edge
index, and a run is the waveform of the states:

* `IsRun edge s inp` — `s t` is the state just before edge `t`, `s (t + 1)` just after it;
* `run edge s₀ inp` — the run from `s₀`;
* `IsRun.component` — every component of a composite machine runs on the waveform that it
  sees at its own ports;
* `IsRun.invariant_before`, `IsRun.invariant`, `IsRun.related`, `IsRun.agree` — the induction over
  edges, for one run and for two;
* `Pulses tick T gap` — a waveform of one-cycle pulses at the edges `T 0 < T 1 < …`, at
  least `gap` edges apart;
* `exists_enum` — the edges at which something happens, numbered from the first on.
-/

variable {σ σ' ι ι' : Type*} {edge : σ → ι → σ}

/-! ### Runs -/

/-- `s` is a run of the machine under the input waveform `inp`. -/
def IsRun (edge : σ → ι → σ) (s : ℕ → σ) (inp : ℕ → ι) : Prop :=
  ∀ t, s (t + 1) = edge (s t) (inp t)

/-- The run of the machine from `s₀`: its state just before edge `t`. -/
def run (edge : σ → ι → σ) (s₀ : σ) (inp : ℕ → ι) : ℕ → σ
  | 0 => s₀
  | t + 1 => edge (run edge s₀ inp t) (inp t)

theorem run_succ (s₀ : σ) (inp : ℕ → ι) (t : ℕ) :
    run edge s₀ inp (t + 1) = edge (run edge s₀ inp t) (inp t) := rfl

/-- The run that is computed from its start is a run. -/
theorem isRun_run (s₀ : σ) (inp : ℕ → ι) : IsRun edge (run edge s₀ inp) inp := fun _ => rfl

/-- **Components run.** If `f` reads a component out of a composite state and every edge of
    the composite is an edge of the component on the inputs `ports` that it sees, then the
    component's states are a run on that waveform. -/
theorem IsRun.component {edge' : σ' → ι' → σ'} {s : ℕ → σ} {inp : ℕ → ι}
    (h : IsRun edge s inp) (f : σ → σ') (ports : σ → ι → ι')
    (hedge : ∀ s i, f (edge s i) = edge' (f s) (ports s i)) :
    IsRun edge' (fun t => f (s t)) (fun t => ports (s t) (inp t)) := by
  intro t
  show f (s (t + 1)) = _
  rw [h t, hedge]

/-- **Invariant rule.** A property that every edge preserves, under a rule on the inputs, holds
    in a state of the run if the inputs have obeyed the rule up to it. -/
theorem IsRun.invariant_before {s : ℕ → σ} {inp : ℕ → ι} (h : IsRun edge s inp)
    {P : σ → Prop} {Q : ι → Prop} (h0 : P (s 0)) {t : ℕ} (hQ : ∀ u, u < t → Q (inp u))
    (hstep : ∀ s i, Q i → P s → P (edge s i)) : P (s t) := by
  induction t with
  | zero => exact h0
  | succ t ih =>
    rw [h t]
    exact hstep _ _ (hQ t (Nat.lt_succ_self t)) (ih fun u hu => hQ u (Nat.lt_succ_of_lt hu))

/-- With inputs that obey the rule throughout it holds in every state. -/
theorem IsRun.invariant {s : ℕ → σ} {inp : ℕ → ι} (h : IsRun edge s inp)
    {P : σ → Prop} {Q : ι → Prop} (h0 : P (s 0)) (hQ : ∀ t, Q (inp t))
    (hstep : ∀ s i, Q i → P s → P (edge s i)) (t : ℕ) : P (s t) :=
  h.invariant_before h0 (fun u _ => hQ u) hstep

/-- **Simulation rule.** A relation between two runs, of machines that may differ, holds at edge
    `b` if it holds at edge `a` and the edges in between preserve it. -/
theorem IsRun.related {edge' : σ' → ι' → σ'} {s : ℕ → σ} {s' : ℕ → σ'} {inp : ℕ → ι}
    {inp' : ℕ → ι'} (h : IsRun edge s inp) (h' : IsRun edge' s' inp') {R : σ → σ' → Prop}
    {a b : ℕ} (hab : a ≤ b) (ha : R (s a) (s' a))
    (hstep : ∀ t, a ≤ t → t < b → R (s t) (s' t) →
      R (edge (s t) (inp t)) (edge' (s' t) (inp' t))) : R (s b) (s' b) := by
  induction b, hab using Nat.le_induction with
  | base => exact ha
  | succ t hat ih =>
    have iht : R (s t) (s' t) := ih fun u hau hut => hstep u hau (by omega)
    rw [h t, h' t]
    exact hstep t hat (by omega) iht

/-- **Two runs agree** from edge `a` to edge `b` when they start alike and each edge in
    between does the same to both. -/
theorem IsRun.agree {s s' : ℕ → σ} {inp inp' : ℕ → ι} (h : IsRun edge s inp)
    (h' : IsRun edge s' inp') {a b : ℕ} (hab : a ≤ b) (ha : s a = s' a)
    (hstep : ∀ t, a ≤ t → t < b → edge (s t) (inp t) = edge (s t) (inp' t)) : s b = s' b := by
  refine h.related h' (R := fun x y => x = y) hab ha fun t hat htb heq => ?_
  rw [← heq]
  exact hstep t hat htb

/-! ### Ticks -/

/-- The waveform `tick` consists of one-cycle pulses at the edges `T 0`, `T 1`, …, each at
    least `gap` edges after the one before. -/
structure Pulses (tick : ℕ → Bool) (T : ℕ → ℕ) (gap : ℕ) : Prop where
  spaced : ∀ n, T n + gap ≤ T (n + 1)
  pulse_iff : ∀ t, tick t = true ↔ ∃ n, T n = t

namespace Pulses

variable {tick : ℕ → Bool} {T : ℕ → ℕ} {gap : ℕ}

/-- There is a tick at each `T n`. -/
theorem tick_at (h : Pulses tick T gap) (n : ℕ) : tick (T n) = true :=
  (h.pulse_iff _).mpr ⟨n, rfl⟩

/-- Ticks that are far apart are not close. -/
theorem mono_gap (h : Pulses tick T gap) {gap' : ℕ} (hle : gap' ≤ gap) : Pulses tick T gap' :=
  ⟨fun n => le_trans (by omega) (h.spaced n), h.pulse_iff⟩

/-- The ticks are in order. -/
theorem monotone (h : Pulses tick T gap) : Monotone T :=
  monotone_nat_of_le_succ fun n => le_trans (Nat.le_add_right _ _) (h.spaced n)

/-- Any two ticks are `gap` edges apart. -/
theorem gap_le (h : Pulses tick T gap) {t u : ℕ} (ht : tick t = true) (hu : tick u = true)
    (htu : t < u) : t + gap ≤ u := by
  obtain ⟨n, rfl⟩ := (h.pulse_iff t).mp ht
  obtain ⟨m, rfl⟩ := (h.pulse_iff u).mp hu
  have hnm : n < m := by
    by_contra hmn
    have := h.monotone (not_lt.mp hmn)
    omega
  exact le_trans (h.spaced n) (h.monotone hnm)

/-- Between two ticks there is none. -/
theorem quiet (h : Pulses tick T gap) {n t : ℕ} (h1 : T n < t) (h2 : t < T (n + 1)) :
    tick t = false := by
  rw [Bool.eq_false_iff]
  intro ht
  obtain ⟨m, rfl⟩ := (h.pulse_iff t).mp ht
  rcases Nat.lt_or_ge m (n + 1) with hm | hm
  · exact absurd (h.monotone (Nat.le_of_lt_succ hm)) (by omega)
  · exact absurd (h.monotone hm) (by omega)

/-- Before the first tick there is none. -/
theorem quiet_before (h : Pulses tick T gap) {t : ℕ} (ht : t < T 0) : tick t = false := by
  rw [Bool.eq_false_iff]
  intro hp
  obtain ⟨m, rfl⟩ := (h.pulse_iff t).mp hp
  exact absurd (h.monotone (Nat.zero_le m)) (by omega)

end Pulses

/-- A pulse at edge `a` and then one every `gap` edges. -/
def every (a gap t : ℕ) : Bool := decide (a ≤ t ∧ (t - a) % gap = 0)

/-- Periodic ticks are apart by their period. -/
theorem pulses_every (a gap : ℕ) :
    Pulses (every a gap) (fun n => a + gap * n) gap where
  spaced := fun n => by rw [Nat.mul_succ]; omega
  pulse_iff := fun t => by
    rw [every, decide_eq_true_eq]
    constructor
    · rintro ⟨hat, hmod⟩
      have := Nat.div_add_mod (t - a) gap
      exact ⟨(t - a) / gap, by omega⟩
    · rintro ⟨n, rfl⟩
      simp

/-! ### Numbered events -/

/-- The events up to the one at edge `t`, in their order: `T j` is the edge of event `j`. -/
theorem exists_enum {p : ℕ → Prop} [DecidablePred p] {t : ℕ} (ht : p t) :
    ∃ T : ℕ → ℕ, T (Nat.count p t) = t ∧
      ∀ j, j ≤ Nat.count p t → p (T j) ∧ Nat.count p (T j) = j := by
  obtain ⟨n, hn, hnt⟩ := Nat.exists_lt_card_nth_eq ht
  have hcount : Nat.count p t = n := by rw [← hnt, Nat.count_nth hn]
  -- `Nat.nth` needs to know that there are that many events
  refine ⟨Nat.nth p, by rw [hcount, hnt], fun j hj => ?_⟩
  have hcard : ∀ hf : (Set.ofPred p).Finite, j < hf.toFinset.card :=
    fun hf => lt_of_le_of_lt (hcount ▸ hj) (hn hf)
  exact ⟨Nat.nth_mem j hcard, Nat.count_nth hcard⟩

/-- Between event `j` and event `j + 1` there is none. -/
theorem not_event_between {p : ℕ → Prop} [DecidablePred p] {a b u : ℕ} (ha : p a)
    (hab : Nat.count p b = Nat.count p a + 1) (hau : a < u) (hub : u < b) : ¬ p u := by
  intro hu
  have h1 := Nat.count_strict_mono ha hau
  have h2 := Nat.count_strict_mono hu hub
  omega

end Clocked
