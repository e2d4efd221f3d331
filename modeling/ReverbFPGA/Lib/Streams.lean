import Mathlib.Algebra.Module.LinearMap.Defs
import Mathlib.Algebra.Module.Pi
import Mathlib.Algebra.Module.Prod
import Mathlib.Algebra.Order.Group.Nat
import Mathlib.Logic.Function.Basic
import Mathlib.Order.Nat
import Mathlib.Tactic.SplitIfs

namespace Streams

/-!
# Causal and time-invariant stream operators

A signal that is sampled at the ticks `0, 1, 2, …` is a function `ℕ → α`, and a block with an input
and an output is an operator `(ℕ → α) → ℕ → β`:

* `delay d` — the signal `d` ticks late, zero up to then;
* `loop D g f` — a feedback loop of `D` ticks with a register in it: of the delayed word and the
  register `g` makes the next value of the register, and of the input and that value `f` makes
  the word that enters the delay.  `loop_unique` says that these two equations have one solution;
* `TimeInvariant F` — a late input makes the output as late, and not otherwise different;
* `Causal F` — the output up to tick `n` depends on the input up to tick `n`.

Delays, blocks without memory, loops, and compositions of all of these have both properties.  They
are linear if the blocks and the two functions of the loops are.
-/

variable {α β γ σ ι : Type*}

/-! ### Delays -/

section

variable [Zero α] [Zero β]

/-- The signal `u`, `d` ticks late. -/
def delay (d : ℕ) (u : ℕ → α) (n : ℕ) : α := if d ≤ n then u (n - d) else 0

/-- Before the delay is over, zero comes out. -/
theorem delay_of_lt {d n : ℕ} (u : ℕ → α) (h : n < d) : delay d u n = 0 := if_neg (by omega)

/-- From then on, the stream of `d` ticks ago. -/
theorem delay_of_le {d n : ℕ} (u : ℕ → α) (h : d ≤ n) : delay d u n = u (n - d) := if_pos h

/-- A delay reads the past only. -/
theorem delay_congr {d n : ℕ} {u v : ℕ → α} (hd : 0 < d) (h : ∀ m < n, u m = v m) :
    delay d u n = delay d v n := by
  unfold delay
  split_ifs with hn
  · exact h (n - d) (by omega)
  · rfl

@[simp] theorem delay_add_apply (d : ℕ) (u : ℕ → α) (n : ℕ) : delay d u (n + d) = u n := by
  simp [delay]

@[simp] theorem delay_zero (d : ℕ) : delay d (0 : ℕ → α) = 0 := by
  ext n
  simp [delay]

/-- Delays in series add up. -/
theorem delay_delay (a b : ℕ) (u : ℕ → α) : delay a (delay b u) = delay (a + b) u := by
  ext n
  rcases Nat.lt_or_ge n a with hlt | hge
  · rw [delay_of_lt _ hlt, delay_of_lt _ (by omega)]
  rw [delay_of_le _ hge]
  rcases Nat.lt_or_ge n (a + b) with hlt | hge'
  · rw [delay_of_lt _ hlt, delay_of_lt _ (by omega)]
  · rw [delay_of_le _ hge', delay_of_le _ (by omega), Nat.sub_sub]

/-- Two delays can be swapped. -/
theorem delay_comm (a b : ℕ) (u : ℕ → α) : delay a (delay b u) = delay b (delay a u) := by
  rw [delay_delay, delay_delay, Nat.add_comm]

/-! ### Operators -/

/-- The operator commutes with delays. -/
def TimeInvariant (F : (ℕ → α) → ℕ → β) : Prop := ∀ k u, F (delay k u) = delay k (F u)

/-- The output has nothing of the future of the input in it. -/
def Causal (F : (ℕ → α) → ℕ → β) : Prop :=
  ∀ (n : ℕ) (u v : ℕ → α), (∀ m ≤ n, u m = v m) → F u n = F v n

variable {F : (ℕ → α) → ℕ → β}

/-- From silence a time-invariant operator makes silence. -/
theorem TimeInvariant.zero (h : TimeInvariant F) : F 0 = 0 := by
  ext n
  have hlate := congrFun (h (n + 1) 0) n
  rw [delay_zero, delay_of_lt _ (Nat.lt_succ_self n)] at hlate
  exact hlate

/-- Up to the first input that is not silent, the output is silent. -/
theorem TimeInvariant.eq_zero (h : TimeInvariant F) (hc : Causal F) {u : ℕ → α} {n : ℕ}
    (hu : ∀ m ≤ n, u m = 0) : F u n = 0 := by
  rw [hc n u 0 hu, h.zero]
  rfl

end

section

theorem causal_id : Causal fun u : ℕ → α => u := fun n _ _ h => h n le_rfl

/-- Causal systems compose. -/
theorem Causal.comp {F : (ℕ → β) → ℕ → γ} {G : (ℕ → α) → ℕ → β} (hF : Causal F)
    (hG : Causal G) : Causal fun u => F (G u) :=
  fun n u v h => hF n _ _ fun m hm => hG m u v fun i hi => h i (le_trans hi hm)

/-- A pointwise operation on two causal systems is causal. -/
theorem Causal.map₂ {F : (ℕ → α) → ℕ → β} {G : (ℕ → α) → ℕ → σ} (hF : Causal F) (hG : Causal G)
    (f : β → σ → γ) : Causal fun u n => f (F u n) (G u n) := by
  intro n u v h
  simp only [hF n u v h, hG n u v h]

variable [Zero α] [Zero β] [Zero γ] [Zero σ]

theorem timeInvariant_id : TimeInvariant fun u : ℕ → α => u := fun _ _ => rfl

theorem timeInvariant_delay (d : ℕ) : TimeInvariant (delay d : (ℕ → α) → ℕ → α) :=
  fun k u => delay_comm d k u

theorem causal_delay (d : ℕ) : Causal (delay d : (ℕ → α) → ℕ → α) := by
  intro n u v h
  unfold delay
  split_ifs
  · exact h _ (Nat.sub_le n d)
  · rfl

/-- Time invariant systems compose. -/
theorem TimeInvariant.comp {F : (ℕ → β) → ℕ → γ} {G : (ℕ → α) → ℕ → β} (hF : TimeInvariant F)
    (hG : TimeInvariant G) : TimeInvariant fun u => F (G u) := by
  intro k u
  show F (G (delay k u)) = _
  rw [hG k u, hF k (G u)]

/-- A block without memory is time-invariant if it makes silence of silence. -/
theorem TimeInvariant.map {F : ι → (ℕ → α) → ℕ → β} (hF : ∀ j, TimeInvariant (F j))
    {f : (ι → β) → γ} (hf : f (fun _ => 0) = 0) :
    TimeInvariant fun u n => f fun j => F j u n := by
  intro k u
  ext n
  simp only [hF _ k u]
  unfold delay
  split_ifs
  · rfl
  · exact hf

/-- A pointwise operation that keeps zero keeps time invariance. -/
theorem TimeInvariant.map₁ {F : (ℕ → α) → ℕ → β} (hF : TimeInvariant F) {f : β → γ}
    (hf : f 0 = 0) : TimeInvariant fun u n => f (F u n) :=
  TimeInvariant.map (fun _ : Unit => hF) (f := fun y => f (y ())) hf

/-- A block with two inputs and without memory. -/
theorem TimeInvariant.map₂ {F : (ℕ → α) → ℕ → β} {G : (ℕ → α) → ℕ → σ}
    (hF : TimeInvariant F) (hG : TimeInvariant G) {f : β → σ → γ} (hf : f 0 0 = 0) :
    TimeInvariant fun u n => f (F u n) (G u n) := by
  intro k u
  ext n
  simp only [hF k u, hG k u]
  unfold delay
  split_ifs
  · rfl
  · exact hf

end

/-! ### Loops -/

section

variable [Zero β] [Zero σ]

/-- The word that enters the delay at tick `n`, and the value of the register after it. -/
def loop (D : ℕ) (g : β → σ → σ) (f : α → σ → β) (u : ℕ → α) (n : ℕ) : β × σ :=
  let w := if _ : 0 < D ∧ D ≤ n then (loop D g f u (n - D)).1 else 0
  let r := if _ : 0 < n then (loop D g f u (n - 1)).2 else 0
  (f (u n) (g w r), g w r)
termination_by n
decreasing_by all_goals omega

/-- The words of a loop. -/
def loopWord (D : ℕ) (g : β → σ → σ) (f : α → σ → β) (u : ℕ → α) (n : ℕ) : β :=
  (loop D g f u n).1

/-- The register of a loop. -/
def loopRegister (D : ℕ) (g : β → σ → σ) (f : α → σ → β) (u : ℕ → α) (n : ℕ) : σ :=
  (loop D g f u n).2

variable {D : ℕ} {g : β → σ → σ} {f : α → σ → β} {u : ℕ → α}

/-- The recurrence of the register. -/
theorem loopRegister_eq (hD : 0 < D) (n : ℕ) :
    loopRegister D g f u n =
      g (delay D (loopWord D g f u) n) (delay 1 (loopRegister D g f u) n) := by
  rw [loopRegister, loop]
  simp only [hD, true_and, dite_eq_ite]
  rfl

/-- The recurrence of the word. -/
theorem loopWord_eq (n : ℕ) :
    loopWord D g f u n = f (u n) (loopRegister D g f u n) := by
  rw [loopWord, loopRegister, loop]

/-- The register before tick `n + 1`, from the delayed word and the register before tick `n`. -/
theorem delay_loopRegister_succ (hD : 0 < D) (n : ℕ) :
    delay 1 (loopRegister D g f u) (n + 1) =
      g (delay D (loopWord D g f u) n) (delay 1 (loopRegister D g f u) n) := by
  rw [delay_add_apply, loopRegister_eq hD]

/-- The delayed word of tick `n + D`, from the register after tick `n`. -/
theorem delay_loopWord_add (n : ℕ) :
    delay D (loopWord D g f u) (n + D) = f (u n) (delay 1 (loopRegister D g f u) (n + 1)) := by
  rw [delay_add_apply, delay_add_apply, loopWord_eq]

/-- **The equations of a loop have one solution.** -/
theorem loop_unique (hD : 0 < D) {v : ℕ → β} {r : ℕ → σ}
    (hr : ∀ n, r n = g (delay D v n) (delay 1 r n)) (hv : ∀ n, v n = f (u n) (r n)) :
    v = loopWord D g f u ∧ r = loopRegister D g f u := by
  -- the word and the register of a tick only depend on those of earlier ones
  have hboth : ∀ n, v n = loopWord D g f u n ∧ r n = loopRegister D g f u n := by
    intro n
    induction n using Nat.strong_induction_on with
    | _ n ih =>
      have hword : delay D v n = delay D (loopWord D g f u) n :=
        delay_congr hD fun m hm => (ih m hm).1
      have hlast : delay 1 r n = delay 1 (loopRegister D g f u) n :=
        delay_congr Nat.one_pos fun m hm => (ih m hm).2
      have hreg : r n = loopRegister D g f u n := by
        rw [hr n, hword, hlast]
        exact (loopRegister_eq hD n).symm
      refine ⟨?_, hreg⟩
      rw [hv n, hreg]
      exact (loopWord_eq n).symm
  exact ⟨funext fun n => (hboth n).1, funext fun n => (hboth n).2⟩

/-- A loop of other words that makes the same steps: `φ` and `ψ` take the words and the registers
    there, and need to fit the steps only for what the register really holds. -/
theorem loop_map {α' β' σ' : Type*} [Zero β'] [Zero σ'] {g' : β' → σ' → σ'} {f' : α' → σ' → β'}
    {u' : ℕ → α'} {φ : β → β'} {ψ : σ → σ'} (hD : 0 < D) (hφ : φ 0 = 0) (hψ : ψ 0 = 0)
    (hg : ∀ w r, ψ (g w r) = g' (φ w) (ψ r))
    (hf : ∀ n r, ψ r = loopRegister D g' f' u' n → φ (f (u n) r) = f' (u' n) (ψ r)) (n : ℕ) :
    φ (loopWord D g f u n) = loopWord D g' f' u' n ∧
      ψ (loopRegister D g f u n) = loopRegister D g' f' u' n := by
  have hr : ∀ n, ψ (loopRegister D g f u n) = loopRegister D g' f' u' n →
      φ (loopWord D g f u n) = loopWord D g' f' u' n := by
    intro n hreg
    rw [loopWord_eq, hf n _ hreg, hreg, loopWord_eq]
  -- the registers carry the induction; each word follows from its register
  suffices hreg : ∀ n, ψ (loopRegister D g f u n) = loopRegister D g' f' u' n from
    ⟨hr n (hreg n), hreg n⟩
  intro n
  induction n using Nat.strong_induction_on with
  | _ n ih =>
    have hword : φ (delay D (loopWord D g f u) n) = delay D (loopWord D g' f' u') n := by
      unfold delay
      split_ifs
      · exact hr _ (ih _ (by omega))
      · exact hφ
    have hlast : ψ (delay 1 (loopRegister D g f u) n) = delay 1 (loopRegister D g' f' u') n := by
      unfold delay
      split_ifs
      · exact ih _ (by omega)
      · exact hψ
    rw [loopRegister_eq hD, hg, hword, hlast]
    exact (loopRegister_eq hD n).symm

/-- The loop up to a tick depends on the input up to that tick. -/
theorem loop_congr (hD : 0 < D) {u v : ℕ → α} {n : ℕ} (h : ∀ m ≤ n, u m = v m) :
    loopWord D g f u n = loopWord D g f v n ∧
      loopRegister D g f u n = loopRegister D g f v n := by
  induction n using Nat.strong_induction_on with
  | _ n ih =>
    have hpast : ∀ m < n, loopWord D g f u m = loopWord D g f v m ∧
        loopRegister D g f u m = loopRegister D g f v m :=
      fun m hm => ih m hm fun i hi => h i (by omega)
    have hword : delay D (loopWord D g f u) n = delay D (loopWord D g f v) n :=
      delay_congr hD fun m hm => (hpast m hm).1
    have hlast : delay 1 (loopRegister D g f u) n = delay 1 (loopRegister D g f v) n :=
      delay_congr Nat.one_pos fun m hm => (hpast m hm).2
    have hreg : loopRegister D g f u n = loopRegister D g f v n := by
      rw [loopRegister_eq hD, loopRegister_eq hD, hword, hlast]
    exact ⟨by rw [loopWord_eq, loopWord_eq, hreg, h n le_rfl], hreg⟩

/-- A loop around a delay is causal. -/
theorem causal_loopWord (hD : 0 < D) : Causal (loopWord D g f : (ℕ → α) → ℕ → β) :=
  fun _ _ _ h => (loop_congr hD h).1

variable [Zero α]

/-- A loop that keeps silent in silence commutes with delays. -/
theorem loop_delay (hD : 0 < D) (hg : g 0 0 = 0) (hf : f 0 0 = 0) (k : ℕ) (u : ℕ → α) :
    loopWord D g f (delay k u) = delay k (loopWord D g f u) ∧
      loopRegister D g f (delay k u) = delay k (loopRegister D g f u) := by
  -- the delayed solution solves the equations of the delayed input, so it is the solution
  have hr : ∀ n, delay k (loopRegister D g f u) n =
      g (delay D (delay k (loopWord D g f u)) n)
        (delay 1 (delay k (loopRegister D g f u)) n) := by
    intro n
    rw [delay_comm D k, delay_comm 1 k]
    rcases Nat.lt_or_ge n k with hlt | hge
    -- before the delay is over all is silent, and silence stays
    · rw [delay_of_lt _ hlt, delay_of_lt _ hlt, delay_of_lt _ hlt, hg]
    · rw [delay_of_le _ hge, delay_of_le _ hge, delay_of_le _ hge, loopRegister_eq hD]
  have hv : ∀ n, delay k (loopWord D g f u) n =
      f (delay k u n) (delay k (loopRegister D g f u) n) := by
    intro n
    rcases Nat.lt_or_ge n k with hlt | hge
    · rw [delay_of_lt _ hlt, delay_of_lt _ hlt, delay_of_lt _ hlt, hf]
    · rw [delay_of_le _ hge, delay_of_le _ hge, delay_of_le _ hge, loopWord_eq]
  obtain ⟨hword, hreg⟩ := loop_unique hD hr hv
  exact ⟨hword.symm, hreg.symm⟩

/-- A loop that keeps silence is time invariant. -/
theorem timeInvariant_loopWord (hD : 0 < D) (hg : g 0 0 = 0) (hf : f 0 0 = 0) :
    TimeInvariant (loopWord D g f) := fun k u => (loop_delay hD hg hf k u).1

end

/-! ### Linearity -/

section

variable {R : Type*} [Semiring R] [AddCommMonoid α] [Module R α] [AddCommMonoid β] [Module R β]
  [AddCommMonoid γ] [Module R γ] [AddCommMonoid σ] [Module R σ]

theorem isLinearMap_id : IsLinearMap R fun u : ℕ → α => u := LinearMap.id.isLinear

/-- A delay is linear. -/
theorem isLinearMap_delay (d : ℕ) : IsLinearMap R (delay d : (ℕ → α) → ℕ → α) where
  map_add := fun u v => by
    ext n
    simp only [delay, Pi.add_apply]
    split_ifs <;> simp
  map_smul := fun c u => by
    ext n
    simp only [delay, Pi.smul_apply]
    split_ifs <;> simp

/-- Linear systems compose. -/
theorem isLinearMap_comp {F : (ℕ → β) → ℕ → γ} {G : (ℕ → α) → ℕ → β} (hF : IsLinearMap R F)
    (hG : IsLinearMap R G) : IsLinearMap R fun u => F (G u) where
  map_add := fun u v => by rw [hG.map_add, hF.map_add]
  map_smul := fun c u => by rw [hG.map_smul, hF.map_smul]

/-- A block without memory. -/
theorem isLinearMap_map {F : ι → (ℕ → α) → ℕ → β} (hF : ∀ j, IsLinearMap R (F j))
    {f : (ι → β) → γ} (hf : IsLinearMap R f) : IsLinearMap R fun u n => f fun j => F j u n where
  map_add := fun u v => by
    ext n
    simp only [(hF _).map_add, Pi.add_apply]
    exact hf.map_add _ _
  map_smul := fun c u => by
    ext n
    simp only [(hF _).map_smul, Pi.smul_apply]
    exact hf.map_smul _ _

/-- A linear operation at every tick is linear on streams. -/
theorem isLinearMap_map₁ {F : (ℕ → α) → ℕ → β} (hF : IsLinearMap R F) {f : β → γ}
    (hf : IsLinearMap R f) : IsLinearMap R fun u n => f (F u n) where
  map_add := fun u v => by
    ext n
    simp only [hF.map_add, Pi.add_apply, hf.map_add]
  map_smul := fun c u => by
    ext n
    simp only [hF.map_smul, Pi.smul_apply, hf.map_smul]

/-- A block with two inputs and without memory. -/
theorem isLinearMap_map₂ {F : (ℕ → α) → ℕ → β} {G : (ℕ → α) → ℕ → σ} (hF : IsLinearMap R F)
    (hG : IsLinearMap R G) {f : β → σ → γ} (hf : IsLinearMap R fun z : β × σ => f z.1 z.2) :
    IsLinearMap R fun u n => f (F u n) (G u n) where
  map_add := fun u v => by
    ext n
    simp only [hF.map_add, hG.map_add, Pi.add_apply]
    exact hf.map_add (F u n, G u n) (F v n, G v n)
  map_smul := fun c u => by
    ext n
    simp only [hF.map_smul, hG.map_smul, Pi.smul_apply]
    exact hf.map_smul c (F u n, G u n)

/-- **A loop of linear blocks is linear**: sums and multiples of its solutions solve its
    equations. -/
theorem isLinearMap_loopWord {D : ℕ} {g : β → σ → σ} {f : α → σ → β} (hD : 0 < D)
    (hg : IsLinearMap R fun z : β × σ => g z.1 z.2)
    (hf : IsLinearMap R fun z : α × σ => f z.1 z.2) : IsLinearMap R (loopWord D g f) where
  map_add := fun u v => by
    refine (loop_unique hD (r := loopRegister D g f u + loopRegister D g f v) (fun n => ?_)
      fun n => ?_).1.symm
    -- the equation of the register, then the one of the word
    · simp only [(isLinearMap_delay (R := R) _).map_add, Pi.add_apply, loopRegister_eq hD n]
      exact (hg.map_add (_, _) (_, _)).symm
    · simp only [Pi.add_apply, loopWord_eq]
      exact (hf.map_add (u n, _) (v n, _)).symm
  map_smul := fun c u => by
    refine (loop_unique hD (r := c • loopRegister D g f u) (fun n => ?_) fun n => ?_).1.symm
    · simp only [(isLinearMap_delay (R := R) _).map_smul, Pi.smul_apply, loopRegister_eq hD n]
      exact (hg.map_smul c (_, _)).symm
    · simp only [Pi.smul_apply, loopWord_eq]
      exact (hf.map_smul c (u n, _)).symm

end

end Streams
