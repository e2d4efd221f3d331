import Mathlib.Tactic.FinCases
import ReverbFPGA.Lib.Batched
import ReverbFPGA.Software.MainLoop

namespace Reverb

/-!
# The main loop, write by write

The hardware runs on while the processor makes one write after the other, and sees what the
registers hold in between.  `bus_refines_loop` is the refinement of the loop with whole iterations
by the one with single writes: at any time the parameter registers hold what they hold after
a whole number of iterations.  The first three writes of an iteration repeat what is there, the
fourth changes the register of the selected parameter, the others go to the displays.
-/

open Batched Clocked

namespace App

/-! ### The writes of an iteration -/

/-- A write to the register of a parameter or to a display. -/
inductive BusWrite where
  | param (p : ParamType) (word : ℕ)
  | hex (i byte : ℕ)

/-- The registers of the ports. -/
@[ext]
structure Ports where
  params : Params
  hex : Fin 6 → BitVec 6

/-- `alt_write_word` and `alt_write_byte`. -/
def Ports.write (q : Ports) : BusWrite → Ports
  | .param p word => { q with params := q.params.write p word }
  | .hex i byte => { q with hex := fun j => if j.val = i then BitVec.ofNat 6 byte else q.hex j }

variable (fl : ℚ → ℚ)

/-- The write of the register of a parameter. -/
def paramWrite (p : ParamType) (v : ParamType → ℚ) : BusWrite := .param p (paramWord fl p (v p))

/-- The writes of `initParamValue`. -/
def initWrites (v : ParamType → ℚ) : List BusWrite :=
  [paramWrite fl .mix v, paramWrite fl .decay v, paramWrite fl .damping v]

/-- The writes of `updateParamValue` to the displays. -/
def displayWrites (p : ParamType) (v : ParamType → ℚ) : List BusWrite :=
  let valueToDisplay := valueToDisplay fl p (v p)
  let hundred := valueToDisplay / 100
  let ten := (valueToDisplay - 100 * hundred) / 10
  let unit := valueToDisplay - 100 * hundred - 10 * ten
  if p = .noneParam then
    [.hex 5 0b111111, .hex 4 0b111111, .hex 3 0b111111, .hex 2 0b111111, .hex 1 0b111111,
      .hex 0 0b111111]
  else
    [.hex 5 ((stringToDisplay p).1.toNat - 'A'.toNat + 10),
      .hex 4 ((stringToDisplay p).2.toNat - 'A'.toNat + 10), .hex 3 0b111110, .hex 2 hundred,
      .hex 1 ten, .hex 0 unit]

/-- The values after the update. -/
def nextValue (v : ParamType → ℚ) (r : Readings) : ParamType → ℚ :=
  Function.update v r.paramType (updatedValue fl r.paramType r.updateType (v r.paramType))

/-- The write of the `switch` in `updateParamValue`. -/
def updateWrites (p : ParamType) (v : ParamType → ℚ) : List BusWrite :=
  if p = .noneParam then [] else [paramWrite fl p v]

/-- The main loop, with the writes of an iteration in the order of the source. -/
def program : Program (ParamType → ℚ) Ports BusWrite Readings where
  write := Ports.write
  next := nextValue fl
  writes v r := initWrites fl v ++ updateWrites fl r.paramType (nextValue fl v r) ++
    displayWrites fl r.paramType (nextValue fl v r)

/-- The variables and the ports. -/
def parts (s : App) : (ParamType → ℚ) × Ports := (s.currentParamValue, ⟨s.params, s.hex⟩)

/-- The display is written with writes to the displays only. -/
theorem displayWrites_hex (p : ParamType) (v : ParamType → ℚ) :
    ∀ w ∈ displayWrites fl p v, ∃ i byte, w = .hex i byte := by
  intro w hw
  unfold displayWrites at hw
  split_ifs at hw <;> simp only [List.mem_cons, List.not_mem_nil, or_false] at hw <;>
    rcases hw with rfl | rfl | rfl | rfl | rfl | rfl <;> exact ⟨_, _, rfl⟩

/-- Writes to the displays leave the parameters alone. -/
theorem foldl_hex_params {ws : List BusWrite} (h : ∀ w ∈ ws, ∃ i byte, w = .hex i byte)
    (q : Ports) : (ws.foldl Ports.write q).params = q.params := by
  induction ws generalizing q with
  | nil => rfl
  | cons w ws ih =>
    obtain ⟨i, byte, rfl⟩ := h w List.mem_cons_self
    rw [List.foldl_cons, ih fun w' hw' => h w' (List.mem_cons_of_mem _ hw')]
    rfl

/-- They show what `display` shows, whatever was there before. -/
theorem foldl_displayWrites_hex (s : App) (p : ParamType) (q : Ports) :
    ((displayWrites fl p s.currentParamValue).foldl Ports.write q).hex = (s.display fl p).hex := by
  unfold displayWrites display
  ext1 j
  split_ifs <;> fin_cases j <;> rfl

/-- What the displays hold after an update is what the display function alone would put there. -/
theorem updateParamValue_hex_eq_display (p : ParamType) (u : UpdateType) (s : App) :
    (s.updateParamValue fl p u).hex = ((s.updateParamValue fl p u).display fl p).hex := by
  cases p <;> rfl

/-- The parameters after the writes of `initParamValue` and of the `switch`. -/
theorem iteration_params (s : App) (r : Readings) :
    (s.iteration fl r).params = ((updateWrites fl r.paramType
      (s.iteration fl r).currentParamValue).foldl Ports.write
        ⟨(s.initParamValue fl).params, s.hex⟩).params := by
  unfold updateWrites iteration
  split_ifs with hp
  · rw [hp, (updateParamValue_noneParam fl _ _).1]
    rfl
  · rw [updateParamValue_params fl hp]
    rfl

/-- **All writes of an iteration** make the iteration. -/
theorem whole_parts (s : App) (r : Readings) :
    (program fl).whole s.parts r = (s.iteration fl r).parts := by
  have hvalue : nextValue fl s.currentParamValue r = (s.iteration fl r).currentParamValue :=
    (iteration_currentParamValue fl s r).symm
  have hports : ((program fl).whole s.parts r).2 =
      (displayWrites fl r.paramType (s.iteration fl r).currentParamValue).foldl Ports.write
        ((updateWrites fl r.paramType (s.iteration fl r).currentParamValue).foldl Ports.write
          ⟨(s.initParamValue fl).params, s.hex⟩) := by
    rw [← hvalue, ← List.foldl_append]
    rfl
  refine Prod.ext hvalue ?_
  rw [hports]
  apply Ports.ext
  · rw [foldl_hex_params (displayWrites_hex fl _ _), ← iteration_params]
    rfl
  · rw [foldl_displayWrites_hex]
    exact (updateParamValue_hex_eq_display fl r.paramType r.updateType _).symm

/-- **Run of whole events.** They are the iterations of the loop. -/
theorem foldl_whole_parts (s : App) (rs : List Readings) :
    rs.foldl (program fl).whole s.parts = (rs.foldl (iteration fl) s).parts := by
  induction rs generalizing s with
  | nil => rfl
  | cons r rs ih => rw [List.foldl_cons, List.foldl_cons, whole_parts, ih]

/-! ### In the middle of an iteration -/

/-- The registers of the mix, the decay and the damping hold what `initParamValue` writes. -/
def Refreshed (s : App) : Prop :=
  ∀ p, p ≠ .noneParam → p ≠ .predelay →
    s.params.read p = paramWord fl p (s.currentParamValue p) % 2 ^ p.dataWidth

/-- An iteration refreshes the registers, whatever they held. -/
theorem refreshed_iteration (s : App) (r : Readings) : Refreshed fl (s.iteration fl r) := by
  intro p hp hpre
  rw [iteration_read_low fl s r hp, if_neg fun h => hpre h.1]

/-- A word that a register holds already. -/
theorem write_of_read {r : Params} {p : ParamType} {word : ℕ}
    (h : r.read p = word % 2 ^ p.dataWidth) : r.write p word = r := by
  have hkeep : ∀ {w : ℕ} {x : BitVec w}, x.toNat = word % 2 ^ w → BitVec.ofNat w word = x := by
    intro w x hx
    apply BitVec.eq_of_toNat_eq
    rw [BitVec.toNat_ofNat, hx]
  cases p with
  | noneParam => rfl
  | mix | predelay | decay | damping => simp only [Params.write, hkeep h]

/-- Every write of `initParamValue` puts the word of a parameter other than the predelay. -/
theorem mem_initWrites {v : ParamType → ℚ} {w : BusWrite} (hw : w ∈ initWrites fl v) :
    ∃ p, p ≠ .noneParam ∧ p ≠ .predelay ∧ w = paramWrite fl p v := by
  simp only [initWrites, List.mem_cons, List.not_mem_nil, or_false] at hw
  rcases hw with rfl | rfl | rfl
  · exact ⟨.mix, by decide, by decide, rfl⟩
  · exact ⟨.decay, by decide, by decide, rfl⟩
  · exact ⟨.damping, by decide, by decide, rfl⟩

/-- Of refreshed registers the writes of `initParamValue` change none. -/
theorem foldl_initWrites_params {s : App} (h : Refreshed fl s) {ws : List BusWrite}
    (hws : ∀ w ∈ ws, w ∈ initWrites fl s.currentParamValue) (q : Ports)
    (hq : q.params = s.params) : (ws.foldl Ports.write q).params = s.params := by
  induction ws generalizing q with
  | nil => exact hq
  | cons w ws ih =>
    rw [List.foldl_cons]
    refine ih (fun w' hw' => hws w' (List.mem_cons_of_mem w hw')) _ ?_
    obtain ⟨p, hp, hpre, rfl⟩ := mem_initWrites fl (hws w List.mem_cons_self)
    show q.params.write p _ = s.params
    rw [hq]
    exact write_of_read (h p hp hpre)

/-- They never change the predelay register. -/
theorem foldl_initWrites_predelay {v : ParamType → ℚ} {ws : List BusWrite}
    (hws : ∀ w ∈ ws, w ∈ initWrites fl v) (q : Ports) :
    (ws.foldl Ports.write q).params.preDelayValue = q.params.preDelayValue := by
  induction ws generalizing q with
  | nil => rfl
  | cons w ws ih =>
    rw [List.foldl_cons, ih fun w' hw' => hws w' (List.mem_cons_of_mem w hw')]
    obtain ⟨p, -, hpre, rfl⟩ := mem_initWrites fl (hws w List.mem_cons_self)
    cases p with
    | predelay => exact absurd rfl hpre
    | mix | decay | damping | noneParam => rfl

/-- Six displays are written, with letters or with dashes. -/
theorem length_displayWrites (p : ParamType) (v : ParamType → ℚ) :
    (displayWrites fl p v).length = 6 := by
  unfold displayWrites
  split_ifs <;> rfl

/-- An update writes one register, or none without a parameter. -/
theorem length_updateWrites_le (p : ParamType) (v : ParamType → ℚ) :
    (updateWrites fl p v).length ≤ 1 := by
  unfold updateWrites
  split_ifs <;> simp

/-- An iteration makes nine or ten writes. -/
theorem length_writes (v : ParamType → ℚ) (r : Readings) :
    9 ≤ ((program fl).writes v r).length ∧ ((program fl).writes v r).length ≤ 10 := by
  have hup := length_updateWrites_le fl r.paramType (nextValue fl v r)
  -- three registers are refreshed, one may be updated, and six displays are written
  have hlen : ((program fl).writes v r).length =
      3 + (updateWrites fl r.paramType (nextValue fl v r)).length + 6 := by
    rw [← length_displayWrites fl r.paramType (nextValue fl v r)]
    simp [program, initWrites]
    ring
  omega

/-- **Between two writes** of an iteration, with six writes pending or fewer: the parameters
    are those after the iteration. -/
theorem params_late (s : App) (r : Readings) {made pending : List BusWrite}
    (h : made ++ pending = (program fl).writes s.currentParamValue r) (hlate : pending.length ≤ 6) :
    (made.foldl Ports.write ⟨s.params, s.hex⟩).params = (s.iteration fl r).params := by
  have hpending : pending <:+ (program fl).writes s.currentParamValue r := by
    rw [← h]
    exact List.suffix_append _ _
  -- the last six writes of an iteration are those of the displays
  have hdisplay : displayWrites fl r.paramType (nextValue fl s.currentParamValue r) <:+
      (program fl).writes s.currentParamValue r := List.suffix_append _ _
  have hsuffix := List.suffix_of_suffix_length_le hpending hdisplay
    (by rwa [length_displayWrites])
  calc (made.foldl Ports.write ⟨s.params, s.hex⟩).params
      = (pending.foldl Ports.write (made.foldl Ports.write ⟨s.params, s.hex⟩)).params :=
        (foldl_hex_params (fun w hw => displayWrites_hex fl _ _ w (hsuffix.subset hw)) _).symm
    _ = ((program fl).whole s.parts r).2.params := by rw [← List.foldl_append, h]; rfl
    _ = _ := by rw [whole_parts]; rfl

/-- With more than six pending only writes of `initParamValue` are made. -/
theorem made_early {v : ParamType → ℚ} {r : Readings} {made pending : List BusWrite}
    (h : made ++ pending = (program fl).writes v r) (hearly : 6 < pending.length) :
    ∀ w ∈ made, w ∈ initWrites fl v := by
  have hlen := congrArg List.length h
  have hup := length_updateWrites_le fl r.paramType (nextValue fl v r)
  have hwrites : (program fl).writes v r = initWrites fl v ++
      (updateWrites fl r.paramType (nextValue fl v r) ++
        displayWrites fl r.paramType (nextValue fl v r)) := List.append_assoc _ _ _
  rw [hwrites] at h hlen
  rw [List.length_append, List.length_append, List.length_append, length_displayWrites] at hlen
  -- so what has been made is a part of the three writes of `initParamValue`
  have hprefix : made <+: initWrites fl v :=
    List.prefix_of_prefix_length_le (h ▸ List.prefix_append _ _) (List.prefix_append _ _) (by omega)
  exact fun w hw => hprefix.subset hw

/-! ### Runs -/

section
variable (params : Params) (hex : Fin 6 → BitVec 6) (readings : ℕ → Readings)

/-- The loop, one write or one poll of the input ports at a step. -/
abbrev bus : ℕ → State (ParamType → ℚ) Ports BusWrite :=
  (program fl).steps (start fl params hex).currentParamValue ⟨params, hex⟩ readings

/-- The readings whose parameter has been written. -/
def committed (t : ℕ) : List Readings :=
  let taken := (program fl).taken (start fl params hex).currentParamValue ⟨params, hex⟩ readings t
  if 6 < (bus fl params hex readings t).pending.length then taken.dropLast else taken

end

variable {fl} {params : Params} {hex : Fin 6 → BitVec 6} {readings : ℕ → Readings} {t : ℕ}

/-- At every step the ports are between two iterations, or some writes into one. -/
theorem bus_split (fl : ℚ → ℚ) (params : Params) (hex : Fin 6 → BitVec 6) (readings : ℕ → Readings)
    (t : ℕ) : Program.Split (program fl) (start fl params hex).parts
    (bus fl params hex readings t)
    ((program fl).taken (start fl params hex).currentParamValue ⟨params, hex⟩ readings t) :=
  Program.run_split _ _ _ t

/-- What is pending belongs to an iteration. -/
theorem bus_pending_length (fl : ℚ → ℚ) (params : Params) (hex : Fin 6 → BitVec 6)
    (readings : ℕ → Readings) (t : ℕ) : (bus fl params hex readings t).pending.length ≤ 10 := by
  rcases (bus_split fl params hex readings t).2 with
    ⟨hnil, -⟩ | ⟨rs, e, made, -, hmade, -⟩
  · simp [hnil]
  · have hlen := congrArg List.length hmade
    have hle := (length_writes fl (rs.foldl (program fl).whole (start fl params hex).parts).1 e).2
    rw [List.length_append] at hlen
    omega

/-- Writes are pending only after a reading. -/
theorem taken_ne_nil (h : (bus fl params hex readings t).pending ≠ []) :
    (program fl).taken (start fl params hex).currentParamValue ⟨params, hex⟩ readings t ≠ [] := by
  rcases (bus_split fl params hex readings t).2 with
    ⟨hnil, -⟩ | ⟨rs, e, made, htaken, -, -⟩
  · exact absurd hnil h
  · rw [htaken]
    simp

/-- **One step**: a reading is committed with the write that leaves six. -/
theorem committed_succ (t : ℕ) :
    committed fl params hex readings (t + 1) =
      if (bus fl params hex readings t).pending.length = 7 then
        (program fl).taken (start fl params hex).currentParamValue ⟨params, hex⟩ readings t
      else committed fl params hex readings t := by
  cases hs : (bus fl params hex readings t).pending with
  | nil =>
    have hnext : (bus fl params hex readings (t + 1)).pending =
        (program fl).writes (bus fl params hex readings t).inner (readings t) := by
      rw [bus, Program.steps, run_succ, Program.step_idle hs]
    have hlen := (length_writes fl (bus fl params hex readings t).inner (readings t)).1
    rw [← hnext] at hlen
    -- a reading that has just been taken in is not committed
    rw [if_neg (by simp), committed, committed, if_pos (by omega), Program.taken_succ_idle hs,
      List.dropLast_concat, hs]
    rfl
  | cons w ws =>
    have hnext : (bus fl params hex readings (t + 1)).pending = ws := by
      rw [bus, Program.steps, run_succ, Program.step_pending hs]
    rw [committed, committed, Program.taken_succ_pending (by rw [hs]; exact List.cons_ne_nil w ws),
      hnext, hs, List.length_cons]
    -- the write that leaves six is the one that commits
    split_ifs <;> first | rfl | omega

/-- A committed reading was on the input ports at some step. -/
theorem exists_of_mem_committed {r : Readings} (h : r ∈ committed fl params hex readings t) :
    ∃ k, readings k = r := by
  have hmem : r ∈ (program fl).taken (start fl params hex).currentParamValue ⟨params, hex⟩
      readings t := by
    unfold committed at h
    split_ifs at h
    · exact List.mem_of_mem_dropLast h
    · exact h
  exact Program.exists_of_mem_taken hmem

/-- The reading that is committed is the one after those before. -/
theorem committed_seven (h7 : (bus fl params hex readings t).pending.length = 7) :
    ∃ r, committed fl params hex readings (t + 1) = committed fl params hex readings t ++ [r] := by
  -- the reading of the writes under way
  have hpending : (bus fl params hex readings t).pending ≠ [] := fun hnil => by simp [hnil] at h7
  have hdrop : committed fl params hex readings t = List.dropLast _ := if_pos (by omega)
  refine ⟨List.getLast _ (taken_ne_nil hpending), ?_⟩
  rw [committed_succ, if_pos h7, hdrop, List.dropLast_append_getLast]

/-- **Step of the bus.** It commits the next reading or none. -/
theorem committed_grows (t : ℕ) :
    committed fl params hex readings t <+: committed fl params hex readings (t + 1) ∧
      (committed fl params hex readings (t + 1)).length ≤
        (committed fl params hex readings t).length + 1 := by
  by_cases h7 : (bus fl params hex readings t).pending.length = 7
  · obtain ⟨r, hr⟩ := committed_seven h7
    rw [hr, List.length_append]
    exact ⟨List.prefix_append _ _, le_rfl⟩
  · rw [committed_succ, if_neg h7]
    exact ⟨List.prefix_rfl, Nat.le_succ _⟩

/-- How many steps away the next commit is. -/
def toCommit (pending : List BusWrite) : ℕ :=
  if 6 < pending.length then pending.length - 6 else pending.length + 5

/-- A step that commits nothing comes closer to the one that does. -/
theorem toCommit_succ (h7 : (bus fl params hex readings t).pending.length ≠ 7) :
    toCommit (bus fl params hex readings (t + 1)).pending <
      toCommit (bus fl params hex readings t).pending := by
  cases hs : (bus fl params hex readings t).pending with
  | nil =>
    have hnext : (bus fl params hex readings (t + 1)).pending =
        (program fl).writes (bus fl params hex readings t).inner (readings t) := by
      rw [bus, Program.steps, run_succ, Program.step_idle hs]
    have hlen := length_writes fl (bus fl params hex readings t).inner (readings t)
    -- the count starts again with the nine or ten writes of a new iteration
    rw [hnext, toCommit, toCommit, if_pos (by omega), List.length_nil, if_neg (by omega)]
    omega
  | cons w ws =>
    have hnext : (bus fl params hex readings (t + 1)).pending = ws := by
      rw [bus, Program.steps, run_succ, Program.step_pending hs]
    rw [hs, List.length_cons] at h7
    rw [hnext, toCommit, toCommit, List.length_cons]
    split_ifs <;> omega

/-- By the number of steps still to go, one more reading is committed. -/
theorem committed_lt {k : ℕ} (hk : toCommit (bus fl params hex readings t).pending ≤ k) :
    (committed fl params hex readings t).length <
      (committed fl params hex readings (t + k)).length := by
  have hmono : Monotone fun t => (committed fl params hex readings t).length :=
    monotone_nat_of_le_succ fun t => (committed_grows t).1.length_le
  induction k generalizing t with
  | zero =>
    unfold toCommit at hk
    split_ifs at hk <;> omega
  | succ k ih =>
    by_cases h7 : (bus fl params hex readings t).pending.length = 7
    -- the next step commits, and nothing that is committed is lost
    · refine lt_of_lt_of_le ?_ (hmono (by omega : t + 1 ≤ t + (k + 1)))
      show _ < (committed fl params hex readings (t + 1)).length
      obtain ⟨r, hr⟩ := committed_seven h7
      rw [hr, List.length_append]
      exact Nat.lt_succ_self _
    · have hlt := toCommit_succ h7
      refine lt_of_le_of_lt (committed_grows t).1.length_le ?_
      rw [← Nat.add_assoc, Nat.add_right_comm]
      exact ih (by omega)

/-- The loop up to the last reading that is committed. -/
abbrev loop (fl : ℚ → ℚ) (params : Params) (hex : Fin 6 → BitVec 6) (readings : ℕ → Readings)
    (t : ℕ) : App :=
  (committed fl params hex readings t).foldl (iteration fl) (start fl params hex)

/-- With no write pending the ports are those of the loop. -/
theorem bus_idle (hnil : (bus fl params hex readings t).pending = []) :
    (bus fl params hex readings t).outer =
      ⟨(loop fl params hex readings t).params, (loop fl params hex readings t).hex⟩ := by
  have hdone : committed fl params hex readings t = (program fl).taken _ _ readings t :=
    if_neg (by simp [hnil])
  rw [(bus_split fl params hex readings t).idle hnil, ← hdone, foldl_whole_parts]
  rfl

/-- In between, the parameters are those of the loop, or some writes of `initParamValue` have
    been made on top. -/
theorem bus_params (fl : ℚ → ℚ) (params : Params) (hex : Fin 6 → BitVec 6) (readings : ℕ → Readings)
    (t : ℕ) :
    (bus fl params hex readings t).outer.params = (loop fl params hex readings t).params ∨
      ∃ made : List BusWrite,
        (∀ w ∈ made, w ∈ initWrites fl (loop fl params hex readings t).currentParamValue) ∧
        (bus fl params hex readings t).outer = made.foldl Ports.write
          ⟨(loop fl params hex readings t).params, (loop fl params hex readings t).hex⟩ := by
  rcases (bus_split fl params hex readings t).2 with
    ⟨hnil, -⟩ | ⟨rs, e, made, htaken, hmade, houter⟩
  · rw [bus_idle hnil]
    exact Or.inl rfl
  rw [foldl_whole_parts] at hmade houter
  by_cases hearly : 6 < (bus fl params hex readings t).pending.length
  -- the last event has not changed its register
  · have hdone : committed fl params hex readings t = rs := by
      have hdrop : committed fl params hex readings t = List.dropLast _ := if_pos hearly
      rw [hdrop, htaken, List.dropLast_concat]
    rw [loop, hdone]
    exact Or.inr ⟨made, made_early fl hmade hearly, houter⟩
  · have hdone : committed fl params hex readings t = rs ++ [e] := by
      have hall : committed fl params hex readings t = _ := if_neg hearly
      rw [hall, htaken]
    rw [loop, hdone, List.foldl_concat, houter]
    exact Or.inl (params_late fl _ e hmade (by omega))

/-- The predelay register is the one of the loop, from the start on. -/
theorem bus_predelay (t : ℕ) : (bus fl params hex readings t).outer.params.preDelayValue =
    (loop fl params hex readings t).params.preDelayValue := by
  rcases bus_params fl params hex readings t with
    h | ⟨made, hmade, houter⟩
  · rw [h]
  · rw [houter, foldl_initWrites_predelay fl hmade]

/-- **The loop, write by write, refines the loop.**  At any step the parameter registers hold what
    they hold after all the iterations whose parameter has been written, once there is one; with
    no write pending the displays do so too.  These iterations are the first readings that the
    loop has taken in, in their order; there is one more with every eleventh step at the latest,
    and never two more with one step. -/
theorem bus_refines_loop (fl : ℚ → ℚ) (params : Params) (hex : Fin 6 → BitVec 6)
    (readings : ℕ → Readings) (t : ℕ) :
    let ports := (bus fl params hex readings t).outer
    let done := committed fl params hex readings
    let app := (done t).foldl (iteration fl) (start fl params hex)
    (done t ≠ [] → ports.params = app.params) ∧
    ((bus fl params hex readings t).pending = [] → ports = ⟨app.params, app.hex⟩) ∧
    (done t <+: done (t + 1) ∧ (done (t + 1)).length ≤ (done t).length + 1) ∧
    (done t).length < (done (t + 11)).length := by
  intro ports done app
  refine ⟨fun hne => ?_, bus_idle, committed_grows t, ?_⟩
  · have hrefreshed : Refreshed fl app := by
      have happ : app = (done t).foldl (iteration fl) (start fl params hex) := rfl
      rw [happ, ← List.dropLast_append_getLast hne, List.foldl_concat]
      exact refreshed_iteration fl _ _
    rcases bus_params fl params hex readings t with
      h | ⟨made, hmade, houter⟩
    · exact h
    · exact (congrArg Ports.params houter).trans (foldl_initWrites_params fl hrefreshed hmade _ rfl)
  · apply committed_lt
    have hlen := bus_pending_length fl params hex readings t
    unfold toCommit
    split_ifs <;> omega

end App

end Reverb
