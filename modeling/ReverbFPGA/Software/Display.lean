import ReverbFPGA.Hardware.Diagram
import ReverbFPGA.Software.FloatRuns
import ReverbFPGA.Software.Predelay

namespace Reverb

/-!
# The seven-segment displays

From the value of a parameter to the segments that light up: `updateParamValue` writes two letters
and three decimal digits to the ports of the six displays, and a `segDecod` behind each port
switches its segments.

* `display_reads_back` — after every iteration, and with any rounding, the displays show dashes if
  no parameter is selected, and otherwise its two letters and a number: its value in
  percent or milliseconds, cut off or rounded up (`valueToDisplay_between`);
* `display_tells_echo` — the number shown for the predelay against the delay of the first echo in
  the hardware.
-/

open Clocked Rounding

/-! ### The decoder and its reader -/

/-- `segDecod.vhd`: the digits, the letters from 10 on and a dash. -/
def segDecod (valueIN : BitVec 6) : BitVec 7 :=
  match valueIN.toNat with
  | 0b000000 => 0b1000000
  | 0b000001 => 0b1111001
  | 0b000010 => 0b0100100
  | 0b000011 => 0b0110000
  | 0b000100 => 0b0011001
  | 0b000101 => 0b0010010
  | 0b000110 => 0b0000010
  | 0b000111 => 0b1111000
  | 0b001000 => 0b0000000
  | 0b001001 => 0b0010000
  | 0b001010 => 0b0001000
  | 0b001011 => 0b0000011
  | 0b001100 => 0b0100111
  | 0b001101 => 0b0100001
  | 0b001110 => 0b0000110
  | 0b001111 => 0b0001110
  | 0b010000 => 0b1111111
  | 0b010001 => 0b0001011
  | 0b010010 => 0b1111001
  | 0b010011 => 0b1110001
  | 0b010100 => 0b1111111
  | 0b010101 => 0b1111111
  | 0b010110 => 0b1001000
  | 0b010111 => 0b0101011
  | 0b011000 => 0b0100011
  | 0b011001 => 0b0001100
  | 0b011010 => 0b0011000
  | 0b011011 => 0b0101111
  | 0b011100 => 0b0010010
  | 0b011101 => 0b1111111
  | 0b011110 => 0b1000001
  | 0b011111 => 0b1111111
  | 0b100000 => 0b1111111
  | 0b100001 => 0b0001001
  | 0b100010 => 0b1111111
  | 0b100011 => 0b1111111
  | 0b111111 => 0b0111111
  -- off, as for the letters that seven segments do not show
  | _ => 0b1111111

/-- The segments that light up, `a` from the lowest bit on: those with a 0. -/
def litSegments (segOUT : BitVec 7) : List Char :=
  ((List.range 7).filter fun i => !segOUT.getLsbD i).map fun i => Char.ofNat ('a'.toNat + i)

/-- The segments of a digit: `a` above, `g` in the middle and `d` below, `b` and `c` on the right,
    `f` and `e` on the left. -/
def digitShape : ℕ → List Char
  | 0 => ['a', 'b', 'c', 'd', 'e', 'f']
  | 1 => ['b', 'c']
  | 2 => ['a', 'b', 'd', 'e', 'g']
  | 3 => ['a', 'b', 'c', 'd', 'g']
  | 4 => ['b', 'c', 'f', 'g']
  | 5 => ['a', 'c', 'd', 'f', 'g']
  | 6 => ['a', 'c', 'd', 'e', 'f', 'g']
  | 7 => ['a', 'b', 'c']
  | 8 => ['a', 'b', 'c', 'd', 'e', 'f', 'g']
  | 9 => ['a', 'b', 'c', 'd', 'f', 'g']
  | _ => []

/-- The digit that a display shows. -/
def readDigit (segOUT : BitVec 7) : Option ℕ :=
  (List.range 10).find? fun d => digitShape d = litSegments segOUT

/-- The number that three displays show. -/
def readNumber (hundred ten unit : BitVec 7) : Option ℕ :=
  (readDigit hundred).bind fun h => (readDigit ten).bind fun t => (readDigit unit).map fun u =>
    100 * h + 10 * t + u

/-- The parameter whose letters two displays show. -/
def readParam (first second : BitVec 7) : Option ParamType :=
  [ParamType.mix, .predelay, .decay, .damping].find? fun p =>
    segDecod (BitVec.ofNat 6 ((stringToDisplay p).1.toNat - 'A'.toNat + 10)) = first ∧
      segDecod (BitVec.ofNat 6 ((stringToDisplay p).2.toNat - 'A'.toNat + 10)) = second

/-- What the six displays show. -/
def shownParam (hex : Fin 6 → BitVec 6) : Option ParamType :=
  readParam (segDecod (hex 5)) (segDecod (hex 4))

/-- The number on the three rightmost displays, if they show digits. -/
def shownNumber (hex : Fin 6 → BitVec 6) : Option ℕ :=
  readNumber (segDecod (hex 2)) (segDecod (hex 1)) (segDecod (hex 0))

/-- The decoder draws the digits. -/
theorem readDigit_segDecod {d : ℕ} (hd : d < 10) :
    readDigit (segDecod (BitVec.ofNat 6 d)) = some d := by
  revert d
  decide

/-- Three displays read back as the number whose digits they were given. -/
theorem readNumber_segDecod {d : ℕ} (hd : d < 1000) :
    readNumber (segDecod (BitVec.ofNat 6 (d / 100)))
      (segDecod (BitVec.ofNat 6 ((d - 100 * (d / 100)) / 10)))
      (segDecod (BitVec.ofNat 6 (d - 100 * (d / 100) - 10 * ((d - 100 * (d / 100)) / 10)))) =
    some d := by
  unfold readNumber
  rw [readDigit_segDecod (by omega), readDigit_segDecod (by omega), readDigit_segDecod (by omega)]
  simp
  omega

/-- The letters tell the parameters apart. -/
theorem readParam_segDecod {p : ParamType} (hp : p ≠ .noneParam) :
    readParam (segDecod (BitVec.ofNat 6 ((stringToDisplay p).1.toNat - 'A'.toNat + 10)))
      (segDecod (BitVec.ofNat 6 ((stringToDisplay p).2.toNat - 'A'.toNat + 10))) = some p := by
  cases p with
  | noneParam => exact absurd rfl hp
  | mix | predelay | decay | damping => decide

namespace App

variable {fl : ℚ → ℚ} {p : ParamType} {v : ℚ}

/-! ### The number -/

/-- What the displays count: milliseconds for the predelay, `1000 * 12 * 1024 / 48000` of them for
    the value 1, or percent. -/
def displayScale (p : ParamType) : ℕ := if p = .predelay then 256 else 100

/-- Under every rounding of the model the upper bounds stay at one or below. -/
theorem paramValueMAX_le_one_of (h : Rounds 24 fl) (p : ParamType) : paramValueMAX fl p ≤ 1 := by
  have hle : ∀ {x : ℚ}, 0 ≤ x → x ≤ 1 → fl x ≤ 1 := by
    intro x h0 h1
    exact_mod_cast h.le_natCast (n := 1) (by norm_num) h0 (by exact_mod_cast h1)
  cases p <;> exact hle (by norm_num) (by norm_num)

theorem paramValueMIN_nonneg_of (h : Rounds 24 fl) (p : ParamType) : 0 ≤ paramValueMIN fl p := by
  cases p <;> exact h.nonneg (by norm_num)

/-- The upper bound of the predelay is exact in any format of 24 bits. -/
theorem paramValueMAX_predelay (h : Rounds 24 fl) :
    paramValueMAX fl .predelay = 1000 / 1024 := by
  have hexact := h.natCast_div (n := 1000) (by norm_num) 10
  norm_num at hexact
  rw [paramValueMAX]
  norm_num
  exact hexact

/-- So is its lower bound. -/
theorem paramValueMIN_predelay (h : Rounds 24 fl) : paramValueMIN fl .predelay = 6 / 1024 := by
  have hexact := h.natCast_div (n := 6) (by norm_num) 10
  norm_num at hexact
  rw [paramValueMIN]
  norm_num
  exact hexact

/-- The three roundings of the predelay in milliseconds pass no natural number. -/
theorem predelay_shown (h : Rounds 24 fl) (h0 : 0 ≤ v) (h1 : v ≤ 1) :
    ⌊256 * v⌋₊ ≤ ⌊fl (fl (fl (1000 * 12) * fl (v * fl 1024)) / fl 48000)⌋₊ ∧
      ⌊fl (fl (fl (1000 * 12) * fl (v * fl 1024)) / fl 48000)⌋₊ ≤ ⌈256 * v⌉₊ := by
  -- the three constants are exact in 24 bits
  have hms : fl (1000 * 12) = (12000 : ℕ) := by
    rw [← h.natCast (n := 12000) (by norm_num)]
    norm_num
  have hline : fl 1024 = (1024 : ℕ) := h.natCast (n := 1024) (by norm_num)
  have hfreq : fl 48000 = (48000 : ℕ) := h.natCast (n := 48000) (by norm_num)
  rw [hms, hline, hfreq]
  have hprod : 0 ≤ v * (1024 : ℕ) := by positivity
  have hfl := h.nonneg hprod
  have hfl' := h.nonneg (x := (12000 : ℕ) * fl (v * (1024 : ℕ))) (by positivity)
  constructor
  -- from below: each rounding stays at or above a natural number that was below it
  · have hk : (⌊256 * v⌋₊ : ℚ) ≤ 256 * v := Nat.floor_le (by linarith)
    have hk' : ⌊256 * v⌋₊ ≤ 256 := Nat.floor_le_of_le (by push_cast; linarith)
    generalize ⌊256 * v⌋₊ = k at hk hk'
    have hs1 := h.natCast_le (n := 4 * k) (by omega) (x := v * (1024 : ℕ))
      (by push_cast; linarith)
    have hs2 := h.natCast_le (n := 48000 * k) (by omega) (x := (12000 : ℕ) * fl (v * (1024 : ℕ)))
      (by push_cast at hs1 ⊢; linarith)
    refine Nat.le_floor (h.natCast_le (by omega) ?_)
    rw [le_div_iff₀ (by norm_num)]
    push_cast at hs2 ⊢
    linarith
  -- from above likewise
  · have hk : 256 * v ≤ (⌈256 * v⌉₊ : ℚ) := Nat.le_ceil _
    have hk' : ⌈256 * v⌉₊ ≤ 256 := Nat.ceil_le.mpr (by push_cast; linarith)
    generalize ⌈256 * v⌉₊ = k at hk hk'
    have hs1 := h.le_natCast (n := 4 * k) (by omega) hprod (by push_cast; linarith)
    have hs2 := h.le_natCast (n := 48000 * k) (by omega) (x := (12000 : ℕ) * fl (v * (1024 : ℕ)))
      (by positivity) (by push_cast at hs1 ⊢; linarith)
    refine Nat.floor_le_of_le (h.le_natCast (by omega) (by positivity) ?_)
    rw [div_le_iff₀ (by norm_num)]
    push_cast at hs2 ⊢
    linarith

/-- **The number** is the value in its unit, cut off or rounded up, and not reduced modulo
    `2 ^ 8`. -/
theorem valueToDisplay_between (h : Rounds 24 fl) (p : ParamType) (hmin : paramValueMIN fl p ≤ v)
    (hmax : v ≤ paramValueMAX fl p) :
    ⌊displayScale p * v⌋₊ ≤ valueToDisplay fl p v ∧
      valueToDisplay fl p v ≤ ⌈displayScale p * v⌉₊ ∧
      valueToDisplay fl p v ≤ if p = .predelay then 250 else 100 := by
  have h0 := le_trans (paramValueMIN_nonneg_of h p) hmin
  have h1 := le_trans hmax (paramValueMAX_le_one_of h p)
  unfold valueToDisplay displayScale
  split_ifs with hp
  · subst hp
    rw [paramValueMAX_predelay h] at hmax
    obtain ⟨hlo, hhi⟩ := predelay_shown h h0 h1
    -- 250 at most, so that the cast to `uint8_t` does not wrap
    have hceil : ⌈256 * v⌉₊ ≤ 250 := Nat.ceil_le.mpr (by push_cast; linarith)
    rw [Nat.mod_eq_of_lt (by omega)]
    exact ⟨by exact_mod_cast hlo, by exact_mod_cast hhi, by omega⟩
  · have hscale : fl 100 = (100 : ℕ) := h.natCast (n := 100) (by norm_num)
    have hceil : ⌈((100 : ℕ) : ℚ) * v⌉₊ ≤ 100 := Nat.ceil_le.mpr (by push_cast; linarith)
    have hnonneg : 0 ≤ ((100 : ℕ) : ℚ) * v := by positivity
    rw [hscale]
    have hlo := h.floor_le hnonneg (by push_cast; linarith)
    have hhi := h.le_ceil hnonneg (by push_cast; linarith)
    rw [Nat.mod_eq_of_lt (by omega)]
    exact ⟨hlo, hhi, by omega⟩

/-! ### After an iteration -/

/-- The displays with a parameter: letters, a blank and the digits of `valueToDisplay`. -/
theorem updateParamValue_hex (fl : ℚ → ℚ) (hp : p ≠ .noneParam) (u : UpdateType) (s : App) :
    let d := valueToDisplay fl p ((s.updateParamValue fl p u).currentParamValue p)
    (s.updateParamValue fl p u).hex = fun
      | 5 => BitVec.ofNat 6 ((stringToDisplay p).1.toNat - 'A'.toNat + 10)
      | 4 => BitVec.ofNat 6 ((stringToDisplay p).2.toNat - 'A'.toNat + 10)
      | 3 => 0b111110
      | 2 => BitVec.ofNat 6 (d / 100)
      | 1 => BitVec.ofNat 6 ((d - 100 * (d / 100)) / 10)
      | 0 => BitVec.ofNat 6 (d - 100 * (d / 100) - 10 * ((d - 100 * (d / 100)) / 10)) := by
  cases p with
  | noneParam => exact absurd rfl hp
  | mix | predelay | decay | damping => rfl

/-- Dashes, with no parameter. -/
theorem iteration_dashes {r : Readings} (hr : r.paramType = .noneParam) (s : App) (i : Fin 6) :
    segDecod ((s.iteration fl r).hex i) = 0b0111111 := by
  have hdash : (s.iteration fl r).hex i = 0b111111 := by
    rw [iteration, hr]
    rfl
  rw [hdash]
  decide

/-- The letters, the blank and the number of the selected parameter. -/
theorem iteration_shown (h : Rounds 24 fl) {s : App} (hs : Bounded fl s) {r : Readings}
    (hr : r.paramType = p) (hp : p ≠ .noneParam) :
    shownParam (s.iteration fl r).hex = some p ∧
      segDecod ((s.iteration fl r).hex 3) = 0b1111111 ∧
      shownNumber (s.iteration fl r).hex =
        some (valueToDisplay fl p ((s.iteration fl r).currentParamValue p)) := by
  have hmax := (valueToDisplay_between h p (hs.iteration h r p).1 (hs.iteration h r p).2).2.2
  have hlt : valueToDisplay fl p ((s.iteration fl r).currentParamValue p) < 1000 := by
    split_ifs at hmax <;> omega
  have hhex := updateParamValue_hex fl hp r.updateType (initParamValue fl s)
  rw [← hr] at hhex hlt ⊢
  rw [← iteration] at hhex
  simp only [shownParam, shownNumber, hhex]
  exact ⟨readParam_segDecod (by rwa [hr]), by decide, readNumber_segDecod hlt⟩

/-- **Run of the loop.** The values stay within the rounded bounds. -/
theorem bounded_run (h : Rounds 24 fl) (params : Params) (hex : Fin 6 → BitVec 6)
    (readings : ℕ → Readings) (n : ℕ) :
    Bounded fl (run (iteration fl) (start fl params hex) readings n) := by
  induction n with
  | zero => exact bounded_start h params hex
  | succ n ih => exact ih.iteration h (readings n)

/-- **What the displays show.**  After every iteration, from the start and with any readings and
    rounding: dashes if the iteration selects no parameter; otherwise the two letters of the
    parameter, a blank, and a number, its value in percent or milliseconds, cut off or rounded
    up. -/
theorem display_reads_back (h : Rounds 24 fl) (params : Params) (hex : Fin 6 → BitVec 6)
    (readings : ℕ → Readings) (n : ℕ) :
    let app := run (iteration fl) (start fl params hex) readings (n + 1)
    let p := (readings n).paramType
    (p = .noneParam → ∀ i, litSegments (segDecod (app.hex i)) = ['g']) ∧
    (p ≠ .noneParam → shownParam app.hex = some p ∧ litSegments (segDecod (app.hex 3)) = [] ∧
      ∃ d, shownNumber app.hex = some d ∧
        ⌊displayScale p * app.currentParamValue p⌋₊ ≤ d ∧
        d ≤ ⌈displayScale p * app.currentParamValue p⌉₊) := by
  intro app p
  have hs := bounded_run h params hex readings n
  refine ⟨fun hp i => ?_, fun hp => ?_⟩
  · rw [show segDecod (app.hex i) = 0b0111111 from iteration_dashes hp _ i]
    decide
  · obtain ⟨hparam, hblank, hnumber⟩ := iteration_shown h hs (r := readings n) rfl hp
    -- the iteration leaves the value within the bounds, whatever it was
    have hbounds := hs.iteration h (readings n) p
    obtain ⟨hlo, hhi, -⟩ := valueToDisplay_between h p hbounds.1 hbounds.2
    refine ⟨hparam, ?_, _, hnumber, hlo, hhi⟩
    rw [show segDecod (app.hex 3) = 0b1111111 from hblank]
    decide

/-- In exact arithmetic, with the increment key of the predelay held down for 100000 iterations:
    the letters of the predelay, and 78 or 79 milliseconds. -/
theorem display_reads_back_held :
    let app := run (iteration id) (start id resetParams resetHex) (fun _ => holdIncrement) (99999 + 1)
    shownParam app.hex = some .predelay ∧ ∃ d, shownNumber app.hex = some d ∧ 78 ≤ d ∧ d ≤ 79 := by
  intro app
  obtain ⟨hparam, -, d, hnumber, hlo, hhi⟩ :=
    (display_reads_back (rounds_id 24) resetParams resetHex (fun _ => holdIncrement) 99999).2
      (by decide)
  have hvalue : ((displayScale .predelay : ℕ) : ℚ) * (run (iteration id)
      (start id resetParams resetHex) (fun _ => holdIncrement)
        (99999 + 1)).currentParamValue .predelay = 783 / 10 := by
    rw [predelay_held]
    norm_num [displayScale]
  rw [show holdIncrement.paramType = .predelay by decide] at hparam hlo hhi
  rw [hvalue] at hlo hhi
  have hfloor : 78 ≤ ⌊(783 / 10 : ℚ)⌋₊ := Nat.le_floor (by norm_num)
  have hceil : ⌈(783 / 10 : ℚ)⌉₊ ≤ 79 := Nat.ceil_le.mpr (by norm_num)
  exact ⟨hparam, d, hnumber, hfloor.trans hlo, hhi.trans hceil⟩

/-! ### The predelay that is shown and the one that is heard -/

/-- The full scale of ten bits is exact, so that only the product is rounded. -/
theorem paramWord_predelay_eq (h : Rounds 24 fl) (v : ℚ) :
    paramWord fl .predelay v = ⌊fl (1023 * v)⌋₊ := by
  have hfull : fl (2 ^ 10 - 1) = 1023 := by
    rw [show (2 : ℚ) ^ 10 - 1 = (1023 : ℕ) by norm_num, h.natCast (by norm_num)]
    norm_num
  unfold paramWord ParamType.dataWidth
  rw [hfull, mul_comm]

/-- The word of the predelay is cut off or rounded up. -/
theorem paramWord_predelay_between (h : Rounds 24 fl) (h0 : 0 ≤ v) (h1 : v ≤ 1000 / 1024) :
    ⌊1023 * v⌋₊ ≤ paramWord fl .predelay v ∧ paramWord fl .predelay v ≤ ⌈1023 * v⌉₊ := by
  have hnonneg : 0 ≤ 1023 * v := by positivity
  rw [paramWord_predelay_eq h]
  exact ⟨h.floor_le hnonneg (by linarith), h.le_ceil hnonneg (by linarith)⟩

/-- The number that is shown counts 48 samples each, the word 12. -/
theorem shown_near_word {d w : ℕ} (h0 : 6 / 1024 ≤ v) (h1 : v ≤ 1000 / 1024)
    (hd : ⌊256 * v⌋₊ ≤ d ∧ d ≤ ⌈256 * v⌉₊) (hw : ⌊1023 * v⌋₊ ≤ w ∧ w ≤ ⌈1023 * v⌉₊) :
    |(48 * d : ℤ) - Diagram.tapTicks w 0| < 84 := by
  have hd1 : 256 * v - 1 < d := by
    have hcast : (⌊256 * v⌋₊ : ℚ) ≤ d := by exact_mod_cast hd.1
    linarith [Nat.lt_floor_add_one (256 * v)]
  have hd2 : (d : ℚ) < 256 * v + 1 := by
    have hcast : (d : ℚ) ≤ ⌈256 * v⌉₊ := by exact_mod_cast hd.2
    linarith [Nat.ceil_lt_add_one (a := 256 * v) (by linarith)]
  have hw1 : 1023 * v - 1 < w := by
    have hcast : (⌊1023 * v⌋₊ : ℚ) ≤ w := by exact_mod_cast hw.1
    linarith [Nat.lt_floor_add_one (1023 * v)]
  have hw2 : (w : ℚ) < 1023 * v + 1 := by
    have hcast : (w : ℚ) ≤ ⌈1023 * v⌉₊ := by exact_mod_cast hw.2
    linarith [Nat.ceil_lt_add_one (a := 1023 * v) (by linarith)]
  have hpos : 0 < w := by
    have : (0 : ℚ) < w := by linarith
    exact_mod_cast this
  have hticks : ((Diagram.tapTicks w 0 : ℕ) : ℤ) = 12 * (w - 1) := by
    rw [Diagram.tapTicks, Nat.zero_mul, Nat.add_zero]
    push_cast [hpos]
    ring
  have hlt : |(48 * d - 12 * (w - 1) : ℚ)| < 84 := by
    rw [abs_lt]
    constructor <;> linarith
  rw [hticks]
  exact_mod_cast hlt

/-- An iteration that selects the predelay leaves its word in the register. -/
theorem iteration_predelay_word (h : Rounds 24 fl) {s : App} (hs : Bounded fl s) {r : Readings}
    (hr : r.paramType = .predelay) :
    let v := (s.iteration fl r).currentParamValue .predelay
    (6 / 1024 ≤ v ∧ v ≤ 1000 / 1024) ∧
      (s.iteration fl r).params.preDelayValue.toNat = paramWord fl .predelay v := by
  intro v
  have hbounds : paramValueMIN fl .predelay ≤ v ∧ v ≤ paramValueMAX fl .predelay :=
    hs.iteration h r .predelay
  rw [paramValueMIN_predelay h, paramValueMAX_predelay h] at hbounds
  have hword := (paramWord_predelay_between h (by linarith [hbounds.1]) hbounds.2).2
  have hceil : ⌈1023 * v⌉₊ ≤ 1000 := Nat.ceil_le.mpr (by push_cast; linarith [hbounds.2])
  have hread := iteration_read_low fl s r (p := .predelay) (by decide)
  rw [if_neg (fun hno => hno.2 hr), Nat.mod_eq_of_lt (lt_of_le_of_lt hword (by
    simp only [ParamType.dataWidth]
    omega))] at hread
  exact ⟨hbounds, hread⟩

/-- **The predelay that is shown** is the delay of the main echo, up to 84 samples of 48000 a
    second, less than two milliseconds: after every iteration that selects the predelay, with any
    readings before and any rounding, with the number `d` on the displays and the word in the
    predelay register. -/
theorem display_tells_echo (h : Rounds 24 fl) (params : Params) (hex : Fin 6 → BitVec 6)
    (readings : ℕ → Readings) (n : ℕ) (hsel : (readings n).paramType = .predelay) :
    let app := run (iteration fl) (start fl params hex) readings (n + 1)
    ∃ d, shownNumber app.hex = some d ∧
      |(48 * d : ℤ) - Diagram.tapTicks app.params.preDelayValue.toNat 0| < 84 := by
  intro app
  have hs := bounded_run h params hex readings n
  have hbounds := hs.iteration h (readings n) .predelay
  obtain ⟨hlo, hhi, -⟩ := valueToDisplay_between h .predelay hbounds.1 hbounds.2
  obtain ⟨hv, hword⟩ := iteration_predelay_word h hs hsel
  refine ⟨_, (iteration_shown h hs hsel (by decide)).2.2, ?_⟩
  rw [show app.params.preDelayValue.toNat = _ from hword]
  exact shown_near_word hv.1 hv.2 ⟨hlo, hhi⟩
    (paramWord_predelay_between h (by linarith [hv.1]) hv.2)

/-- In single precision, with the increment key of the predelay held for 1000 iterations. -/
theorem display_tells_echo_held :
    let app := run (iteration single) (start single resetParams resetHex)
      (fun _ => ⟨0b0100, 0b10⟩) (999 + 1)
    ∃ d, shownNumber app.hex = some d ∧
      |(48 * d : ℤ) - Diagram.tapTicks app.params.preDelayValue.toNat 0| < 84 :=
  display_tells_echo rounds_single resetParams resetHex (fun _ => ⟨0b0100, 0b10⟩) 999 (by decide)

end App

end Reverb
