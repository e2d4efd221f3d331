import Mathlib.Data.Rat.Floor
import ReverbFPGA.Lib.Clocked
import ReverbFPGA.Hardware.Channel

namespace Reverb

/-!
# The application on the processor

The main loop of `app.c` with the tables of `app.h`: it polls the two input ports, and
`initParamValue` and `updateParamValue` write the parameter registers and the displays.

`float` arithmetic is a parameter `fl : ℚ → ℚ`, the rounding of an exact result: every
operation, conversion and literal of type `float` is its exact value under `fl`.  With `id` for
`fl` the arithmetic is exact.  The comparisons of `fmax` and `fmin`, the products with -1, 0
and 1 and the conversion of a parameter to `double` are exact in any case.

A register keeps as many low bits of the word written to it as its port has.  The set-up of the
codec in `main` is left out: it is over before the loop starts and touches none of this.
-/

open Clocked

/-! ### The tables of `app.h` -/

/-- `PARAM_TYPE`. -/
inductive ParamType where
  | mix
  | predelay
  | decay
  | damping
  | noneParam
  deriving DecidableEq

/-- `UPDATE_TYPE`. -/
inductive UpdateType where
  | decr
  | incr
  | none
  deriving DecidableEq

/-- The value of the enumeration constant. -/
def UpdateType.value : UpdateType → ℤ
  | decr => -1
  | incr => 1
  | none => 0

/-- `HPS_0_…_PIO_DATA_WIDTH`. -/
def ParamType.dataWidth : ParamType → ℕ
  | mix => 24
  | predelay => 10
  | decay => 25
  | damping => 25
  | noneParam => 0

section
variable (fl : ℚ → ℚ)

/-- `paramValueIncr`: the step of a key. -/
def paramValueIncr : ParamType → ℚ
  | .noneParam => fl 0
  | _ => fl (3 / 1000000)

def paramValueMIN : ParamType → ℚ
  | .mix => fl (1 / 1000000000)
  | .predelay => fl (6 / 1024)
  | .decay => fl (1 / 4)
  | .damping => fl (1 / 1000000000)
  | .noneParam => fl 0

def paramValueMAX : ParamType → ℚ
  | .mix => fl 1
  | .predelay => fl (1000 / 1024)
  | .decay => fl (95 / 100)
  | .damping => fl 1
  | .noneParam => fl 0

end

/-- `stringToDisplay`, without the terminating zero. -/
def stringToDisplay : ParamType → Char × Char
  | .mix => ('M', 'I')
  | .predelay => ('P', 'R')
  | .decay => ('D', 'E')
  | .damping => ('D', 'A')
  | .noneParam => (Char.ofNat 0, Char.ofNat 0)

/-- `CLAMP`. -/
def clamp (val a b : ℚ) : ℚ := max a (min val b)

/-! ### The state of the program and of the ports that it writes -/

/-- The global `currentParamValue`, the parameter registers and the six displays. -/
structure App where
  currentParamValue : ParamType → ℚ
  params : Params
  hex : Fin 6 → BitVec 6

/-- A write to the register of a parameter. -/
def Params.write (r : Params) : ParamType → ℕ → Params
  | .mix, word => { r with mixValue := BitVec.ofNat 24 word }
  | .predelay, word => { r with preDelayValue := BitVec.ofNat 10 word }
  | .decay, word => { r with decayValue := BitVec.ofNat 25 word }
  | .damping, word => { r with dampingValue := BitVec.ofNat 25 word }
  | .noneParam, _ => r

/-- The content of the register of a parameter. -/
def Params.read (r : Params) : ParamType → ℕ
  | .mix => r.mixValue.toNat
  | .predelay => r.preDelayValue.toNat
  | .decay => r.decayValue.toNat
  | .damping => r.dampingValue.toNat
  | .noneParam => 0

/-- A register keeps the low bits of the word. -/
theorem Params.read_write (r : Params) (p : ParamType) (word : ℕ) :
    (r.write p word).read p = word % 2 ^ p.dataWidth := by
  cases p <;> simp [write, read, ParamType.dataWidth, Nat.mod_one]

/-- A write to one register leaves the others alone. -/
theorem Params.read_write_of_ne (r : Params) {p q : ParamType} (h : q ≠ p) (word : ℕ) :
    (r.write q word).read p = r.read p := by
  cases q <;> cases p <;> first | rfl | exact absurd rfl h

namespace App

/-- `HPS_0_…VALUE_PIO_RESET_VALUE`. -/
def resetParams : Params := ⟨0, 5, 0, 0⟩

/-- `HPS_0_HEX…_RESET_VALUE`. -/
def resetHex : Fin 6 → BitVec 6 := fun _ => 63

variable (fl : ℚ → ℚ)

/-- The program at its start. -/
def start (params : Params) (hex : Fin 6 → BitVec 6) : App where
  currentParamValue
    | .noneParam => fl 0
    | p => paramValueMIN fl p
  params := params
  hex := hex

/-- The word for the value `v` of a parameter: `v * ((1 << w) - 1)` in `float`, where the
    full-scale constant is converted to `float` first, cast to `uint32_t`. -/
def paramWord (p : ParamType) (v : ℚ) : ℕ := ⌊fl (v * fl (2 ^ p.dataWidth - 1))⌋₊

/-- The write of the register of a parameter in `initParamValue` and in `updateParamValue`. -/
def writeParam (s : App) (p : ParamType) : App :=
  { s with params := s.params.write p (paramWord fl p (s.currentParamValue p)) }

/-- `initParamValue`.  The predelay is missing: its register keeps what it holds until the first
    update. -/
def initParamValue (s : App) : App :=
  ((s.writeParam fl .mix).writeParam fl .decay).writeParam fl .damping

/-- `currentParamValue[paramType]` after the first two assignments of `updateParamValue`. -/
def updatedValue (p : ParamType) (u : UpdateType) (v : ℚ) : ℚ :=
  clamp (fl (v + fl (fl u.value * paramValueIncr fl p))) (paramValueMIN fl p) (paramValueMAX fl p)

/-- `valueToDisplay`: the predelay of `12` lines at 48 kHz in milliseconds, or a percentage. -/
def valueToDisplay (p : ParamType) (v : ℚ) : ℕ :=
  if p = .predelay then ⌊fl (fl (fl (1000 * 12) * fl (v * fl 1024)) / fl 48000)⌋₊ % 2 ^ 8
  else ⌊fl (fl 100 * v)⌋₊ % 2 ^ 8

/-- The display of the current parameter. -/
def display (s : App) (p : ParamType) : App :=
  let valueToDisplay := valueToDisplay fl p (s.currentParamValue p)
  -- the decimal digits; none of the `uint8_t` operations wraps
  let hundred := valueToDisplay / 100
  let ten := (valueToDisplay - 100 * hundred) / 10
  let unit := valueToDisplay - 100 * hundred - 10 * ten
  if p = .noneParam then
    -- a dash on each display
    { s with hex := fun _ => 0b111111 }
  else
    -- two letters, a blank and three digits
    { s with hex := fun
        | 5 => BitVec.ofNat 6 ((stringToDisplay p).1.toNat - 'A'.toNat + 10)
        | 4 => BitVec.ofNat 6 ((stringToDisplay p).2.toNat - 'A'.toNat + 10)
        | 3 => 0b111110
        | 2 => BitVec.ofNat 6 hundred
        | 1 => BitVec.ofNat 6 ten
        | 0 => BitVec.ofNat 6 unit }

/-- `updateParamValue`: the value, its register, and the display. -/
def updateParamValue (p : ParamType) (u : UpdateType) (s : App) : App :=
  let v := updatedValue fl p u (s.currentParamValue p)
  let s := { s with currentParamValue := Function.update s.currentParamValue p v }
  let s := match p with
    -- the `default` of the `switch`
    | .noneParam =>
      { s with currentParamValue := Function.update s.currentParamValue .noneParam (fl 0) }
    | p => s.writeParam fl p
  s.display fl p

/-! ### The main loop -/

/-- What the two input ports hold when an iteration reads them. -/
structure Readings where
  paramTypePIOValue : BitVec 8
  paramValueUpdatePIOValue : BitVec 8

namespace Readings

/-- One bit for each parameter; several at once select none. -/
def paramType (r : Readings) : ParamType :=
  if r.paramTypePIOValue = 0b0001 then .damping
  else if r.paramTypePIOValue = 0b0010 then .decay
  else if r.paramTypePIOValue = 0b0100 then .predelay
  else if r.paramTypePIOValue = 0b1000 then .mix
  else .noneParam

/-- One bit for each direction; both at once select none. -/
def updateType (r : Readings) : UpdateType :=
  if r.paramValueUpdatePIOValue = 0b10 then .incr
  else if r.paramValueUpdatePIOValue = 0b01 then .decr
  else .none

end Readings

/-- The body of the main loop. -/
def iteration (s : App) (r : Readings) : App :=
  updateParamValue fl r.paramType r.updateType (initParamValue fl s)

/-! ### What each function changes -/

@[simp] theorem writeParam_currentParamValue (s : App) (p : ParamType) :
    (s.writeParam fl p).currentParamValue = s.currentParamValue := rfl

@[simp] theorem display_currentParamValue (s : App) (p : ParamType) :
    (s.display fl p).currentParamValue = s.currentParamValue := by
  unfold display
  split_ifs <;> rfl

@[simp] theorem display_params (s : App) (p : ParamType) :
    (s.display fl p).params = s.params := by
  unfold display
  split_ifs <;> rfl

@[simp] theorem initParamValue_currentParamValue (s : App) :
    (s.initParamValue fl).currentParamValue = s.currentParamValue := rfl

/-- `initParamValue` writes the words of the mix, the decay and the damping, and leaves the
    predelay register alone. -/
theorem initParamValue_read (s : App) {p : ParamType} (hp : p ≠ .noneParam) :
    (s.initParamValue fl).params.read p =
      if p = .predelay then s.params.read p
      else paramWord fl p (s.currentParamValue p) % 2 ^ p.dataWidth := by
  cases p with
  | predelay => rfl
  | mix | decay | damping => simp [initParamValue, writeParam, Params.write, Params.read,
      ParamType.dataWidth]
  | noneParam => exact absurd rfl hp

/-- `updateParamValue` moves the value of its own parameter only. -/
theorem updateParamValue_currentParamValue {p : ParamType} (hp : p ≠ .noneParam)
    (u : UpdateType) (s : App) :
    (s.updateParamValue fl p u).currentParamValue =
      Function.update s.currentParamValue p (updatedValue fl p u (s.currentParamValue p)) := by
  cases p with
  | noneParam => exact absurd rfl hp
  | mix | predelay | decay | damping => simp [updateParamValue]

/-- `updateParamValue` writes the word of its own parameter only. -/
theorem updateParamValue_params {p : ParamType} (hp : p ≠ .noneParam) (u : UpdateType)
    (s : App) :
    (s.updateParamValue fl p u).params = s.params.write p
      (paramWord fl p ((s.updateParamValue fl p u).currentParamValue p)) := by
  rw [updateParamValue_currentParamValue fl hp, Function.update_self]
  cases p with
  | noneParam => exact absurd rfl hp
  | mix | predelay | decay | damping => simp [updateParamValue, writeParam]

/-- With no parameter selected only the display changes. -/
theorem updateParamValue_noneParam (u : UpdateType) (s : App) :
    (s.updateParamValue fl .noneParam u).params = s.params ∧
      ∀ q, q ≠ .noneParam →
        (s.updateParamValue fl .noneParam u).currentParamValue q = s.currentParamValue q := by
  refine ⟨by simp [updateParamValue], fun q hq => ?_⟩
  simp [updateParamValue, Function.update_of_ne hq]

end App

end Reverb
