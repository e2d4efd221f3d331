import Mathlib.Logic.Function.Basic
import Mathlib.Tactic.IntervalCases

namespace Reverb

/-!
# The set-up of the codec

What `main` does before its loop: it hands the I2C bus to the processor and sends the codec its
settings, and `CHECK_ERROR` lights an LED if a call fails.

* `decode_bufferToSend` — the two bytes of `bufferToSend` carry the address and the data;
* `setup_reports` — the LED is on at the end exactly if it was on before or a call failed, whichever
  it was, and the multiplexer of the bus keeps its setting in any case;
* `setup_order` — if the codec receives the messages, then from the second one on it is active only
  with all of its settings, and its line output is on only while it is active.

The I2C driver is a parameter: to each call a reply, with the status that it returns and whether
the codec has received the message.  `alt_gpio_init` comes first in `main` and takes the port out
of its reset: the state before the set-up is the one that it leaves.
-/

namespace Setup

/-! ### The messages -/

/-- `bufferToSend`, in `int` arithmetic and cut to `uint8_t`. -/
def bufferToSend (controlAddrBits : BitVec 8) (controlDataBits : BitVec 16) :
    BitVec 8 × BitVec 8 :=
  (((controlAddrBits.setWidth 32 <<< 1) |||
      ((controlDataBits.setWidth 32 &&& (1 <<< 8)) >>> 8)).setWidth 8,
    (0xFF &&& controlDataBits.setWidth 32).setWidth 8)

/-- What the codec takes from two bytes: the address in the first seven bits, the data in the other
    nine. -/
def decode (m : BitVec 8 × BitVec 8) : BitVec 7 × BitVec 9 :=
  ((m.1 >>> 1).setWidth 7, (m.1.setWidth 9 <<< 8) ||| m.2.setWidth 9)

/-- **Round trip**: the codec takes the low bits of what was sent. -/
theorem decode_bufferToSend (controlAddrBits : BitVec 8) (controlDataBits : BitVec 16) :
    decode (bufferToSend controlAddrBits controlDataBits) =
      (controlAddrBits.setWidth 7, controlDataBits.setWidth 9) := by
  refine Prod.ext ?_ ?_
  · apply BitVec.eq_of_getLsbD_eq
    intro i hi
    interval_cases i <;> simp [decode, bufferToSend]
  · apply BitVec.eq_of_getLsbD_eq
    intro i hi
    interval_cases i <;> simp [decode, bufferToSend]

def ANALOG_AUDIO_PATH_CONTROL_ADDR : BitVec 8 := 0b0000100
def LEFT_LINE_IN_ADDR : BitVec 8 := 0b0000000
def RIGHT_LINE_IN_ADDR : BitVec 8 := 0b0000001
def DIGITAL_AUDIO_PATH_CONTROL_ADDR : BitVec 8 := 0b0000101
def DIGITAL_AUDIO_INTERFACE_FORMAT_ADDR : BitVec 8 := 0b0000111
def SAMPLING_CONTROL_ADDR : BitVec 8 := 0b0001000
def POWER_DOWN_CONTROL_ADDR : BitVec 8 := 0b0000110
def ACTIVE_CONTROL_ADDR : BitVec 8 := 0b0001001

/-- The registers that are set while the codec is not active. -/
def settings : List (BitVec 8 × BitVec 16) :=
  [(ANALOG_AUDIO_PATH_CONTROL_ADDR, 0b00010010), (LEFT_LINE_IN_ADDR, 0b000010011),
    (RIGHT_LINE_IN_ADDR, 0b000010011), (DIGITAL_AUDIO_INTERFACE_FORMAT_ADDR, 0b01001001),
    (DIGITAL_AUDIO_PATH_CONTROL_ADDR, 0b00001), (SAMPLING_CONTROL_ADDR, 0b00000010)]

/-- What `initAudioCODEC_I2C` sends. -/
def transmissions : List (BitVec 8 × BitVec 16) :=
  -- power up all but the line output, and reset the active control
  [(POWER_DOWN_CONTROL_ADDR, 0b01110010), (ACTIVE_CONTROL_ADDR, 0b0)] ++ settings ++
    -- activate, and power up the line output
    [(ACTIVE_CONTROL_ADDR, 0b1), (POWER_DOWN_CONTROL_ADDR, 0b01100010)]

/-! ### The calls -/

/-- The direction and the data register of the GPIO port B, and the registers of the codec. -/
structure Board where
  ddr : BitVec 32
  dr : BitVec 32
  codec : BitVec 7 → BitVec 9

/-- The 29 pins of the port. -/
def ALT_GPIO_BITMASK : BitVec 32 := 0x1FFFFFFF

/-- `alt_replbits_word`. -/
def replbitsWord (word msk src : BitVec 32) : BitVec 32 := (word &&& ~~~msk) ||| (src &&& msk)

namespace Board

/-- `alt_gpio_port_datadir_set` on port B, with its success. -/
def datadirSet (b : Board) (mask config : BitVec 32) : Bool × Board :=
  if mask &&& ~~~ALT_GPIO_BITMASK ≠ 0 ∨ config &&& ~~~ALT_GPIO_BITMASK ≠ 0 then (false, b)
  else (true, { b with ddr := replbitsWord b.ddr mask config })

/-- `alt_gpio_port_data_write` on port B. -/
def dataWrite (b : Board) (mask val : BitVec 32) : Bool × Board :=
  if mask &&& ~~~ALT_GPIO_BITMASK ≠ 0 ∨ val &&& ~~~ALT_GPIO_BITMASK ≠ 0 then (false, b)
  else (true, { b with dr := replbitsWord b.dr mask val })

/-- `CHECK_ERROR`. -/
def checkError (retVal : Bool) (b : Board) : Board :=
  if retVal then b
  else ((b.datadirSet (1 <<< 24) (1 <<< 24)).2.dataWrite (1 <<< 24) (1 <<< 24)).2

/-- The codec receives a message. -/
def receive (b : Board) (m : BitVec 8 × BitVec 8) : Board :=
  { b with codec := Function.update b.codec (decode m).1 (decode m).2 }

end Board

/-- What the driver makes of a call. -/
structure Reply where
  success : Bool
  received : Bool

/-- A checked call of the driver, with the address and the data if it transmits any. -/
def call (b : Board) (c : Option (BitVec 8 × BitVec 16) × Reply) : Board :=
  Board.checkError c.2.success <| match c.1 with
    | some (addr, data) => if c.2.received then b.receive (bufferToSend addr data) else b
    | none => b

/-- The calls of `initAudioCODEC_I2C`: `alt_i2c_init`, `alt_i2c_enable`,
    `alt_i2c_master_target_set` and the transmissions. -/
def initAudioCODEC_I2C : List (Option (BitVec 8 × BitVec 16)) :=
  [none, none, none] ++ transmissions.map some

/-- Call `k` gets reply `k`. -/
def calls (replies : ℕ → Reply) : List (Option (BitVec 8 × BitVec 16) × Reply) :=
  initAudioCODEC_I2C.zipIdx.map fun c => (c.1, replies c.2)

/-- The first lines of `main`: the multiplexer of the I2C bus. -/
def takeBus (b : Board) : Board :=
  let set := b.datadirSet (1 <<< 19) (1 <<< 19)
  let write := (set.2.checkError set.1).dataWrite (1 <<< 19) (1 <<< 19)
  write.2.checkError write.1

/-- `main` up to the loop, or up to the first `k` calls of `initAudioCODEC_I2C`. -/
def setUp (replies : ℕ → Reply) (k : ℕ) (b : Board) : Board :=
  ((calls replies).take k).foldl call (takeBus b)

/-! ### The LED -/

/-- The bit of a pin is driven to one. -/
def Board.high (b : Board) (i : ℕ) : Bool := b.ddr.getLsbD i && b.dr.getLsbD i

/-- Setting one bit. -/
theorem getLsbD_replbitsWord {k : ℕ} (hk : k < 32) (word : BitVec 32) (i : ℕ) :
    (replbitsWord word (1 <<< k) (1 <<< k)).getLsbD i = (decide (i = k) || word.getLsbD i) := by
  have hbit : (1 <<< k : BitVec 32).getLsbD i = decide (i = k) := by
    rw [show (1 <<< k : BitVec 32) = BitVec.twoPow 32 k by rfl, BitVec.getLsbD_twoPow]
    by_cases h : i = k
    · simp [h, hk]
    · simp [h, Ne.symm h]
  rw [replbitsWord, BitVec.getLsbD_or, BitVec.getLsbD_and, BitVec.getLsbD_and, BitVec.getLsbD_not,
    hbit]
  by_cases h : i = k
  · simp [h]
  by_cases hi : i < 32
  · simp [h, hi]
  · simp [h, BitVec.getLsbD_of_ge _ _ (not_lt.mp hi)]

namespace Board

/-- The two registers of the port, with some bits set in both. -/
def SetBits (P : ℕ → Bool) (b b' : Board) : Prop :=
  ∀ i, b'.ddr.getLsbD i = (P i || b.ddr.getLsbD i) ∧ b'.dr.getLsbD i = (P i || b.dr.getLsbD i)

/-- A failed call changes nothing in the codec. -/
theorem checkError_codec (ok : Bool) (b : Board) : (checkError ok b).codec = b.codec := by
  cases ok <;> rfl

/-- It sets bit 24 of the port, the LED, and no other. -/
theorem checkError_setBits (ok : Bool) (b : Board) :
    SetBits (fun i => !ok && decide (i = 24)) b (checkError ok b) := by
  intro i
  cases ok with
  | true => simp [checkError]
  | false =>
    exact ⟨getLsbD_replbitsWord (by norm_num) b.ddr i, getLsbD_replbitsWord (by norm_num) b.dr i⟩

/-- What two steps in a row set. -/
theorem SetBits.trans {P Q : ℕ → Bool} {b b' b'' : Board} (h : SetBits P b b')
    (h' : SetBits Q b' b'') : SetBits (fun i => P i || Q i) b b'' := by
  intro i
  rw [(h' i).1, (h' i).2, (h i).1, (h i).2, ← Bool.or_assoc, ← Bool.or_assoc, Bool.or_comm (Q i)]
  exact ⟨rfl, rfl⟩

/-- The set of bits matters, not how it is written. -/
theorem SetBits.congr {P Q : ℕ → Bool} {b b' : Board} (h : SetBits P b b') (hPQ : ∀ i, P i = Q i) :
    SetBits Q b b' := by
  intro i
  rw [← hPQ i]
  exact h i

end Board

open Board

/-- One call lights the LED if it fails, and changes nothing else of the port. -/
theorem call_setBits (b : Board) (c : Option (BitVec 8 × BitVec 16) × Reply) :
    SetBits (fun i => !c.2.success && decide (i = 24)) b (call b c) := by
  rcases c with ⟨_ | ⟨addr, data⟩, ⟨success, received⟩⟩
  · exact checkError_setBits success b
  · cases received with
    | true => exact checkError_setBits success (b.receive (bufferToSend addr data))
    | false => exact checkError_setBits success b

/-- **The LED** is lit by a list of calls exactly if one of them fails. -/
theorem foldl_call_setBits (b : Board) (cs : List (Option (BitVec 8 × BitVec 16) × Reply)) :
    SetBits (fun i => cs.any (fun c => !c.2.success) && decide (i = 24)) b (cs.foldl call b) := by
  induction cs generalizing b with
  | nil => intro i; simp
  | cons c cs ih =>
    -- the first call, then the others, as the bits are set and never cleared
    refine ((call_setBits b c).trans (ih (call b c))).congr fun i => ?_
    rw [List.any_cons, Bool.and_or_distrib_right]

/-- Taking the bus sets bit 19, and no other. -/
theorem takeBus_setBits (b : Board) : SetBits (fun i => decide (i = 19)) b (takeBus b) := fun i =>
  ⟨getLsbD_replbitsWord (by norm_num) b.ddr i, getLsbD_replbitsWord (by norm_num) b.dr i⟩

/-- Some call fails if and only if one of the thirteen replies says so. -/
theorem any_calls_iff (replies : ℕ → Reply) :
    (calls replies).any (fun c => !c.2.success) = true ↔ ∃ k < 13, (replies k).success = false := by
  have hlen : initAudioCODEC_I2C.length = 13 := rfl
  rw [calls, List.any_map, List.any_eq_true]
  constructor
  -- the reply that fails is the one with the number of its call
  · rintro ⟨⟨c, k⟩, hc, hk⟩
    have hlt := (List.mem_zipIdx hc).2.1
    exact ⟨k, by omega, by simpa using hk⟩
  · rintro ⟨k, hk, hfail⟩
    rw [← hlen] at hk
    exact ⟨(initAudioCODEC_I2C[k], k), List.mk_mem_zipIdx_iff_getElem?.mpr (by simp [hk]),
      by simpa using hfail⟩

/-- **What the set-up reports.**  From any state of the port, and whatever the driver replies to the
    13 calls: at the end the LED is on exactly if it was on or one of the calls failed, the bit of
    the bus multiplexer is set, and all other bits of the port are as before. -/
theorem setup_reports (replies : ℕ → Reply) (b : Board) :
    let b' := setUp replies 13 b
    (b'.high 24 = true ↔ b.high 24 = true ∨ ∃ k < 13, (replies k).success = false) ∧
    b'.high 19 = true ∧
    ∀ i, i ≠ 19 → i ≠ 24 →
      b'.ddr.getLsbD i = b.ddr.getLsbD i ∧ b'.dr.getLsbD i = b.dr.getLsbD i := by
  intro b'
  have hset : SetBits (fun i => decide (i = 19) ||
      ((calls replies).any (fun c => !c.2.success) && decide (i = 24))) b b' :=
    (takeBus_setBits b).trans (foldl_call_setBits (takeBus b) (calls replies))
  refine ⟨?_, ?_, fun i h19 h24 => ?_⟩
  · rw [← any_calls_iff, high, (hset 24).1, (hset 24).2, high]
    cases (calls replies).any fun c => !c.2.success with
    | true => simp
    | false => simp
  · rw [high, (hset 19).1, (hset 19).2]
    simp
  · rw [(hset i).1, (hset i).2]
    simp [h19, h24]

/-! ### The codec -/

/-- The bit that activates the digital side of the codec. -/
def active (codec : BitVec 7 → BitVec 9) : Bool :=
  (codec (ACTIVE_CONTROL_ADDR.setWidth 7)).getLsbD 0

/-- The line output, which bit 4 of the power down control switches off. -/
def lineOutput (codec : BitVec 7 → BitVec 9) : Bool :=
  !(codec (POWER_DOWN_CONTROL_ADDR.setWidth 7)).getLsbD 4

/-- All settings are made. -/
def Configured (codec : BitVec 7 → BitVec 9) : Prop :=
  ∀ c ∈ settings, codec (c.1.setWidth 7) = c.2.setWidth 9

/-- A register is written. -/
def writeRegister (codec : BitVec 7 → BitVec 9) (c : BitVec 8 × BitVec 16) : BitVec 7 → BitVec 9 :=
  Function.update codec (c.1.setWidth 7) (c.2.setWidth 9)

/-- The register that is addressed takes the nine bits. -/
theorem writeRegister_self (codec : BitVec 7 → BitVec 9) (addr : BitVec 8) (data : BitVec 16) :
    writeRegister codec (addr, data) (addr.setWidth 7) = data.setWidth 9 := Function.update_self _ _ _

/-- The other registers keep theirs. -/
theorem writeRegister_of_ne {codec : BitVec 7 → BitVec 9} {c : BitVec 8 × BitVec 16} {a : BitVec 7}
    (h : c.1.setWidth 7 ≠ a) : writeRegister codec c a = codec a := Function.update_of_ne h.symm _ _

/-- A call whose message arrives writes its register, if it has a message. -/
theorem call_codec (b : Board) (c : Option (BitVec 8 × BitVec 16)) {r : Reply}
    (hr : r.received = true) : (call b (c, r)).codec = c.toList.foldl writeRegister b.codec := by
  rw [call, checkError_codec]
  cases c with
  | none => rfl
  | some m =>
    obtain ⟨addr, data⟩ := m
    simp only [hr, if_true, receive, decode_bufferToSend]
    rfl

/-- **Run of calls.** If all messages arrive, the codec has seen the transmissions in their
    order. -/
theorem foldl_call_codec (b : Board) {cs : List (Option (BitVec 8 × BitVec 16) × Reply)}
    (h : ∀ c ∈ cs, c.2.received = true) :
    (cs.foldl call b).codec = ((cs.map Prod.fst).flatMap Option.toList).foldl writeRegister
      b.codec := by
  induction cs generalizing b with
  | nil => rfl
  | cons c cs ih =>
    rw [List.foldl_cons, ih (call b c) fun c' hc' => h c' (List.mem_cons_of_mem c hc'),
      call_codec b c.1 (h c List.mem_cons_self), List.map_cons, List.flatMap_cons,
      List.foldl_append]

/-- The codec after the first `k` calls, if it receives the messages. -/
theorem setUp_codec {replies : ℕ → Reply} (hreceived : ∀ k < 13, (replies k).received = true)
    (k : ℕ) (b : Board) :
    (setUp replies k b).codec = (transmissions.take (k - 3)).foldl writeRegister b.codec := by
  have hall : ∀ c ∈ (calls replies).take k, c.2.received = true := by
    intro c hc
    obtain ⟨⟨_, j⟩, hj, rfl⟩ := List.mem_map.mp (List.mem_of_mem_take hc)
    exact hreceived j (List.mem_zipIdx hj).2.1
  -- the first three calls have no message
  have hnone : ∀ l : List (Option (BitVec 8 × BitVec 16)), (∀ c ∈ l, c = none) →
      l.flatMap Option.toList = [] := fun l hl =>
    List.flatMap_eq_nil_iff.mpr fun c hc => by rw [hl c hc]; rfl
  have hcalls : ((calls replies).take k).map Prod.fst = initAudioCODEC_I2C.take k := by
    rw [List.map_take]
    rfl
  rw [setUp, foldl_call_codec _ hall, hcalls, initAudioCODEC_I2C, List.take_append,
    List.flatMap_append, hnone _ fun c hc => by simpa using List.mem_of_mem_take hc,
    ← List.map_take, List.flatMap_map, List.nil_append]
  exact congrArg (List.foldl writeRegister b.codec) (List.flatMap_singleton' _)

/-- A register that no message addresses. -/
theorem foldl_writeRegister_of_ne {cs : List (BitVec 8 × BitVec 16)} {a : BitVec 7}
    (h : ∀ c ∈ cs, c.1.setWidth 7 ≠ a) (codec : BitVec 7 → BitVec 9) :
    cs.foldl writeRegister codec a = codec a := by
  induction cs generalizing codec with
  | nil => rfl
  | cons c cs ih =>
    rw [List.foldl_cons, ih fun c' hc' => h c' (List.mem_cons_of_mem c hc'),
      writeRegister_of_ne (h c List.mem_cons_self)]

/-- The settings leave every register with its own word, since no two address the same one. -/
theorem configured_settings (codec : BitVec 7 → BitVec 9) :
    Configured (settings.foldl writeRegister codec) := by
  intro c hc
  simp only [settings, List.mem_cons, List.not_mem_nil, or_false] at hc
  rcases hc with rfl | rfl | rfl | rfl | rfl | rfl <;> rfl

/-- The settings leave the two controls alone, and the other way round. -/
theorem settings_ne : ∀ c ∈ settings,
    c.1.setWidth 7 ≠ ACTIVE_CONTROL_ADDR.setWidth 7 ∧
      c.1.setWidth 7 ≠ POWER_DOWN_CONTROL_ADDR.setWidth 7 := by
  intro c hc
  simp only [settings, List.mem_cons, List.not_mem_nil, or_false] at hc
  rcases hc with rfl | rfl | rfl | rfl | rfl | rfl <;> exact ⟨by decide, by decide⟩

/-- A message to a register outside the settings keeps them. -/
theorem Configured.writeRegister {codec : BitVec 7 → BitVec 9} (h : Configured codec)
    {c : BitVec 8 × BitVec 16} (hc : ∀ c' ∈ settings, c'.1.setWidth 7 ≠ c.1.setWidth 7) :
    Configured (writeRegister codec c) := by
  intro c' hc'
  rw [writeRegister_of_ne (hc c' hc').symm]
  exact h c' hc'

theorem controls_ne : POWER_DOWN_CONTROL_ADDR.setWidth 7 ≠ ACTIVE_CONTROL_ADDR.setWidth 7 := by
  decide

section
variable (codec : BitVec 7 → BitVec 9) (data : BitVec 16)

/-- The active control takes bit 0 of the message. -/
@[simp] theorem active_activate :
    active (writeRegister codec (ACTIVE_CONTROL_ADDR, data)) = (data.setWidth 9).getLsbD 0 := by
  rw [active, writeRegister_self]

@[simp] theorem active_power :
    active (writeRegister codec (POWER_DOWN_CONTROL_ADDR, data)) = active codec := by
  rw [active, writeRegister_of_ne controls_ne, active]

@[simp] theorem lineOutput_activate :
    lineOutput (writeRegister codec (ACTIVE_CONTROL_ADDR, data)) = lineOutput codec := by
  rw [lineOutput, writeRegister_of_ne controls_ne.symm, lineOutput]

/-- Bit 4 of the power control switches the line output off. -/
@[simp] theorem lineOutput_power :
    lineOutput (writeRegister codec (POWER_DOWN_CONTROL_ADDR, data)) =
      !(data.setWidth 9).getLsbD 4 := by
  rw [lineOutput, writeRegister_self]

variable {l : List (BitVec 8 × BitVec 16)} (hl : ∀ c ∈ l, c ∈ settings)
include hl

/-- No setting activates the codec. -/
theorem active_settings : active (l.foldl writeRegister codec) = active codec := by
  rw [active, foldl_writeRegister_of_ne fun c hc => (settings_ne c (hl c hc)).1, active]

/-- No setting powers the line output. -/
theorem lineOutput_settings : lineOutput (l.foldl writeRegister codec) = lineOutput codec := by
  rw [lineOutput, foldl_writeRegister_of_ne fun c hc => (settings_ne c (hl c hc)).2, lineOutput]

end

/-- The two messages before the settings. -/
def resetControls (codec : BitVec 7 → BitVec 9) : BitVec 7 → BitVec 9 :=
  writeRegister (writeRegister codec (POWER_DOWN_CONTROL_ADDR, 0b01110010)) (ACTIVE_CONTROL_ADDR, 0b0)

/-- The codec after the first messages: on the way through the settings, activated, or with its
    line output on. -/
theorem transmitted_cases (codec : BitVec 7 → BitVec 9) {j : ℕ} (hj : 2 ≤ j) :
    let sent := (transmissions.take j).foldl writeRegister codec
    let set := settings.foldl writeRegister (resetControls codec)
    (j ≤ 8 ∧ ∃ l : List (BitVec 8 × BitVec 16), (∀ c ∈ l, c ∈ settings) ∧
      sent = l.foldl writeRegister (resetControls codec)) ∨
    (j = 9 ∧ sent = writeRegister set (ACTIVE_CONTROL_ADDR, 0b1)) ∨
    (10 ≤ j ∧ sent = writeRegister (writeRegister set (ACTIVE_CONTROL_ADDR, 0b1))
      (POWER_DOWN_CONTROL_ADDR, 0b01100010)) := by
  intro sent set
  rcases Nat.lt_or_ge j 9 with h9 | h9
  · obtain ⟨i, rfl⟩ : ∃ i, j = i + 2 := ⟨j - 2, by omega⟩
    refine Or.inl ⟨by omega, settings.take i, fun c hc => List.mem_of_mem_take hc, ?_⟩
    have hle : i ≤ settings.length := by simp only [settings, List.length_cons]; omega
    show ((settings ++ _).take i).foldl writeRegister (resetControls codec) = _
    -- before the activation only settings have been sent
    rw [List.take_append_of_le_length hle]
  rcases Nat.lt_or_ge j 10 with h10 | h10
  · obtain rfl : j = 9 := by omega
    exact Or.inr (Or.inl ⟨rfl, rfl⟩)
  · have hall : transmissions.take j = transmissions := List.take_of_length_le h10
    refine Or.inr (Or.inr ⟨h10, ?_⟩)
    simp only [sent, hall]
    rfl

/-- **The order of the set-up**, if the codec receives the messages, whatever its registers held:
    from the second message on, the codec is active only with all of its settings, and its line
    output is on only while it is active; at the end it is on. -/
theorem setup_order (replies : ℕ → Reply) (hreceived : ∀ k < 13, (replies k).received = true)
    (b : Board) {k : ℕ} (hk : 5 ≤ k) :
    let codec := (setUp replies k b).codec
    (active codec = true → Configured codec) ∧ (lineOutput codec = true → active codec = true) ∧
    (13 ≤ k → lineOutput codec = true) := by
  intro codec
  have hcodec : codec = (transmissions.take (k - 3)).foldl writeRegister b.codec :=
    setUp_codec hreceived k b
  -- the settings hold once they are all made, and no later message touches them
  have hset := configured_settings (resetControls b.codec)
  have hactivated := hset.writeRegister (c := (ACTIVE_CONTROL_ADDR, 0b1))
    fun c hc => (settings_ne c hc).1
  rcases transmitted_cases b.codec (j := k - 3) (by omega) with
    ⟨hj, l, hl, hsent⟩ | ⟨hj, hsent⟩ | ⟨hj, hsent⟩ <;> rw [hcodec, hsent]
  · have hactive : active (l.foldl writeRegister (resetControls b.codec)) = false := by
      simp [active_settings _ hl, resetControls]
    have hline : lineOutput (l.foldl writeRegister (resetControls b.codec)) = false := by
      simp [lineOutput_settings _ hl, resetControls]
    rw [hactive, hline]
    exact ⟨fun h => absurd h Bool.false_ne_true, id, by omega⟩
  · have hline : lineOutput (settings.foldl writeRegister (resetControls b.codec)) = false := by
      simp [lineOutput_settings _ fun c hc => hc, resetControls]
    rw [lineOutput_activate, hline]
    exact ⟨fun _ => hactivated, fun h => absurd h Bool.false_ne_true, by omega⟩
  · exact ⟨fun _ => hactivated.writeRegister fun c hc => (settings_ne c hc).2, fun _ => by simp,
      fun _ => by simp⟩

/-- A codec that held all ones, after all calls. -/
theorem setup_order_ones :
    lineOutput (setUp (fun _ => ⟨true, true⟩) 13 ⟨0, 0, fun _ => 0x1FF⟩).codec = true :=
  (setup_order (fun _ => ⟨true, true⟩) (fun _ _ => rfl) ⟨0, 0, fun _ => 0x1FF⟩
    (by decide)).2.2 le_rfl

end Setup

end Reverb
