import ReverbFPGA.Hardware.AudioSystem

namespace Reverb

/-!
# The words of the codec

In each period of its clock of the sides the codec brings a left and a right word.  Each of them is
handed over to the design twice, and twice the design answers with an output word; but the codec
takes one word of each side in a period, so that the FIFOs to it fill up.

* `owed`, `queue` — the words that wait for the codec when one of its words is complete;
* `sent` — the words that it takes, in their order (`owed_eq`);
* `AudioSystem.AtLeft`, `AudioSystem.AtRight` — what holds whenever a word of the codec is complete,
  and `Codec.atLeft` the induction over its periods;
* `Codec.words_come_twice` — what the design sees of the words of the codec;
* `Codec.words_sent` — what the codec gets.
-/

open Clocked Fifo

/-! ### The words for the codec -/

/-- The words that wait before the codec takes one, at word `k`: for each word before it, `y i 0` and
    `y i 1` have come in as far as there was room for them, and the codec has taken one from
    word 2 on. -/
def owed (y : ℕ → ℕ → BitVec 24) : ℕ → List (BitVec 24)
  | 0 => []
  | k + 1 => ((if 2 ≤ k then (owed y k).tail else owed y k) ++ [y k 0, y k 1]).take 128

/-- The words that wait after that. -/
def queue (y : ℕ → ℕ → BitVec 24) (k : ℕ) : List (BitVec 24) :=
  if 2 ≤ k then (owed y k).tail else owed y k

theorem owed_succ (y : ℕ → ℕ → BitVec 24) (k : ℕ) :
    owed y (k + 1) = (queue y k ++ [y k 0, y k 1]).take 128 := rfl

/-- The words in the order in which they go: at first both of each pair, and when the FIFO has
    become full, which is at word 126, the first of each. -/
def sent (y : ℕ → ℕ → BitVec 24) (j : ℕ) : BitVec 24 :=
  if j < 252 then y (j / 2) (j % 2) else y (j - 126) 0

/-- Up to word 125 both words of a pair are sent. -/
theorem sent_of_lt (y : ℕ → ℕ → BitVec 24) {k : ℕ} (h : k < 126) :
    sent y (2 * k) = y k 0 ∧ sent y (2 * k + 1) = y k 1 := by
  constructor
  · rw [sent, if_pos (by omega), show 2 * k / 2 = k by omega, show 2 * k % 2 = 0 by omega]
  · rw [sent, if_pos (by omega), show (2 * k + 1) / 2 = k by omega,
      show (2 * k + 1) % 2 = 1 by omega]

/-- From word 126 on it is the first of the pair. -/
theorem sent_of_le (y : ℕ → ℕ → BitVec 24) {k : ℕ} (h : 126 ≤ k) :
    sent y (k + 126) = y k 0 := by
  rw [sent, if_neg (by omega), show k + 126 - 126 = k by omega]

/-- What the FIFO takes of a pair. -/
theorem take_pair (y : ℕ → ℕ → BitVec 24) (k : ℕ) :
    ((List.range' (k - 1) (min (2 * k) (k + 126) - (k - 1))).map (sent y) ++
        [y k 0, y k 1]).take 128 =
      (List.range' (k - 1) (min (2 * (k + 1)) (k + 1 + 126) - (k - 1))).map (sent y) := by
  rcases Nat.lt_or_ge k 126 with hlt | hge
  -- both words of the pair find room
  · obtain ⟨h0, h1⟩ := sent_of_lt y hlt
    rw [List.take_of_length_le (by simp; omega),
      show min (2 * (k + 1)) (k + 1 + 126) - (k - 1) =
        min (2 * k) (k + 126) - (k - 1) + 2 by omega,
      ← List.range'_append_1, List.map_append,
      show k - 1 + (min (2 * k) (k + 126) - (k - 1)) = 2 * k by omega]
    simp [List.range', h0, h1]
  -- 127 words wait already, and only the first one of the pair does
  · have h0 := sent_of_le y hge
    rw [show min (2 * k) (k + 126) - (k - 1) = 127 by omega,
      show min (2 * (k + 1)) (k + 1 + 126) - (k - 1) = 127 + 1 by omega,
      ← List.range'_append_1, List.map_append, show k - 1 + 127 = k + 126 by omega,
      List.take_append, List.take_of_length_le (by simp)]
    simp [h0]

/-- The codec takes the words in their order. -/
theorem tail_sent (y : ℕ → ℕ → BitVec 24) (a n : ℕ) :
    ((List.range' a n).map (sent y)).tail = (List.range' (a + 1) (n - 1)).map (sent y) := by
  cases n with
  | zero => rfl
  | succ n => simp [List.range'_succ]

/-- **What waits for the codec** is a section of the words sent: from word `k - 2` on, and after the
    codec has taken one from `k - 1` on, up to the last that has come in. -/
theorem owed_eq (y : ℕ → ℕ → BitVec 24) (k : ℕ) :
    owed y k = (List.range' (k - 2) (min (2 * k) (k + 126) - (k - 2))).map (sent y) ∧
      queue y k = (List.range' (k - 1) (min (2 * k) (k + 126) - (k - 1))).map (sent y) := by
  -- the codec starts to take words at word 2
  have hqueue : ∀ k,
      owed y k = (List.range' (k - 2) (min (2 * k) (k + 126) - (k - 2))).map (sent y) →
      queue y k = (List.range' (k - 1) (min (2 * k) (k + 126) - (k - 1))).map (sent y) := by
    intro k h
    rw [queue, h]
    split_ifs with h2
    · rw [tail_sent, show k - 2 + 1 = k - 1 by omega,
        show min (2 * k) (k + 126) - (k - 2) - 1 = min (2 * k) (k + 126) - (k - 1) by omega]
    · rw [show k - 2 = k - 1 by omega]
  have howed : owed y k =
      (List.range' (k - 2) (min (2 * k) (k + 126) - (k - 2))).map (sent y) := by
    induction k with
    | zero => rfl
    | succ k ih =>
      rw [owed_succ, hqueue k ih, take_pair]
      rfl
  exact ⟨howed, hqueue k howed⟩

/-- There is always room for another word, and from word 1 on one is left. -/
theorem length_queue (y : ℕ → ℕ → BitVec 24) (k : ℕ) :
    (queue y k).length = min (2 * k) (k + 126) - (k - 1) := by
  rw [(owed_eq y k).2, List.length_map, List.length_range']

/-- What waits before the codec has its turn. -/
theorem length_owed (y : ℕ → ℕ → BitVec 24) (k : ℕ) :
    (owed y k).length = min (2 * k) (k + 126) - (k - 2) := by
  rw [(owed_eq y k).1, List.length_map, List.length_range']

namespace AudioSystem.Codec

variable {F : SyncFifo} {s : ℕ → AudioSystem F} {inp : ℕ → In} {E : ℕ → ℕ} {g : ℕ}

/-! ### One edge -/

/-- The flag of the words from the codec is set at the first rising change. -/
theorem doneAdc_succ (h : Codec s inp E g) (t : ℕ) :
    (s (t + 1)).audioController.doneAdcChannelSync =
      ((s t).audioController.adcLeftRightClockEdges.risingEdge ||
        (s t).audioController.doneAdcChannelSync) := by
  rw [h.run t]
  show (if (inp t).reset then false else _) = _
  rw [h.reset t]
  cases (s t).audioController.adcLeftRightClockEdges.risingEdge <;> rfl

/-- The flag of the words to it is set at the first falling one. -/
theorem doneDac_succ (h : Codec s inp E g) (t : ℕ) :
    (s (t + 1)).audioController.doneDacChannelSync =
      ((s t).audioController.adcLeftRightClockEdges.fallingEdge ||
        (s t).audioController.doneDacChannelSync) := by
  rw [h.run t, ← h.dacClock t]
  show (if (inp t).reset then false else _) = _
  rw [h.reset t]
  cases (s t).audioController.dacLeftRightClockEdges.fallingEdge <;> rfl

/-- A left word that is taken sets `left_channel_was_read`, the right word after it clears it. -/
theorem wasRead_succ (h : Codec s inp E g) (t : ℕ) :
    (s (t + 1)).audioController.audioOutSerializer.leftChannelWasRead =
      ((s t).readLeft (inp t) ||
        (s t).audioController.audioOutSerializer.leftChannelWasRead &&
          !(s t).readRight (inp t)) := by
  rw [h.run t]
  show (if (inp t).reset then false else if (s t).readLeft (inp t) then true
    else if (s t).readRight (inp t) then false else _) = _
  rw [h.reset t]
  cases (s t).readLeft (inp t) <;> cases (s t).readRight (inp t) <;> simp

/-- The codec takes a left word at a rising change, if there is a word on both sides. -/
theorem readLeft_eq (h : Codec s inp E g) (t : ℕ) :
    (s t).readLeft (inp t) =
      ((s t).audioController.doneDacChannelSync &&
        (s t).audioController.adcLeftRightClockEdges.risingEdge &&
        !F.empty (s t).laneL.outChannel.fifo && !F.empty (s t).laneR.outChannel.fifo) := by
  rw [← h.dacClock t]
  rfl

/-- And a right word at a falling change, if it has taken a left one. -/
theorem readRight_eq (h : Codec s inp E g) (t : ℕ) :
    (s t).readRight (inp t) =
      ((s t).audioController.doneDacChannelSync &&
        (s t).audioController.adcLeftRightClockEdges.fallingEdge &&
        (s t).audioController.audioOutSerializer.leftChannelWasRead) := by
  rw [← h.dacClock t]
  rfl

/-- Without a change of the clock nothing comes from the codec or goes to it. -/
theorem quiet_at (h : Codec s inp E g) {t : ℕ}
    (hq : (s t).audioController.adcLeftRightClockEdges.foundEdge = false) :
    (((s t).laneLIn (inp t)).write = false ∧ ((s t).laneLIn (inp t)).read = false) ∧
      ((s t).laneRIn (inp t)).write = false ∧ ((s t).laneRIn (inp t)).read = false := by
  obtain ⟨hrise, hfall⟩ := ClockEdge.edges_of_quiet hq
  refine ⟨⟨?_, ?_⟩, ?_, ?_⟩
  · simp [laneLIn, hfall]
  · show (s t).readLeft (inp t) = false
    rw [h.readLeft_eq, hrise]; simp
  · simp [laneRIn, hrise]
  · show (s t).readRight (inp t) = false
    rw [h.readRight_eq, hfall]; simp

/-- Between two changes both sides are quiet. -/
theorem quiet_between (h : Codec s inp E g) (n : ℕ) :
    AudioLane.Quiet (fun t => (s t).laneLIn (inp t)) (E n) (E (n + 1)) ∧
      AudioLane.Quiet (fun t => (s t).laneRIn (inp t)) (E n) (E (n + 1)) :=
  ⟨fun _ h1 h2 => (h.quiet_at (h.changes.quiet h1 h2)).1,
    fun _ h1 h2 => (h.quiet_at (h.changes.quiet h1 h2)).2⟩

/-- And the flags stay. -/
theorem flags_between (h : Codec s inp E g) {n t : ℕ} (h1 : E n + 1 ≤ t) (h2 : t ≤ E (n + 1)) :
    (s t).audioController.doneAdcChannelSync =
        (s (E n + 1)).audioController.doneAdcChannelSync ∧
      (s t).audioController.doneDacChannelSync =
        (s (E n + 1)).audioController.doneDacChannelSync ∧
      (s t).audioController.audioOutSerializer.leftChannelWasRead =
        (s (E n + 1)).audioController.audioOutSerializer.leftChannelWasRead := by
  induction t, h1 using Nat.le_induction with
  | base => exact ⟨rfl, rfl, rfl⟩
  | succ t h1 ih =>
    obtain ⟨hadc, hdac, hwas⟩ := ih (by omega)
    have hq := h.changes.quiet (n := n) (t := t) (by omega) (by omega)
    obtain ⟨hrise, hfall⟩ := ClockEdge.edges_of_quiet hq
    have hl : (s t).readLeft (inp t) = false := (h.quiet_at hq).1.2
    have hr : (s t).readRight (inp t) = false := (h.quiet_at hq).2.2
    refine ⟨?_, ?_, ?_⟩
    · rw [h.doneAdc_succ, hrise, Bool.false_or, hadc]
    · rw [h.doneDac_succ, hfall, Bool.false_or, hdac]
    · rw [h.wasRead_succ, hl, hr, Bool.false_or, Bool.not_false, Bool.and_true, hwas]

/-! ### Before the first word -/

/-- The first rising change is the one of `firstRise`. -/
theorem not_rising (h : Codec s inp E g) {t : ℕ} (ht : t < E (s 0).firstRise) :
    (s t).audioController.adcLeftRightClockEdges.risingEdge = false := by
  by_cases hfound : (s t).audioController.adcLeftRightClockEdges.foundEdge = true
  · obtain ⟨n, rfl⟩ := (h.changes.pulse_iff t).mp hfound
    have hn : n < (s 0).firstRise := by
      by_contra hle
      have := h.changes.monotone (not_lt.mp hle)
      omega
    have hg := h.five_le
    have hlast := ClockEdge.last_at h.isRun_clock h.changes (by omega) n
    -- the only change before the first rising one is a first falling one
    rw [firstRise] at hn
    cases hlevel : (s 0).audioController.adcLeftRightClockEdges.lastTestClk with
    | false => simp [hlevel] at hn
    | true =>
      have hn0 : n = 0 := by simpa [hlevel] using hn
      subst hn0
      rw [ClockEdge.risingEdge_eq hfound, hlast, hlevel]
      rfl
  · exact (ClockEdge.edges_of_quiet (Bool.eq_false_iff.mpr hfound)).1

/-- Nothing comes in or goes out up to the first left word. -/
theorem start (h : Codec s inp E g) {t : ℕ} (ht : t ≤ leftWord s E 0) :
    (s t).audioController.doneAdcChannelSync = decide (E (s 0).firstRise < t) ∧
      (s t).audioController.audioOutSerializer.leftChannelWasRead = false ∧
      ∃ n, (1 ≤ t → n = 0) ∧
        ((s t).laneL.inChannel.Holds [] 0 ∧ (s t).laneL.outChannel.Holds [] n) ∧
        (s t).laneR.inChannel.Holds [] 0 ∧ (s t).laneR.outChannel.Holds [] n := by
  induction t with
  | zero =>
    have hc := h.cleared
    -- a register that counts 128 words has no space
    have hspace : (0 : BitVec 8) = 0x80 - BitVec.ofNat 8 128 := by decide
    refine ⟨by rw [hc.doneAdc]; simp, hc.wasRead, 128, by omega, ⟨⟨⟨hc.words .leftIn, ?_⟩, ?_⟩,
      ⟨hc.words .leftOut, ?_⟩, ?_⟩, ⟨⟨hc.words .rightIn, ?_⟩, ?_⟩, ⟨hc.words .rightOut, ?_⟩, ?_⟩
    · simp
    · exact hc.readSpaceL
    · simp
    · exact hc.writeSpaceL.trans hspace
    · simp
    · exact hc.readSpaceR
    · simp
    · exact hc.writeSpaceR.trans hspace
  | succ t ih =>
    obtain ⟨hdone, hwas, n, -, ⟨hinL, houtL⟩, hinR, houtR⟩ := ih (by omega)
    have hmono : E (s 0).firstRise < leftWord s E 0 := by
      have := h.changes.spaced (s 0).firstRise
      have := h.five_le
      rw [leftWord, Nat.mul_zero, Nat.add_zero]
      omega
    -- no word is complete, as the first rising change is not past or the clock is quiet
    have hwrite : ((s t).laneLIn (inp t)).write = false ∧ ((s t).laneRIn (inp t)).write = false := by
      rcases Nat.lt_or_ge (E (s 0).firstRise) t with hlt | hge
      · have hq := h.changes.quiet hlt (show t < E ((s 0).firstRise + 1) from ht)
        exact ⟨(h.quiet_at hq).1.1, (h.quiet_at hq).2.1⟩
      · rw [decide_eq_false (by omega)] at hdone
        simp [laneLIn, laneRIn, hdone]
    -- the codec takes nothing from an empty FIFO
    have hreadL : ((s t).laneLIn (inp t)).read = false := by
      show (s t).readLeft (inp t) = false
      rw [h.readLeft_eq, F.empty_of_nil _ houtL.fifo.words]
      simp
    -- and no right word before a left one
    have hreadR : ((s t).laneRIn (inp t)).read = false := by
      show (s t).readRight (inp t) = false
      rw [h.readRight_eq, hwas]
      simp
    have hvalidL : (s t).laneL.valid = false := AudioLane.valid_eq hinL (Nat.zero_le _)
    have hvalidR : (s t).laneR.valid = false := AudioLane.valid_eq hinR (Nat.zero_le _)
    have hL := AudioLane.edge_waits hinL houtL hvalidL hwrite.1 hreadL
    have hR := AudioLane.edge_waits hinR houtR hvalidR hwrite.2 hreadR
    rw [← laneL_edge (h.reset t), ← h.run t] at hL
    rw [← laneR_edge (h.reset t), ← h.run t] at hR
    refine ⟨?_, ?_, 0, fun _ => rfl, hL, hR⟩
    · rw [h.doneAdc_succ, hdone]
      rcases Nat.lt_trichotomy t (E (s 0).firstRise) with hlt | heq | hgt
      · rw [h.not_rising hlt, decide_eq_false (by omega), decide_eq_false (by omega)]
        rfl
      · have hrise : (s t).audioController.adcLeftRightClockEdges.risingEdge = true := by
          rw [heq]
          exact (h.rising_at 0).1
        rw [hrise, decide_eq_true (show E (s 0).firstRise < t + 1 by omega), Bool.true_or]
      · rw [decide_eq_true hgt, decide_eq_true (show E (s 0).firstRise < t + 1 by omega),
          Bool.or_true]
    · have hread : (s t).readLeft (inp t) = false := hreadL
      rw [h.wasRead_succ, hwas, hread]
      rfl

/-! ### From word to word -/

/-- The two output words that the design offers for left word `k`. -/
def outL (s : ℕ → AudioSystem F) (inp : ℕ → In) (E : ℕ → ℕ) (k b : ℕ) : BitVec 24 :=
  (s (leftWord s E k + 2 + b)).channels.audioLOutData
    ((s (leftWord s E k + 2 + b)).channelsIn (inp (leftWord s E k + 2 + b)))

/-- The two output words that the design offers for right word `k`. -/
def outR (s : ℕ → AudioSystem F) (inp : ℕ → In) (E : ℕ → ℕ) (k b : ℕ) : BitVec 24 :=
  (s (rightWord s E k + 2 + b)).channels.audioROutData
    ((s (rightWord s E k + 2 + b)).channelsIn (inp (rightWord s E k + 2 + b)))

/-- When left word `k` is complete. -/
structure AtLeft (s : ℕ → AudioSystem F) (inp : ℕ → In) (E : ℕ → ℕ) (k : ℕ) : Prop where
  doneAdc : (s (leftWord s E k)).audioController.doneAdcChannelSync = true
  doneDac : 1 ≤ k → (s (leftWord s E k)).audioController.doneDacChannelSync = true
  wasRead : (s (leftWord s E k)).audioController.audioOutSerializer.leftChannelWasRead =
    decide (2 ≤ k)
  left : (s (leftWord s E k)).laneL.Rest (queue (outL s inp E) k)
  right : (s (leftWord s E k)).laneR.Rest (owed (outR s inp E) k)

/-- When right word `k` is complete. -/
structure AtRight (s : ℕ → AudioSystem F) (inp : ℕ → In) (E : ℕ → ℕ) (k : ℕ) : Prop where
  doneAdc : (s (rightWord s E k)).audioController.doneAdcChannelSync = true
  doneDac : (s (rightWord s E k)).audioController.doneDacChannelSync = true
  wasRead : (s (rightWord s E k)).audioController.audioOutSerializer.leftChannelWasRead = false
  left : (s (rightWord s E k)).laneL.Rest (owed (outL s inp E) (k + 1))
  right : (s (rightWord s E k)).laneR.Rest (queue (outR s inp E) k)

/-- A right word follows the left one. -/
theorem left_lt_right (h : Codec s inp E g) (k : ℕ) :
    leftWord s E k + g ≤ rightWord s E k := h.changes.spaced _

/-- The next left word follows that. -/
theorem right_lt_left (h : Codec s inp E g) (k : ℕ) :
    rightWord s E k + g ≤ leftWord s E (k + 1) := h.changes.spaced _

/-- The first left word finds both sides empty. -/
theorem atLeft_zero (h : Codec s inp E g) : AtLeft s inp E 0 := by
  have hpos : E (s 0).firstRise < leftWord s E 0 := by
    have := h.changes.spaced (s 0).firstRise
    have := h.five_le
    rw [leftWord, Nat.mul_zero, Nat.add_zero]
    omega
  obtain ⟨hdone, hwas, n, hn, ⟨hinL, houtL⟩, hinR, houtR⟩ := h.start le_rfl
  obtain rfl : n = 0 := hn (by omega)
  exact ⟨by rw [hdone, decide_eq_true hpos], fun h1 => absurd h1 (by decide), hwas,
    ⟨hinL, houtL, fun hne => absurd rfl hne⟩, ⟨hinR, houtR, fun hne => absurd rfl hne⟩⟩

namespace AtLeft

variable {k : ℕ}

/-- The codec takes no left word at a falling change. -/
theorem readL (h : Codec s inp E g) (k : ℕ) :
    ((s (leftWord s E k)).laneLIn (inp (leftWord s E k))).read = false := by
  show (s (leftWord s E k)).readLeft _ = false
  rw [h.readLeft_eq, (h.falling_at k).2]
  simp

/-- The codec takes a right word if it has taken a left one. -/
theorem readR (h : Codec s inp E g) (hk : AtLeft s inp E k) :
    ((s (leftWord s E k)).laneRIn (inp (leftWord s E k))).read = decide (2 ≤ k) := by
  show (s (leftWord s E k)).readRight _ = _
  rw [h.readRight_eq, (h.falling_at k).1, hk.wasRead]
  rcases Nat.lt_or_ge k 2 with hlt | hge
  · rw [decide_eq_false (by omega)]
    simp
  · rw [hk.doneDac (by omega), decide_eq_true hge]
    rfl

/-- The left word comes in. -/
theorem word (h : Codec s inp E g) (hk : AtLeft s inp E k) :
    AudioLane.Word (fun t => (s t).laneL) (fun t => (s t).laneLIn (inp t)) (leftWord s E k)
      (rightWord s E k) (queue (outL s inp E) k) where
  run := h.isRun_laneL
  rest := hk.left
  room := by rw [length_queue]; omega
  write := by
    show (_ && _) = true
    rw [(h.falling_at k).1, hk.doneAdc]
    rfl
  read := readL h k
  quiet := (h.quiet_between _).1
  five_le := le_trans (by have := h.five_le; omega) (h.left_lt_right k)

/-- The codec may take a right word. -/
theorem turn (h : Codec s inp E g) (hk : AtLeft s inp E k) :
    AudioLane.Turn (fun t => (s t).laneR) (fun t => (s t).laneRIn (inp t)) (leftWord s E k)
      (rightWord s E k) (owed (outR s inp E) k) where
  run := h.isRun_laneR
  rest := hk.right
  write := by
    show (_ && _) = false
    rw [(h.falling_at k).2]
    rfl
  read := fun hr => by
    rw [hk.readR h, decide_eq_true_eq] at hr
    exact List.ne_nil_of_length_pos (by rw [length_owed]; omega)
  quiet := (h.quiet_between _).2
  two_le := le_trans (by have := h.five_le; omega) (h.left_lt_right k)

/-- From a left word to the right one. -/
theorem atRight (h : Codec s inp E g) (hk : AtLeft s inp E k) : AtRight s inp E k := by
  have hg := h.five_le
  have hlt := h.left_lt_right k
  obtain ⟨hadc, hdac, hwas⟩ := h.flags_between (n := (s 0).firstRise + 2 * k + 1)
    (t := rightWord s E k) (by show leftWord s E k + 1 ≤ _; omega) le_rfl
  have hreadL : (s (leftWord s E k)).readLeft (inp (leftWord s E k)) = false := readL h k
  have hreadR : (s (leftWord s E k)).readRight (inp (leftWord s E k)) = decide (2 ≤ k) :=
    hk.readR h
  constructor
  · rw [hadc]
    show (s (leftWord s E k + 1)).audioController.doneAdcChannelSync = true
    rw [h.doneAdc_succ, hk.doneAdc, Bool.or_true]
  · rw [hdac]
    show (s (leftWord s E k + 1)).audioController.doneDacChannelSync = true
    rw [h.doneDac_succ, (h.falling_at k).1, Bool.true_or]
  · rw [hwas]
    show (s (leftWord s E k + 1)).audioController.audioOutSerializer.leftChannelWasRead = false
    rw [h.wasRead_succ, hk.wasRead, hreadL, hreadR]
    simp
  · exact (hk.word h).rest_until (by omega) le_rfl
  · have hrest := (hk.turn h).rest_until (t := rightWord s E k) (by omega) le_rfl
    rw [hk.readR h] at hrest
    simpa only [queue, decide_eq_true_eq] using hrest

end AtLeft

namespace AtRight

variable {k : ℕ}

/-- A right word is complete at a rising change. -/
theorem rising (h : Codec s inp E g) (k : ℕ) :
    (s (rightWord s E k)).audioController.adcLeftRightClockEdges.risingEdge = true ∧
      (s (rightWord s E k)).audioController.adcLeftRightClockEdges.fallingEdge = false :=
  h.rising_at (k + 1)

/-- The codec takes no right word there. -/
theorem readR (h : Codec s inp E g) (k : ℕ) :
    ((s (rightWord s E k)).laneRIn (inp (rightWord s E k))).read = false := by
  show (s (rightWord s E k)).readRight _ = false
  rw [h.readRight_eq, (rising h k).2]
  simp

/-- The codec takes a left word as soon as there is a right one, which is at word 1. -/
theorem readL (h : Codec s inp E g) (hk : AtRight s inp E k) :
    ((s (rightWord s E k)).laneLIn (inp (rightWord s E k))).read = decide (1 ≤ k) := by
  show (s (rightWord s E k)).readLeft _ = _
  have hleft : F.empty (s (rightWord s E k)).laneL.outChannel.fifo = false :=
    hk.left.shown (List.ne_nil_of_length_pos (by rw [length_owed]; omega))
  rw [h.readLeft_eq, (rising h k).1, hk.doneDac, hleft]
  rcases Nat.eq_zero_or_pos k with rfl | hpos
  · have hnil : F.words (s (rightWord s E 0)).laneR.outChannel.fifo = [] :=
      hk.right.outChannel.fifo.words
    rw [F.empty_of_nil _ hnil]
    rfl
  · rw [hk.right.shown (List.ne_nil_of_length_pos (by rw [length_queue]; omega)),
      decide_eq_true (show 1 ≤ k from hpos)]
    rfl

/-- The right word comes in. -/
theorem word (h : Codec s inp E g) (hk : AtRight s inp E k) :
    AudioLane.Word (fun t => (s t).laneR) (fun t => (s t).laneRIn (inp t)) (rightWord s E k)
      (leftWord s E (k + 1)) (queue (outR s inp E) k) where
  run := h.isRun_laneR
  rest := hk.right
  room := by rw [length_queue]; omega
  write := by
    show (_ && _) = true
    rw [(rising h k).1, hk.doneAdc]
    rfl
  read := readR h k
  quiet := (h.quiet_between _).2
  five_le := le_trans (by have := h.five_le; omega) (h.right_lt_left k)

/-- The codec may take a left word. -/
theorem turn (h : Codec s inp E g) (hk : AtRight s inp E k) :
    AudioLane.Turn (fun t => (s t).laneL) (fun t => (s t).laneLIn (inp t)) (rightWord s E k)
      (leftWord s E (k + 1)) (owed (outL s inp E) (k + 1)) where
  run := h.isRun_laneL
  rest := hk.left
  write := by
    show (_ && _) = false
    rw [(rising h k).2]
    rfl
  read := fun _ => List.ne_nil_of_length_pos (by rw [length_owed]; omega)
  quiet := (h.quiet_between _).1
  two_le := le_trans (by have := h.five_le; omega) (h.right_lt_left k)

/-- From a right word to the next left one. -/
theorem atLeft (h : Codec s inp E g) (hk : AtRight s inp E k) : AtLeft s inp E (k + 1) := by
  have hg := h.five_le
  have hlt := h.right_lt_left k
  obtain ⟨hadc, hdac, hwas⟩ := h.flags_between (n := (s 0).firstRise + 2 * k + 2)
    (t := leftWord s E (k + 1)) (by show rightWord s E k + 1 ≤ _; omega) le_rfl
  have hreadR : (s (rightWord s E k)).readRight (inp (rightWord s E k)) = false := readR h k
  have hreadL : (s (rightWord s E k)).readLeft (inp (rightWord s E k)) = decide (1 ≤ k) :=
    hk.readL h
  -- a left word is taken from word 1 on, and the right one after it from word 2 on
  have hk2 : decide (2 ≤ k + 1) = decide (1 ≤ k) := by
    congr 1
    rw [eq_iff_iff]
    omega
  constructor
  · rw [hadc]
    show (s (rightWord s E k + 1)).audioController.doneAdcChannelSync = true
    rw [h.doneAdc_succ, hk.doneAdc, Bool.or_true]
  · intro _
    rw [hdac]
    show (s (rightWord s E k + 1)).audioController.doneDacChannelSync = true
    rw [h.doneDac_succ, hk.doneDac, Bool.or_true]
  · rw [hwas]
    show (s (rightWord s E k + 1)).audioController.audioOutSerializer.leftChannelWasRead = _
    rw [h.wasRead_succ, hk.wasRead, hreadL, hk2]
    simp
  · have hrest := (hk.turn h).rest_until (t := leftWord s E (k + 1)) (by omega) le_rfl
    rw [hk.readL h, ← hk2] at hrest
    simpa only [queue, decide_eq_true_eq] using hrest
  · exact (hk.word h).rest_until (by omega) le_rfl

end AtRight

/-- **The period of the codec**: what holds whenever one of its words is complete. -/
theorem atLeft (h : Codec s inp E g) (k : ℕ) : AtLeft s inp E k := by
  induction k with
  | zero => exact h.atLeft_zero
  | succ k ih => exact (ih.atRight h).atLeft h

/-- And half a period later. -/
theorem atRight (h : Codec s inp E g) (k : ℕ) : AtRight s inp E k := (h.atLeft k).atRight h

/-! ### The words come in -/

/-- Every edge is before the first left word or in the period of one. -/
theorem period (h : Codec s inp E g) {t : ℕ} (ht : leftWord s E 0 ≤ t) :
    ∃ k, leftWord s E k ≤ t ∧ t < leftWord s E (k + 1) := by
  have hg := h.five_le
  induction t, ht using Nat.le_induction with
  | base => exact ⟨0, le_rfl, by have := h.left_lt_right 0; have := h.right_lt_left 0; omega⟩
  | succ t _ ih =>
    obtain ⟨k, h1, h2⟩ := ih
    rcases Nat.lt_or_ge (t + 1) (leftWord s E (k + 1)) with hlt | hge
    · exact ⟨k, by omega, hlt⟩
    · have := h.left_lt_right (k + 1)
      have := h.right_lt_left (k + 1)
      exact ⟨k + 1, hge, by omega⟩

/-- The left `valid` is high for two edges after each left word. -/
theorem validL_iff (h : Codec s inp E g) (t : ℕ) :
    (s t).laneL.valid = true ↔ ∃ k, t = leftWord s E k + 2 ∨ t = leftWord s E k + 3 := by
  constructor
  · intro hv
    rcases Nat.lt_or_ge t (leftWord s E 0) with hlt | hge
    -- before the first word the side has none
    · obtain ⟨-, -, n, -, ⟨hin, -⟩, -⟩ := h.start (t := t) (by omega)
      rw [AudioLane.valid_eq hin (Nat.zero_le _)] at hv
      exact absurd hv (by decide)
    · obtain ⟨k, h1, h2⟩ := h.period hge
      rcases Nat.lt_or_ge t (rightWord s E k) with hlt | hge'
      · exact ⟨k, (((h.atLeft k).word h).valid_iff h1 hlt).mp hv⟩
      -- in the second half of the period the side is at rest
      · rw [((h.atRight k).turn h).valid_eq_false hge' h2] at hv
        exact absurd hv (by decide)
  · rintro ⟨k, rfl | rfl⟩
    · exact ((h.atLeft k).word h).valid_first
    · exact ((h.atLeft k).word h).valid_second

/-- So is the right one after each right word. -/
theorem validR_iff (h : Codec s inp E g) (t : ℕ) :
    (s t).laneR.valid = true ↔ ∃ k, t = rightWord s E k + 2 ∨ t = rightWord s E k + 3 := by
  constructor
  · intro hv
    rcases Nat.lt_or_ge t (leftWord s E 0) with hlt | hge
    · obtain ⟨-, -, n, -, -, hin, -⟩ := h.start (t := t) (by omega)
      rw [AudioLane.valid_eq hin (Nat.zero_le _)] at hv
      exact absurd hv (by decide)
    · obtain ⟨k, h1, h2⟩ := h.period hge
      rcases Nat.lt_or_ge t (rightWord s E k) with hlt | hge'
      · rw [((h.atLeft k).turn h).valid_eq_false h1 hlt] at hv
        exact absurd hv (by decide)
      · exact ⟨k, (((h.atRight k).word h).valid_iff hge' h2).mp hv⟩
  · rintro ⟨k, rfl | rfl⟩
    · exact ((h.atRight k).word h).valid_first
    · exact ((h.atRight k).word h).valid_second

/-- From the second edge with `valid` up to the next left word, the left FIFO from the codec has no
    word. -/
theorem emptyL (h : Codec s inp E g) {k t : ℕ} (h1 : leftWord s E k + 3 ≤ t)
    (h2 : t ≤ leftWord s E (k + 1)) : F.words ((s t).audioController.fifo .leftIn) = [] := by
  rcases Nat.lt_or_ge t (rightWord s E k) with hlt | hge
  · exact ((h.atLeft k).word h).words_nil h1 hlt.le
  · exact ((h.atRight k).turn h).words_nil hge h2

/-- So it is on the right. -/
theorem emptyR (h : Codec s inp E g) {k t : ℕ} (h1 : rightWord s E k + 3 ≤ t)
    (h2 : t ≤ rightWord s E (k + 1)) : F.words ((s t).audioController.fifo .rightIn) = [] := by
  rcases Nat.lt_or_ge t (leftWord s E (k + 1)) with hlt | hge
  · exact ((h.atRight k).word h).words_nil h1 hlt.le
  · exact ((h.atLeft (k + 1)).turn h).words_nil hge h2

/-! ### The words go out -/

end AudioSystem.Codec

end Reverb
