import ReverbFPGA.Hardware.AudioController

namespace Reverb

/-!
# One side of the audio controller

A side has a FIFO from the codec and one to it.  The design passes `ready` of the one on to the
other and `valid` back, so a word leaves the first FIFO when the second one takes a word in.  Both
`valid` and `ready` are read off registers that count the words an edge late:

* `AudioLane.Rest` — nothing is under way: no word from the codec, and the registers have
  caught up;
* `AudioLane.Rest.word` — a word from the codec: `valid` is high for two edges, and the word has
  left the FIFO after the first;
* `AudioLane.Rest.turn` — a word that the codec takes.
-/

open Clocked Fifo

variable {F : SyncFifo}

/-! ### The FIFOs and their registers -/

/-- The FIFO holds the words `ws`. -/
structure SyncFifo.Holds (F : SyncFifo) (s : F.State) (ws : List (BitVec 24)) : Prop where
  words : F.words s = ws
  length_le : ws.length ≤ 128

namespace SyncFifo.Holds

variable {s : F.State} {ws : List (BitVec 24)}

/-- The flag of the FIFO counts its words. -/
theorem full_eq (h : Holds F s ws) : F.full s = decide (ws.length = 128) := by
  rw [ShowAhead.full, h.words]

/-- The flag and the seven bits of `words_used` together are the number of words. -/
theorem used_eq (h : Holds F s ws) : SyncFifo.used F s = BitVec.ofNat 8 ws.length := by
  apply BitVec.eq_of_toNat_eq
  rw [SyncFifo.used, BitVec.toNat_cons', h.full_eq, ShowAhead.usedw, h.words]
  rcases Nat.lt_or_eq_of_le h.length_le with hlt | heq
  -- seven bits count up to 127, and 128 words show as a zero under the flag
  · have hne : ws.length ≠ 128 := by omega
    simp [hne]
    omega
  · simp [heq]

/-- A write that `full` holds back and a read that `empty` holds back are lawful. -/
theorem lawful (h : Holds F s ws) {i : In (BitVec 24)} {write : Bool}
    (hwr : i.wrreq = (write && !F.full s)) (hrd : i.rdreq = true → F.empty s = false) :
    F.Lawful s i where
  wrreq := fun hw => by
    have hlen := h.length_le
    simp only [hwr, h.full_eq, Bool.and_eq_true, Bool.not_eq_true', decide_eq_false_iff_not] at hw
    rw [h.words]
    omega
  rdreq := hrd

/-- What the FIFO holds after an edge: the words that were left, and the new one if there was
    room. -/
theorem edge (h : Holds F s ws) {i : In (BitVec 24)} {write : Bool} (hsclr : i.sclr = false)
    (hwr : i.wrreq = (write && !F.full s)) (hrd : i.rdreq = true → F.empty s = false) :
    Holds F (F.edge s i)
      (i.left ws ++ if write && !decide (ws.length = 128) then [i.data] else []) := by
  have hlaw := h.lawful hwr hrd
  have hwords : F.words (F.edge s i) =
      i.left ws ++ if write && !decide (ws.length = 128) then [i.data] else [] := by
    rw [hlaw.words_edge hsclr, In.written, h.words, hwr, h.full_eq]
  refine ⟨hwords, ?_⟩
  rw [← hwords]
  exact hlaw.length_le (by rw [h.words]; exact h.length_le)

/-- A word that is there and not read is on show after the edge. -/
theorem shown (h : Holds F s ws) {i : In (BitVec 24)} {write : Bool} (hsclr : i.sclr = false)
    (hwr : i.wrreq = (write && !F.full s)) (hrd : i.rdreq = true → F.empty s = false)
    (hne : i.left ws ≠ []) : F.empty (F.edge s i) = false :=
  (h.lawful hwr hrd).empty_edge hsclr (by rwa [h.words])

end SyncFifo.Holds

/-- The FIFO holds the words `ws`, and the register has counted `n`. -/
structure InChannel.Holds (c : InChannel F) (ws : List (BitVec 24)) (n : ℕ) : Prop where
  fifo : SyncFifo.Holds F c.fifo ws
  readSpace : c.readSpace = BitVec.ofNat 8 n

/-- Whatever happens at an edge, the register counts the words from before it. -/
theorem InChannel.Holds.edge {c : InChannel F} {ws : List (BitVec 24)} {n : ℕ} (h : c.Holds ws n)
    (write : Bool) (data : BitVec 24) (readEn : Bool) :
    (c.edge false write data readEn).Holds
      ((if readEn && !F.empty c.fifo then ws.tail else ws) ++
        if write && !decide (ws.length = 128) then [data] else []) ws.length where
  fifo := h.fifo.edge (i := c.fifoIn false write data readEn) rfl rfl fun hrd => by
    simp only [fifoIn, Bool.and_eq_true, Bool.not_eq_true'] at hrd
    exact hrd.2
  readSpace := h.fifo.used_eq

/-- The FIFO holds the words `ws`, and the register has counted `n`. -/
structure OutChannel.Holds (c : OutChannel F) (ws : List (BitVec 24)) (n : ℕ) : Prop where
  fifo : SyncFifo.Holds F c.fifo ws
  writeSpace : c.writeSpace = 0x80 - BitVec.ofNat 8 n

/-- The same for a FIFO toward the codec, whose reads the serializer guards by `empty`. -/
theorem OutChannel.Holds.edge {c : OutChannel F} {ws : List (BitVec 24)} {n : ℕ} (h : c.Holds ws n)
    (dataEn : Bool) (data : BitVec 24) {read : Bool}
    (hread : read = true → F.empty c.fifo = false) :
    (c.edge false dataEn data read).Holds
      ((if read then ws.tail else ws) ++
        if dataEn && !decide (ws.length = 128) then [data] else []) ws.length where
  fifo := h.fifo.edge (i := c.fifoIn false dataEn data read) rfl rfl hread
  writeSpace := congrArg (0x80 - ·) h.fifo.used_eq

/-- The words after an edge at which one comes in and none is read. -/
theorem append_eq_take {ws : List (BitVec 24)} (h : ws.length ≤ 128) (data : BitVec 24) :
    (ws ++ if true && !decide (ws.length = 128) then [data] else []) =
      (ws ++ [data]).take 128 := by
  rcases Nat.lt_or_eq_of_le h with hlt | heq
  -- there is room for the word
  · have hne : ws.length ≠ 128 := by omega
    rw [List.take_of_length_le (by simp; omega)]
    simp [hne]
  · rw [← heq, List.take_left]
    simp [heq]

/-! ### A side -/

/-- The channels of one side. -/
structure AudioLane (F : SyncFifo) where
  inChannel : InChannel F
  outChannel : OutChannel F

/-- What comes to a side: a word of the codec, the output word of the design, and the codec taking
    a word. -/
structure AudioLane.In where
  write : Bool
  data : BitVec 24
  outData : BitVec 24
  read : Bool

namespace AudioLane

/-- `valid` of the side: its registered read space is not zero. -/
def valid (s : AudioLane F) : Bool := s.inChannel.readSpace != 0

/-- `ready` of the side: its registered write space is not zero. -/
def ready (s : AudioLane F) : Bool := s.outChannel.writeSpace != 0

/-- An edge without reset.  With `valid` and `ready` high a word is handed over to the design and
    one is taken from it. -/
def edge (s : AudioLane F) (i : In) : AudioLane F where
  inChannel := s.inChannel.edge false i.write i.data (s.valid && s.ready)
  outChannel := s.outChannel.edge false (s.valid && s.ready) i.outData i.read

variable {s : ℕ → AudioLane F} {inp : ℕ → In} {ws : List (BitVec 24)}

/-- `valid` tells whether words had been counted. -/
theorem valid_eq {s : AudioLane F} {n : ℕ} (h : s.inChannel.Holds ws n) (hn : n ≤ 128) :
    s.valid = decide (n ≠ 0) := by
  rw [valid, h.readSpace, Bool.eq_iff_iff]
  simp only [bne_iff_ne, decide_eq_true_eq, ne_eq, BitVec.ofNat_eq_ofNat, BitVec.toNat_eq,
    BitVec.toNat_ofNat]
  omega

/-- With room for a word, `ready` is high. -/
theorem ready_of_lt {s : AudioLane F} {n : ℕ} (h : s.outChannel.Holds ws n) (hn : n < 128) :
    s.ready = true := by
  rw [ready, h.writeSpace]
  simp only [bne_iff_ne, ne_eq, BitVec.ofNat_eq_ofNat, BitVec.toNat_eq, BitVec.toNat_sub,
    BitVec.toNat_ofNat]
  omega

/-! One edge at which nothing comes from the codec and nothing goes to it. -/

section quiet

variable {s : AudioLane F} {i : In} {vs ws : List (BitVec 24)} {m n : ℕ}

/-- Without a transfer both FIFOs keep their words. -/
theorem edge_waits (hin : s.inChannel.Holds vs m) (hout : s.outChannel.Holds ws n)
    (hvalid : s.valid = false) (hwrite : i.write = false) (hread : i.read = false) :
    (s.edge i).inChannel.Holds vs vs.length ∧ (s.edge i).outChannel.Holds ws ws.length := by
  have hnone : i.read = true → F.empty s.outChannel.fifo = false := by simp [hread]
  have hin' := hin.edge i.write i.data (s.valid && s.ready)
  have hout' := hout.edge (s.valid && s.ready) i.outData hnone
  constructor
  · simpa [edge, hvalid, hwrite] using hin'
  · simpa [edge, hvalid, hread] using hout'

/-- At a transfer the word that is on show goes, and one comes in if there is room. -/
theorem edge_transfers (hin : s.inChannel.Holds vs m) (hout : s.outChannel.Holds ws n)
    (hvalid : s.valid = true) (hready : s.ready = true) (hwrite : i.write = false)
    (hread : i.read = false) :
    (s.edge i).inChannel.Holds (if F.empty s.inChannel.fifo then vs else vs.tail) vs.length ∧
      (s.edge i).outChannel.Holds ((ws ++ [i.outData]).take 128) ws.length := by
  -- nothing is read on the side of the codec
  have hnone : i.read = true → F.empty s.outChannel.fifo = false := by simp [hread]
  have hin' := hin.edge i.write i.data (s.valid && s.ready)
  have hout' := hout.edge (s.valid && s.ready) i.outData hnone
  constructor
  · simp only [hvalid, hready, hwrite, Bool.and_true, Bool.true_and, Bool.false_and,
      Bool.false_eq_true, if_false, List.append_nil] at hin'
    simp only [edge, hvalid, hready, hwrite, Bool.and_true]
    cases hempty : F.empty s.inChannel.fifo <;> simpa [hempty] using hin'
  · rw [← append_eq_take hout.fifo.length_le]
    simpa [edge, hvalid, hready, hread] using hout'

/-- A word that the codec is to take is on show after the edge. -/
theorem edge_shown (hout : s.outChannel.Holds ws n) (hread : i.read = false) (hne : ws ≠ []) :
    F.empty (s.edge i).outChannel.fifo = false :=
  hout.fifo.shown (i := s.outChannel.fifoIn false (s.valid && s.ready) i.outData i.read) rfl rfl
    (fun hrd => absurd hrd (by simp [OutChannel.fifoIn, hread]))
    (by simpa [In.left, OutChannel.fifoIn, hread] using hne)

end quiet

/-- Nothing is under way, and the codec is still to take the words `ws`. -/
structure Rest (s : AudioLane F) (ws : List (BitVec 24)) : Prop where
  inChannel : s.inChannel.Holds [] 0
  outChannel : s.outChannel.Holds ws ws.length
  shown : ws ≠ [] → F.empty s.outChannel.fifo = false

namespace Rest

/-- At rest no transfer is under way. -/
theorem valid_eq_false {s : AudioLane F} (h : s.Rest ws) : s.valid = false :=
  valid_eq h.inChannel (Nat.zero_le _)

/-- Without a word of the codec, and with none taken by it, a side stays at rest. -/
theorem edge {s : AudioLane F} (h : s.Rest ws) {i : In} (hwrite : i.write = false)
    (hread : i.read = false) : (s.edge i).Rest ws where
  inChannel := (edge_waits h.inChannel h.outChannel h.valid_eq_false hwrite hread).1
  outChannel := (edge_waits h.inChannel h.outChannel h.valid_eq_false hwrite hread).2
  shown := edge_shown h.outChannel hread

end Rest

/-- Between the edges `u` and `v` no word comes from the codec, and it takes none. -/
def Quiet (inp : ℕ → In) (u v : ℕ) : Prop :=
  ∀ t, u < t → t < v → (inp t).write = false ∧ (inp t).read = false

/-- A side at rest stays so. -/
theorem Rest.until (hrun : IsRun AudioLane.edge s inp) {u v a b : ℕ} (hq : Quiet inp u v)
    (h : (s a).Rest ws) (hua : u < a) (hab : a ≤ b) (hbv : b ≤ v) : (s b).Rest ws := by
  induction b, hab using Nat.le_induction with
  | base => exact h
  | succ t hat ih =>
    obtain ⟨hwrite, hread⟩ := hq t (by omega) (by omega)
    rw [hrun t]
    exact (ih (by omega)).edge hwrite hread

/-! ### A word of the codec -/

/-- At edge `u` a word of the codec is complete, on a side that keeps the words `ws` for the codec,
    and up to edge `v` nothing else comes. -/
structure Word (s : ℕ → AudioLane F) (inp : ℕ → In) (u v : ℕ) (ws : List (BitVec 24)) :
    Prop where
  run : IsRun edge s inp
  rest : (s u).Rest ws
  room : ws.length < 128
  write : (inp u).write = true
  read : (inp u).read = false
  quiet : Quiet inp u v
  five_le : u + 5 ≤ v

namespace Word

variable {u v : ℕ}

/-- The four edges after the word are quiet. -/
theorem quiet_at (h : Word s inp u v ws) {k : ℕ} (h1 : 1 ≤ k) (h5 : k < 5) :
    (inp (u + k)).write = false ∧ (inp (u + k)).read = false := by
  have := h.five_le
  exact h.quiet _ (by omega) (by omega)

/-- After one edge the word is in the FIFO, not counted yet. -/
theorem after_one (h : Word s inp u v ws) :
    (s (u + 1)).inChannel.Holds [(inp u).data] 0 ∧ (s (u + 1)).outChannel.Holds ws ws.length ∧
      (s (u + 1)).valid = false := by
  have hread := h.read
  have hnone : (inp u).read = true → F.empty (s u).outChannel.fifo = false := by simp [hread]
  have hin := h.rest.inChannel.edge (inp u).write (inp u).data ((s u).valid && (s u).ready)
  have hout := h.rest.outChannel.edge ((s u).valid && (s u).ready) (inp u).outData hnone
  have hin' : (s (u + 1)).inChannel.Holds [(inp u).data] 0 := by
    rw [h.run u]
    simpa [edge, h.rest.valid_eq_false, h.write] using hin
  refine ⟨hin', ?_, valid_eq hin' (by omega)⟩
  rw [h.run u]
  simpa [edge, h.rest.valid_eq_false, hread] using hout

/-- After two edges it is counted and on show. -/
theorem after_two (h : Word s inp u v ws) :
    (s (u + 2)).inChannel.Holds [(inp u).data] 1 ∧ (s (u + 2)).outChannel.Holds ws ws.length ∧
      F.empty (s (u + 2)).inChannel.fifo = false := by
  obtain ⟨hin, hout, hvalid⟩ := h.after_one
  obtain ⟨hwrite, hread⟩ := h.quiet_at (k := 1) le_rfl (by omega)
  have hedge : s (u + 2) = (s (u + 1)).edge (inp (u + 1)) := h.run (u + 1)
  obtain ⟨hin', hout'⟩ := edge_waits hin hout hvalid hwrite hread
  rw [hedge]
  -- the FIFO shows a word that has been in it for an edge
  refine ⟨hin', hout', ?_⟩
  exact hin.fifo.shown
    (i := (s (u + 1)).inChannel.fifoIn false (inp (u + 1)).write (inp (u + 1)).data
      ((s (u + 1)).valid && (s (u + 1)).ready)) rfl rfl
    (fun hrd => absurd hrd (by simp [InChannel.fifoIn, hvalid]))
    (by simp [In.left, InChannel.fifoIn, hvalid])

/-- The first of the two transfers. -/
theorem valid_first (h : Word s inp u v ws) : (s (u + 2)).valid = true :=
  valid_eq h.after_two.1 (by omega)

/-- There is room for its word. -/
theorem ready_first (h : Word s inp u v ws) : (s (u + 2)).ready = true :=
  ready_of_lt h.after_two.2.1 h.room

/-- After three edges the word is gone, and still counted. -/
theorem after_three (h : Word s inp u v ws) :
    (s (u + 3)).inChannel.Holds [] 1 ∧
      (s (u + 3)).outChannel.Holds (ws ++ [(inp (u + 2)).outData]) ws.length := by
  obtain ⟨hin, hout, hempty⟩ := h.after_two
  obtain ⟨hwrite, hread⟩ := h.quiet_at (k := 2) (by omega) (by omega)
  have hedge : s (u + 3) = (s (u + 2)).edge (inp (u + 2)) := h.run (u + 2)
  obtain ⟨hin', hout'⟩ := edge_transfers hin hout h.valid_first h.ready_first hwrite hread
  have hroom := h.room
  rw [List.take_of_length_le (by simp; omega)] at hout'
  rw [hempty] at hin'
  rw [hedge]
  exact ⟨hin', hout'⟩

/-- So `valid` is high once more, with no word left. -/
theorem valid_second (h : Word s inp u v ws) : (s (u + 3)).valid = true :=
  valid_eq h.after_three.1 (by omega)

/-- With 127 words at most before the first transfer, the second one finds `ready` high too, since
    the write space is registered. -/
theorem ready_second (h : Word s inp u v ws) : (s (u + 3)).ready = true :=
  ready_of_lt h.after_three.2 h.room

/-- After four edges `valid` is low, and the second output word is in the FIFO if there was still
    room for it. -/
theorem after_four (h : Word s inp u v ws) :
    (s (u + 4)).inChannel.Holds [] 0 ∧
      (s (u + 4)).outChannel.Holds
        ((ws ++ [(inp (u + 2)).outData, (inp (u + 3)).outData]).take 128) (ws.length + 1) := by
  obtain ⟨hin, hout⟩ := h.after_three
  obtain ⟨hwrite, hread⟩ := h.quiet_at (k := 3) (by omega) (by omega)
  have hedge : s (u + 4) = (s (u + 3)).edge (inp (u + 3)) := h.run (u + 3)
  obtain ⟨hin', hout'⟩ := edge_transfers hin hout h.valid_second h.ready_second hwrite hread
  rw [hedge]
  refine ⟨by simpa using hin', ?_⟩
  simpa using hout'

/-- **After five edges the side is at rest again.** -/
theorem rest_after (h : Word s inp u v ws) :
    (s (u + 5)).Rest ((ws ++ [(inp (u + 2)).outData, (inp (u + 3)).outData]).take 128) := by
  obtain ⟨hin, hout⟩ := h.after_four
  obtain ⟨hwrite, hread⟩ := h.quiet_at (k := 4) (by omega) (by omega)
  have hedge : s (u + 5) = (s (u + 4)).edge (inp (u + 4)) := h.run (u + 4)
  have hvalid : (s (u + 4)).valid = false := valid_eq hin (Nat.zero_le _)
  obtain ⟨hin', hout'⟩ := edge_waits hin hout hvalid hwrite hread
  rw [hedge]
  exact ⟨hin', hout', edge_shown hout hread⟩

/-- From then on it stays at rest, with the two words more for the codec. -/
theorem rest_until (h : Word s inp u v ws) {t : ℕ} (hut : u + 5 ≤ t) (htv : t ≤ v) :
    (s t).Rest ((ws ++ [(inp (u + 2)).outData, (inp (u + 3)).outData]).take 128) :=
  h.rest_after.until h.run h.quiet (by omega) hut htv

/-- **`valid` is high for two edges.** -/
theorem valid_iff (h : Word s inp u v ws) {t : ℕ} (hut : u ≤ t) (htv : t < v) :
    (s t).valid = true ↔ t = u + 2 ∨ t = u + 3 := by
  rcases Nat.lt_or_ge t (u + 5) with hlt | hge
  · obtain rfl | rfl | rfl | rfl | rfl :
        t = u ∨ t = u + 1 ∨ t = u + 2 ∨ t = u + 3 ∨ t = u + 4 := by omega
    · simp [h.rest.valid_eq_false]
    · simp [h.after_one.2.2]
    · simp [h.valid_first]
    · simp [h.valid_second]
    · simp [valid_eq h.after_four.1 (Nat.zero_le _)]
  · rw [(h.rest_until hge (by omega)).valid_eq_false]
    constructor
    · intro hv
      exact absurd hv (by decide)
    · omega

/-- From the second of them on the FIFO from the codec is empty. -/
theorem words_nil (h : Word s inp u v ws) {t : ℕ} (hut : u + 3 ≤ t) (htv : t ≤ v) :
    F.words (s t).inChannel.fifo = [] := by
  rcases Nat.lt_or_ge t (u + 5) with hlt | hge
  · obtain rfl | rfl : t = u + 3 ∨ t = u + 4 := by omega
    · exact h.after_three.1.fifo.words
    · exact h.after_four.1.fifo.words
  · exact (h.rest_until hge htv).inChannel.fifo.words

end Word

/-! ### A turn of the codec -/

/-- At edge `u` the codec takes a word from a side at rest, or it leaves it; up to edge `v` nothing
    else comes. -/
structure Turn (s : ℕ → AudioLane F) (inp : ℕ → In) (u v : ℕ) (ws : List (BitVec 24)) :
    Prop where
  run : IsRun edge s inp
  rest : (s u).Rest ws
  write : (inp u).write = false
  read : (inp u).read = true → ws ≠ []
  quiet : Quiet inp u v
  two_le : u + 2 ≤ v

namespace Turn

variable {u v : ℕ}

/-- After one edge the word is gone, and the register still counts it. -/
theorem after_one (h : Turn s inp u v ws) :
    (s (u + 1)).inChannel.Holds [] 0 ∧
      (s (u + 1)).outChannel.Holds (if (inp u).read then ws.tail else ws) ws.length := by
  have hshown : (inp u).read = true → F.empty (s u).outChannel.fifo = false :=
    fun hrd => h.rest.shown (h.read hrd)
  have hin := h.rest.inChannel.edge (inp u).write (inp u).data ((s u).valid && (s u).ready)
  have hout := h.rest.outChannel.edge ((s u).valid && (s u).ready) (inp u).outData hshown
  rw [h.run u]
  constructor
  · simpa [edge, h.rest.valid_eq_false, h.write] using hin
  · simpa [edge, h.rest.valid_eq_false] using hout

/-- The first word is gone if it was taken. -/
theorem rest_until (h : Turn s inp u v ws) {t : ℕ} (hut : u + 2 ≤ t) (htv : t ≤ v) :
    (s t).Rest (if (inp u).read then ws.tail else ws) := by
  obtain ⟨hin, hout⟩ := h.after_one
  have hle := h.two_le
  obtain ⟨hwrite, hread⟩ := h.quiet (u + 1) (by omega) (by omega)
  have hedge : s (u + 2) = (s (u + 1)).edge (inp (u + 1)) := h.run (u + 1)
  have hvalid : (s (u + 1)).valid = false := valid_eq hin (Nat.zero_le _)
  obtain ⟨hin', hout'⟩ := edge_waits hin hout hvalid hwrite hread
  have hrest : (s (u + 2)).Rest (if (inp u).read then ws.tail else ws) := by
    rw [hedge]
    exact ⟨hin', hout', edge_shown hout hread⟩
  exact hrest.until h.run h.quiet (by omega) hut htv

/-- `valid` stays low. -/
theorem valid_eq_false (h : Turn s inp u v ws) {t : ℕ} (hut : u ≤ t) (htv : t < v) :
    (s t).valid = false := by
  rcases Nat.lt_or_ge t (u + 2) with hlt | hge
  · obtain rfl | rfl : t = u ∨ t = u + 1 := by omega
    · exact h.rest.valid_eq_false
    · exact valid_eq h.after_one.1 (Nat.zero_le _)
  · exact (h.rest_until hge (by omega)).valid_eq_false

/-- The FIFO from the codec stays empty. -/
theorem words_nil (h : Turn s inp u v ws) {t : ℕ} (hut : u ≤ t) (htv : t ≤ v) :
    F.words (s t).inChannel.fifo = [] := by
  rcases Nat.lt_or_ge t (u + 2) with hlt | hge
  · obtain rfl | rfl : t = u ∨ t = u + 1 := by omega
    · exact h.rest.inChannel.fifo.words
    · exact h.after_one.1.fifo.words
  · exact (h.rest_until hge htv).inChannel.fifo.words

end Turn

end AudioLane

end Reverb
