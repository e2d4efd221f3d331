import Mathlib.Tactic.SplitIfs
import ReverbFPGA.Lib.Clocked

namespace Fifo

/-!
# Synchronous FIFOs

What a design relies on when it uses a synchronous FIFO with the first word on show: a record of
the ports and of what they promise.  The words are written at one end and read at the other, and
`full` and `usedw` follow them at once; the flag `empty` may fall one edge later than the first
word comes in.  Nothing is promised when a word is written to a full FIFO or read from an empty
one, or about the word on show while `empty` is high.

* `ShowAhead` — the promises;
* `Lawful` — a use of the ports to which they apply;
* `written_eq` — under lawful use the words that went in are the words that were read, in the same
  order, and those still in the FIFO;
* `plain` — a FIFO that keeps the promises.
-/

open Clocked

variable {α : Type} {depth : ℕ}

/-- The ports of a FIFO. -/
structure In (α : Type) where
  sclr : Bool
  wrreq : Bool
  data : α
  rdreq : Bool

/-- What is left of the words after a read, if there is one. -/
def In.left (i : In α) (words : List α) : List α := if i.rdreq then words.tail else words

/-- The word that goes in, if there is one. -/
def In.written (i : In α) : List α := if i.wrreq then [i.data] else []

/-- A FIFO for `depth` words of `α`. -/
structure ShowAhead (α : Type) (depth : ℕ) where
  State : Type
  edge : State → In α → State
  empty : State → Bool
  q : State → α
  /-- The words in the FIFO, the first one to be read first. -/
  words : State → List α
  words_sclr : ∀ s i, i.sclr = true → words (edge s i) = []
  words_edge : ∀ s i, i.sclr = false → (i.wrreq = true → (words s).length < depth) →
    (i.rdreq = true → empty s = false) → words (edge s i) = i.left (words s) ++ i.written
  empty_edge : ∀ s i, i.sclr = false → (i.wrreq = true → (words s).length < depth) →
    (i.rdreq = true → empty s = false) → i.left (words s) ≠ [] → empty (edge s i) = false
  empty_of_nil : ∀ s, words s = [] → empty s = true
  q_eq : ∀ s, empty s = false → (words s).head? = some (q s)

namespace ShowAhead

variable (F : ShowAhead α depth)

/-- All the places are taken. -/
def full (s : F.State) : Bool := decide ((F.words s).length = depth)

/-- The number of words, which a full FIFO shows as zero. -/
def usedw (s : F.State) : ℕ := (F.words s).length % depth

/-- No word is written to a full FIFO, and none is read from an empty one. -/
structure Lawful (s : F.State) (i : In α) : Prop where
  wrreq : i.wrreq = true → (F.words s).length < depth
  rdreq : i.rdreq = true → F.empty s = false

variable {F}

/-- A lawful edge takes the oldest word away and puts the new one behind the others. -/
theorem Lawful.words_edge {s : F.State} {i : In α} (h : F.Lawful s i) (hsclr : i.sclr = false) :
    F.words (F.edge s i) = i.left (F.words s) ++ i.written :=
  F.words_edge s i hsclr h.wrreq h.rdreq

/-- After it the FIFO shows a word, if one was left. -/
theorem Lawful.empty_edge {s : F.State} {i : In α} (h : F.Lawful s i) (hsclr : i.sclr = false)
    (hleft : i.left (F.words s) ≠ []) : F.empty (F.edge s i) = false :=
  F.empty_edge s i hsclr h.wrreq h.rdreq hleft

/-- The word on show is the first one. -/
theorem words_eq_cons {s : F.State} (h : F.empty s = false) :
    F.words s = F.q s :: (F.words s).tail :=
  List.eq_cons_of_mem_head? (by rw [F.q_eq s h]; rfl)

/-- At most `depth` words are in the FIFO. -/
theorem Lawful.length_le {s : F.State} {i : In α} (h : F.Lawful s i)
    (hle : (F.words s).length ≤ depth) : (F.words (F.edge s i)).length ≤ depth := by
  cases hsclr : i.sclr with
  | true => simp [F.words_sclr s i hsclr]
  | false =>
    have hleft : (i.left (F.words s)).length ≤ (F.words s).length := by
      unfold In.left
      split_ifs <;> simp
    rw [h.words_edge hsclr, List.length_append, In.written]
    split_ifs with hwr
    · have := h.wrreq hwr
      simp only [List.length_cons, List.length_nil]
      omega
    · simp only [List.length_nil]
      omega

/-! ### Histories -/

variable (F)

/-- The words that went in since the last clear. -/
def written (inp : ℕ → In α) : ℕ → List α
  | 0 => []
  | t + 1 => if (inp t).sclr then [] else written inp t ++ (inp t).written

/-- The words on show at the reads since the last clear. -/
def taken (s : ℕ → F.State) (inp : ℕ → In α) : ℕ → List α
  | 0 => []
  | t + 1 =>
    if (inp t).sclr then []
    else taken s inp t ++ if (inp t).rdreq then [F.q (s t)] else []

variable {F}

/-- **Nothing is lost, doubled or overtaken** from the first clear on, if the use is lawful. -/
theorem written_eq {s : ℕ → F.State} {inp : ℕ → In α} (h : IsRun F.edge s inp)
    (hclear : (inp 0).sclr = true) (hlaw : ∀ t, 1 ≤ t → F.Lawful (s t) (inp t)) {t : ℕ}
    (ht : 1 ≤ t) : written inp t = F.taken s inp t ++ F.words (s t) := by
  induction t, ht using Nat.le_induction with
  | base => rw [h 0, F.words_sclr _ _ hclear]; simp [written, taken, hclear]
  | succ t ht ih =>
    rw [h t]
    cases hsclr : (inp t).sclr with
    | true => rw [F.words_sclr _ _ hsclr]; simp [written, taken, hsclr]
    | false =>
      have hwords := (hlaw t ht).words_edge hsclr
      simp only [written, taken, hsclr, Bool.false_eq_true, if_false]
      rw [ih, hwords, In.left]
      split_ifs with hrd
      -- the word that is read is the first one
      · have hcons := words_eq_cons ((hlaw t ht).rdreq hrd)
        rw [hcons]
        simp
      · simp

end ShowAhead

/-- A list of words, and the flag `empty` one edge late. -/
def plain (α : Type) [Inhabited α] (depth : ℕ) : ShowAhead α depth where
  State := List α × Bool
  edge := fun s i =>
    if i.sclr then ([], true)
    else (i.left s.1 ++ i.written, (i.left s.1).isEmpty)
  empty := fun s => s.2 || s.1.isEmpty
  q := fun s => s.1.headD default
  words := fun s => s.1
  words_sclr := fun s i h => by simp [h]
  words_edge := fun s i h _ _ => by simp [h]
  empty_edge := fun s i h _ _ hleft => by simp [h, hleft]
  empty_of_nil := fun s h => by simp [h]
  q_eq := fun s h => by
    rcases s with ⟨_ | ⟨x, l⟩, b⟩
    · simp at h
    · rfl

end Fifo
