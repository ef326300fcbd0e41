/-
  ConcurrencyCrypto.Crypto.FaultSchedule
  ──────────────────────────────────────
  **THE XOR LOOP AS THE FAULT SCHEDULE DRIVES IT.**

  Iteration `i` of `chacha20_xor_stream` makes the calls `2i` and `2i + 1` of
  the run.  How many bytes its read delivers, whether it is the last one and
  what the two arrays hold before it follow from the input and the schedule,
  without the streams.

    • `Course.At.next`    — an iteration that goes round,
    • `Course.At.return0` — an iteration that returns 0.
-/
import ConcurrencyCrypto.Crypto.FileStream

namespace ConcurrencyCrypto.Crypto

open ConcurrencyCrypto.Library

/-! ## §1. The course of a run. -/

/-- What the iterations of a run depend on; `first` is the number of its first
call. -/
structure Course where
  L : Libc
  key : Vector UInt8 32
  nonce : Vector UInt8 12
  st : Stack
  input : List UInt8
  first : Nat

namespace Course

variable (c : Course)

/-- How much of the input is delivered before iteration `i`. -/
def delivered : Nat → Nat
  | 0 => 0
  | i + 1 => min c.input.length (delivered i + c.L.limit 64 (c.first + 2 * i))

/-- What the read of iteration `i` delivers. -/
def piece (i : Nat) : List UInt8 :=
  (c.input.drop (c.delivered i)).take (c.L.limit 64 (c.first + 2 * i))

/-- The keystream block of iteration `i`. -/
def block (i : Nat) : Vector UInt8 64 := chacha20_block c.key c.nonce (UInt32.ofNat i)

/-- The array `keystream` before iteration `i`. -/
def keystream : Nat → Vector UInt8 64
  | 0 => c.st.keystream
  | i + 1 => c.block i

/-- The array `buffer` before iteration `i`. -/
def buffer : Nat → Vector UInt8 64
  | 0 => c.st.buffer
  | i + 1 => xorBuffer (c.piece i).length (blit (buffer i) 0 (c.piece i)) (c.block i)

/-- The iteration does not go round: it reads nothing, or its write fails. -/
def Stops (i : Nat) : Prop := c.piece i = [] ∨ c.L.fault (c.first + 2 * i + 1) ≠ none

/-- Iteration `i` is the last one. -/
structure Last (i : Nat) : Prop where
  goes : ∀ j < i, ¬ c.Stops j
  stops : c.Stops i

/-- Iteration `i` leaves zeros without wiping them: where it reads nothing, the
arrays were zero before; else its keystream block is zero, and so is the buffer
with the bytes it has read. -/
def Zeros (i : Nat) : Prop :=
  if c.piece i = [] then
    c.keystream i = Vector.replicate 64 0 ∧ c.buffer i = Vector.replicate 64 0
  else c.block i = Vector.replicate 64 0 ∧
    blit (c.buffer i) 0 (c.piece i) = Vector.replicate 64 0

variable {c}

/-- There is only one last iteration. -/
theorem Last.unique {i j : Nat} (hi : c.Last i) (hj : c.Last j) : i = j := by
  rcases Nat.lt_trichotomy i j with hlt | heq | hgt
  · exact absurd hi.stops (hj.goes i hlt)
  · exact heq
  · exact absurd hj.stops (hi.goes j hgt)

theorem length_piece_le (i : Nat) : (c.piece i).length ≤ 64 := by
  have hlimit : c.L.limit 64 (c.first + 2 * i) ≤ 64 := by
    unfold Libc.limit
    cases c.L.fault (c.first + 2 * i) with
    | none => exact Nat.le_refl _
    | some k =>
        show min k 63 ≤ 64
        omega
  unfold piece
  rw [List.length_take]
  omega

/-- What is left behind iteration `i` is left before the next one. -/
theorem drop_delivered_succ (i : Nat) :
    c.piece i ++ c.input.drop (c.delivered (i + 1)) = c.input.drop (c.delivered i) := by
  have hdrop : c.input.drop (c.delivered (i + 1))
      = (c.input.drop (c.delivered i)).drop (c.L.limit 64 (c.first + 2 * i)) := by
    rw [List.drop_drop, delivered]
    rcases Nat.le_total c.input.length (c.delivered i + c.L.limit 64 (c.first + 2 * i))
      with h | h
    · rw [Nat.min_eq_left h, List.drop_length, List.drop_eq_nil_of_le h]
    · rw [Nat.min_eq_right h]
  rw [hdrop]
  exact List.take_append_drop _ _

/-! ## §2. The iterations. -/

/-- The loop is about to begin iteration `i`. -/
structure At (c : Course) (s : XorState) (i : Nat) : Prop where
  left_eq : s.fin.left s.world.fs = c.input.drop (c.delivered i)
  eofOk : s.fin.EofOk s.world.fs
  atEnd : s.fout.AtEnd s.world.fs
  /-- What is written does not reach what is still to be read. -/
  apart : c.input.drop (c.delivered i) = [] ∨ s.fin.ino ≠ s.fout.ino ∨
    (s.fout.accepted s.world.fs).length + (c.input.drop (c.delivered i)).length ≤ s.fin.pos
  calls_eq : s.world.calls = c.first + 2 * i
  counter_eq : s.counter = UInt32.ofNat i
  keystream_eq : s.keystream = c.keystream i
  buffer_eq : s.buffer = c.buffer i

section iterations
variable {s s' : XorState} {i : Nat}

theorem At.read (h : c.At s i) : (fread c.L 64 s.fin s.world).1 = c.piece i := by
  rw [fread_eq_take_limit c.L 64 s.fin s.world h.eofOk, h.left_eq, h.calls_eq]
  rfl

theorem At.left (h : c.At s i) :
    (fread c.L 64 s.fin s.world).2.1.left s.world.fs = c.input.drop (c.delivered (i + 1)) := by
  have happ := fread_append_left c.L 64 s.fin s.world
  rw [h.read, h.left_eq, ← drop_delivered_succ i] at happ
  exact List.append_cancel_left happ

theorem At.length_output (h : c.At s i) :
    (stepOutput c.L c.key c.nonce s).length = (c.piece i).length := by
  have hle := length_piece_le (c := c) i
  unfold stepOutput
  rw [h.read, List.length_take, Vector.length_toList]
  omega

/-- The output is written in full exactly if the write does not fail. -/
theorem At.written_iff (h : c.At s i) (hsome : c.piece i ≠ []) :
    (fwrite c.L (stepOutput c.L c.key c.nonce s) s.fout s.world.tick).1 = (c.piece i).length ↔
      c.L.fault (c.first + 2 * i + 1) = none := by
  have hpos := List.length_pos_iff.mpr hsome
  have hcount := fwrite_count_eq_iff c.L (stepOutput c.L c.key c.nonce s) s.fout s.world.tick
    (List.length_pos_iff.mp (by rw [h.length_output]; exact hpos))
  rw [h.length_output] at hcount
  rw [hcount, ← h.calls_eq]
  rfl

/-- The writer stays away from the reader, whatever it accepts. -/
theorem At.accepted_le (h : c.At s i) :
    ((fwrite c.L (stepOutput c.L c.key c.nonce s) s.fout s.world.tick).2.1.accepted
      (fwrite c.L (stepOutput c.L c.key c.nonce s) s.fout s.world.tick).2.2.fs).length
        ≤ (s.fout.accepted s.world.fs).length + (c.piece i).length := by
  have htaken := (fwriteTaken_le c.L (stepOutput c.L c.key c.nonce s) s.world.tick).length_le
  rw [fwrite_accepted c.L _ s.fout s.world.tick h.atEnd, List.length_append]
  rw [h.length_output] at htaken
  exact Nat.add_le_add_left htaken _

theorem At.room (h : c.At s i) (hsome : c.piece i ≠ []) : s.fin.ino ≠ s.fout.ino ∨
    (s.fout.accepted s.world.fs).length + (c.piece i).length
      + (c.input.drop (c.delivered (i + 1))).length ≤ s.fin.pos := by
  have hleft := drop_delivered_succ (c := c) i
  -- there was something left to read, or the piece would be empty
  have hne : c.input.drop (c.delivered i) ≠ [] := by
    rw [← hleft]
    exact fun hc => hsome (List.append_eq_nil_iff.mp hc).1
  refine (h.apart.resolve_left hne).imp id ?_
  intro hpos
  rw [← hleft, List.length_append] at hpos
  omega

theorem At.left_written (h : c.At s i) (hsome : c.piece i ≠ []) :
    (fread c.L 64 s.fin s.world).2.1.left
      (fwrite c.L (stepOutput c.L c.key c.nonce s) s.fout s.world.tick).2.2.fs
        = c.input.drop (c.delivered (i + 1)) := by
  rw [← h.left]
  refine left_eq_of_apart _ (i := s.fout.ino) ?_ ?_
  · intro k hk
    exact fwrite_data_of_ne c.L (stepOutput c.L c.key c.nonce s) s.fout s.world.tick hk
  · rw [fread_ino]
    refine (h.room hsome).imp id ?_
    intro hpos
    have hposle := fread_pos_le c.L 64 s.fin s.world
    have haccepted := h.accepted_le
    unfold WStream.accepted at hpos haccepted
    rw [fwrite_ino] at haccepted
    simp only [List.length_append] at hpos haccepted
    constructor
    · show (s.world.fs.data s.fout.ino).length ≤ _
      omega
    · omega

/-- Nor does it come near what the next read finds. -/
theorem At.apart_written (h : c.At s i) (hsome : c.piece i ≠ []) :
    (fread c.L 64 s.fin s.world).2.1.ino ≠ s.fout.ino ∨
      ((fwrite c.L (stepOutput c.L c.key c.nonce s) s.fout s.world.tick).2.1.accepted
        (fwrite c.L (stepOutput c.L c.key c.nonce s) s.fout s.world.tick).2.2.fs).length
          + (c.input.drop (c.delivered (i + 1))).length ≤ (fread c.L 64 s.fin s.world).2.1.pos := by
  rw [fread_ino]
  refine (h.room hsome).imp id ?_
  intro hpos
  have hposle := fread_pos_le c.L 64 s.fin s.world
  refine Nat.le_trans (Nat.add_le_add_right h.accepted_le _) ?_
  omega

/-- **An iteration that goes round** has read something and written it, and the
loop is about to begin the next one. -/
theorem At.next (h : c.At s i) (hstep : xorStep c.L c.key c.nonce s = (.next, s')) :
    ¬ c.Stops i ∧ c.At s' (i + 1) := by
  rw [xorStep_eq, h.read] at hstep
  split at hstep
  · split at hstep
    · cases (Prod.mk.inj hstep).1
    · cases (Prod.mk.inj hstep).1
  next hlen =>
    have hsome : c.piece i ≠ [] := fun hc => hlen (by rw [hc]; rfl)
    split at hstep
    · cases (Prod.mk.inj hstep).1
    next hfull =>
      have hwritten := (h.written_iff hsome).mp (not_not.mp hfull)
      obtain ⟨-, hs'⟩ := Prod.mk.inj hstep
      refine ⟨fun hstops => hstops.elim hsome (fun hf => hf hwritten), ?_⟩
      -- two calls further on, with the block of this iteration in the arrays
      rw [← hs']
      refine ⟨h.left_written hsome, ?_, fwrite_atEnd c.L _ s.fout s.world.tick h.atEnd, ?_, ?_, ?_,
        ?_, ?_⟩
      · -- the end-of-file flag is up only where nothing is left
        intro heof
        have hnil := fread_eofOk c.L 64 s.fin s.world h.eofOk heof
        rw [h.left] at hnil
        rw [← hnil]
        exact h.left_written hsome
      · exact Or.inr (h.apart_written hsome)
      · show s.world.calls + 1 + 1 = c.first + 2 * (i + 1)
        rw [h.calls_eq]
        omega
      · show s.counter + 1 = UInt32.ofNat (i + 1)
        rw [h.counter_eq, UInt32.ofNat_add]
        rfl
      · show chacha20_block c.key c.nonce s.counter = chacha20_block c.key c.nonce (UInt32.ofNat i)
        rw [h.counter_eq]
      · show xorBuffer (fread c.L 64 s.fin s.world).1.length
            (blit s.buffer 0 (fread c.L 64 s.fin s.world).1)
            (chacha20_block c.key c.nonce s.counter) = xorBuffer (c.piece i).length
            (blit (c.buffer i) 0 (c.piece i)) (chacha20_block c.key c.nonce (UInt32.ofNat i))
        rw [h.read, h.buffer_eq, h.counter_eq]

/-- **An iteration that returns 0** is the last one. -/
theorem At.return0 (h : c.At s i) (hstep : xorStep c.L c.key c.nonce s = (.return0, s')) :
    c.Stops i := by
  rw [xorStep_eq, h.read] at hstep
  split at hstep
  next hlen => exact Or.inl (List.length_eq_zero_iff.mp hlen)
  next hlen =>
    have hsome : c.piece i ≠ [] := fun hc => hlen (by rw [hc]; rfl)
    split at hstep
    next hshort => exact Or.inr fun hf => hshort ((h.written_iff hsome).mpr hf)
    next => cases (Prod.mk.inj hstep).1

end iterations

end Course

end ConcurrencyCrypto.Crypto
