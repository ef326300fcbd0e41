/-
  ConcurrencyCrypto.Crypto.StreamCipher
  ─────────────────────────────────────
  **THE XOR LOOP IS RFC 8439 ENCRYPTION WITH INITIAL COUNTER 0**, and nothing
  else: no authentication, so a changed ciphertext decrypts to the text with
  the same change, and a cut one to the beginning of the text.

    • `encrypt_eq_crypt`   — the standard's blocks, put together, are the
      position-wise `crypt`,
    • `writes_crypt`       — every call without I/O errors writes `crypt` of
      what it reads,
    • `xor_stream_rfc8439` — the two together.
-/
import ConcurrencyCrypto.Crypto.ChaChaBlock
import ConcurrencyCrypto.Crypto.FileStream

namespace ConcurrencyCrypto.Crypto

open ConcurrencyCrypto.Library

/-! ## §1. The standard's encryption, position by position. -/

section standard
variable (key : Vector UInt8 32) (nonce : Vector UInt8 12) (l : List UInt8)

/-- One block of the standard's text is one block of the position-wise one. -/
theorem encryptBlock_eq (j : Nat) :
    Rfc8439.encryptBlock key.toList 0 nonce.toList l j
      = cryptFrom key nonce (64 * j) ((l.drop (64 * j)).take 64) := by
  apply List.ext_getElem?
  intro i
  unfold Rfc8439.encryptBlock cryptFrom
  rw [← chacha20_block_eq, zero_add, List.getElem?_zipWith, getElem?_mask, List.getElem?_take]
  by_cases hi : i < 64
  · have hdiv : (64 * j + i) / 64 = j := by omega
    have hmod : (64 * j + i) % 64 = i := by omega
    rw [if_pos hi]
    unfold keystreamByte
    simp only [hdiv, hmod]
    cases (l.drop (64 * j))[i]? with
    | none => rfl
    | some a => simp [hi]
  · rw [if_neg hi]
    rfl

/-- The whole blocks. -/
theorem flatMap_encryptBlock (n : Nat) (hn : 64 * n ≤ l.length) :
    (List.range n).flatMap (Rfc8439.encryptBlock key.toList 0 nonce.toList l)
      = crypt key nonce (l.take (64 * n)) := by
  induction n with
  | zero => rfl
  | succ n ih =>
      rw [List.range_succ, List.flatMap_append, ih (by omega), List.flatMap_singleton,
        encryptBlock_eq, Nat.mul_succ, List.take_add]
      unfold crypt cryptFrom
      rw [mask_append, List.length_take, Nat.min_eq_left (by omega), Nat.zero_add]

/-- **The standard's encryption is position-wise.** -/
theorem encrypt_eq_crypt :
    Rfc8439.encrypt key.toList 0 nonce.toList l = crypt key nonce l := by
  have hlen : 64 * (l.length / 64) ≤ l.length := Nat.mul_div_le l.length 64
  unfold Rfc8439.encrypt
  dsimp only
  rw [flatMap_encryptBlock key nonce l _ hlen]
  split
  next hrest =>
    -- the text ends inside a block
    have hshort : (l.drop (64 * (l.length / 64))).length ≤ 64 := by
      rw [List.length_drop]
      omega
    rw [encryptBlock_eq, List.take_of_length_le hshort]
    conv_rhs => rw [← List.take_append_drop (64 * (l.length / 64)) l]
    unfold crypt cryptFrom
    rw [mask_append, List.length_take, Nat.min_eq_left hlen, Nat.zero_add]
  next hwhole =>
    rw [List.take_of_length_le (by omega)]

end standard

/-! ## §2. Calls without I/O errors. -/

/-- A call is about to read `input` and append to `header`, and none of its
library calls will fail. -/
structure CleanStream (L : Libc) (fin : RStream) (fout : WStream) (w : World)
    (header input : List UInt8) : Prop where
  left_eq : fin.left w.fs = input
  eofOk : fin.EofOk w.fs
  err_eq : fin.err = false
  atEnd : fout.AtEnd w.fs
  accepted_eq : fout.accepted w.fs = header
  pending_le : fout.pending.length ≤ L.bufsiz
  /-- What is written does not reach what is still to be read. -/
  apart : input = [] ∨ fin.ino ≠ fout.ino ∨ header.length + input.length ≤ fin.pos
  clean : Clean L w.calls (w.calls + (2 * blockCount input.length + 1))

/-- **Every such call** reads all of `input`, returns 1 and writes `output`. -/
def Writes (key : Vector UInt8 32) (nonce : Vector UInt8 12) (input output : List UInt8) :
    Prop :=
  ∀ (L : Libc) (st : Stack) (fin : RStream) (fout : WStream) (w : World) (header : List UInt8),
    CleanStream L fin fout w header input →
    ∃ s : XorState,
      (∀ fuel, blockCount input.length < fuel →
        chacha20_xor_stream L fuel key nonce st fin fout w = some (1, s)) ∧
      s.fout.accepted s.world.fs = header ++ output

theorem writes_crypt (key : Vector UInt8 32) (nonce : Vector UInt8 12) (input : List UInt8) :
    Writes key nonce input (crypt key nonce input) := by
  intro L st fin fout w header h
  have hstream : Streaming L
      { counter := 0, keystream := st.keystream, buffer := st.buffer
        fin := fin, fout := fout, world := w, counters := [] } input header 0 :=
    ⟨h.left_eq, h.eofOk, h.atEnd, h.accepted_eq, rfl, h.pending_le, h.apart⟩
  obtain ⟨s, hrun, htr⟩ := xorLoop_clean key nonce _ _ input header 0 rfl hstream h.err_eq h.clean
  exact ⟨s, hrun, htr.accepted_eq⟩

/-- There are such calls for every text. -/
theorem exists_cleanStream (input : List UInt8) :
    ∃ L fin fout w, CleanStream L fin fout w [] input := by
  refine ⟨Libc.plain fun _ => none, ⟨0, 0, [], false, false⟩, ⟨1, 0, []⟩,
    World.start { names := fun _ => none, data := fun i => if i = 0 then input else []
                  next := 0, names_lt := (by intro p i h; cases h) }, ?_⟩
  exact ⟨rfl, (by intro h; cases h), rfl, rfl, rfl, Nat.zero_le _, Or.inr (Or.inl (by decide)),
    fun c _ _ => rfl⟩

/-- What is written is determined by the text. -/
theorem Writes.unique {key : Vector UInt8 32} {nonce : Vector UInt8 12}
    {input output output' : List UInt8} (h : Writes key nonce input output)
    (h' : Writes key nonce input output') : output = output' := by
  obtain ⟨L, fin, fout, w, hclean⟩ := exists_cleanStream input
  obtain ⟨s, hrun, hacc⟩ := h L ⟨Vector.replicate 64 0, Vector.replicate 64 0⟩ fin fout w [] hclean
  obtain ⟨s', hrun', hacc'⟩ :=
    h' L ⟨Vector.replicate 64 0, Vector.replicate 64 0⟩ fin fout w [] hclean
  have hsame := (hrun _ (Nat.lt_succ_self _)).symm.trans (hrun' _ (Nat.lt_succ_self _))
  injection hsame with hsame
  injection hsame with _ hsame
  rw [hsame, hacc'] at hacc
  exact hacc.symm

/-! ## §3. The cipher. -/

/-- Exclusive or, byte by byte. -/
def xorBytes (c m : List UInt8) : List UInt8 := List.zipWith (· ^^^ ·) c m

/-- **THE LOOP IS CHACHA20.**  On a text of at most 2^38 bytes a call without
I/O errors writes as many bytes as it reads, byte `j` under byte `j % 64` of
keystream block `j / 64`, and nothing else; that is the standard's encryption.
So a change of the text by exclusive or goes through unchanged, and a prefix
gives the prefix. -/
theorem xor_stream_rfc8439 (key : Vector UInt8 32) (nonce : Vector UInt8 12)
    (input : List UInt8) (hlen : input.length ≤ 2 ^ 38) :
    ∃ output : List UInt8,
      Writes key nonce input output ∧ (∀ output', Writes key nonce input output' →
        output' = output) ∧
      output.length = input.length ∧
      (∀ j, j < input.length → ∃ counter : UInt32, counter.toNat = j / 64 ∧
        output[j]? = (input[j]?).map fun a =>
          a ^^^ (chacha20_block key nonce counter)[j % 64]) ∧
      output = Rfc8439.encrypt key.toList 0 nonce.toList input ∧
      (∀ m, m.length = input.length →
        Writes key nonce (xorBytes input m) (xorBytes output m)) ∧
      (∀ n, Writes key nonce (input.take n) (output.take n)) := by
  refine ⟨crypt key nonce input, writes_crypt key nonce input,
    fun output' h => h.unique (writes_crypt key nonce input), length_crypt key nonce input,
    ?_, (encrypt_eq_crypt key nonce input).symm, ?_, ?_⟩
  · intro j hj
    refine ⟨UInt32.ofNat (j / 64), ?_, ?_⟩
    · -- the counter does not wrap
      rw [UInt32.toNat_ofNat', Nat.mod_eq_of_lt (by omega)]
    · unfold crypt cryptFrom
      rw [getElem?_mask, Nat.zero_add]
      rfl
  · intro m _
    have hxor : ∀ a b k : UInt8, a ^^^ b ^^^ k = a ^^^ k ^^^ b := fun a b k => by
      rw [UInt8.xor_assoc, UInt8.xor_comm b k, ← UInt8.xor_assoc]
    have h := writes_crypt key nonce (xorBytes input m)
    unfold crypt cryptFrom xorBytes at h
    rw [mask_zipWith _ _ _ _ hxor] at h
    exact h
  · intro n
    have h := writes_crypt key nonce (input.take n)
    unfold crypt cryptFrom at h
    rw [mask_take] at h
    exact h

/-- A hundred bytes: a whole block and a part of one. -/
theorem xor_stream_rfc8439_two_blocks :
    ∃ input output : List UInt8, input = (List.range 100).map UInt8.ofNat ∧
      Writes (Vector.replicate 32 7) (Vector.replicate 12 9) input output ∧
      (∀ output', Writes (Vector.replicate 32 7) (Vector.replicate 12 9) input output' →
        output' = output) ∧
      output.length = 100 ∧
      (∀ j, j < 100 → output[j]? = (input[j]?).map fun a =>
        a ^^^ keystreamByte (Vector.replicate 32 7) (Vector.replicate 12 9) j) ∧
      output = Rfc8439.encrypt (List.replicate 32 7) 0 (List.replicate 12 9) input ∧
      (∀ m, m.length = 100 → Writes (Vector.replicate 32 7) (Vector.replicate 12 9)
        (xorBytes input m) (xorBytes output m)) ∧
      (∀ n, Writes (Vector.replicate 32 7) (Vector.replicate 12 9) (input.take n)
        (output.take n)) := by
  have hlen : ((List.range 100).map UInt8.ofNat).length = 100 := by
    rw [List.length_map, List.length_range]
  obtain ⟨output, hwrites, hunique, hlength, hbytes, hrfc, hmask, hprefix⟩ :=
    xor_stream_rfc8439 (Vector.replicate 32 7) (Vector.replicate 12 9)
      ((List.range 100).map UInt8.ofNat) (by rw [hlen]; omega)
  rw [hlen] at hlength hbytes hmask
  refine ⟨_, output, rfl, hwrites, hunique, hlength, ?_, hrfc, hmask, hprefix⟩
  intro j hj
  obtain ⟨counter, hcounter, hbyte⟩ := hbytes j hj
  obtain rfl : UInt32.ofNat (j / 64) = counter := by
    rw [← hcounter, UInt32.ofNat_toNat]
  exact hbyte

end ConcurrencyCrypto.Crypto
