/-
  ConcurrencyCrypto.Crypto.FileStream
  ───────────────────────────────────
  **THE XOR LOOP OF `chacha20_xor_stream`.**

  `crypt key nonce l` is what the loop is for: byte `j` of `l` XOR byte
  `j % 64` of the keystream block number `j / 64` (the counter is 32 bits
  wide, so the block number is taken modulo 2^32).

  `Streaming` is the invariant: what the reader can still deliver, what the
  writer has accepted, and the block number agree.  It also says why the
  writer does not disturb the reader: they are different files, or the
  reader's offset is beyond everything the writer can have written.

    • `step_streaming` — one clean iteration moves one block across,
    • `xorLoop_clean`  — a run without faults moves everything across,
    • `xorLoop_one`    — a run that returns 1 was one without faults.
-/
import ConcurrencyCrypto.Crypto.FileIo
import ConcurrencyCrypto.Library.Masking

namespace ConcurrencyCrypto.Crypto

open ConcurrencyCrypto.Library

/-! ## §1. The cipher as a function of the whole text. -/

/-- Keystream byte number `j`. -/
def keystreamByte (key : Vector UInt8 32) (nonce : Vector UInt8 12) (j : Nat) : UInt8 :=
  (chacha20_block key nonce (UInt32.ofNat (j / 64)))[j % 64]

/-- The text `l` from byte `off` of the keystream on. -/
def cryptFrom (key : Vector UInt8 32) (nonce : Vector UInt8 12) (off : Nat) :
    List UInt8 → List UInt8 :=
  mask (fun a k => a ^^^ k) (keystreamByte key nonce) off

/-- **Encryption and decryption of a text.** -/
def crypt (key : Vector UInt8 32) (nonce : Vector UInt8 12) : List UInt8 → List UInt8 :=
  cryptFrom key nonce 0

/-- Encrypting twice gives the text back. -/
theorem crypt_crypt (key : Vector UInt8 32) (nonce : Vector UInt8 12) (l : List UInt8) :
    crypt key nonce (crypt key nonce l) = l :=
  mask_mask _ _ 0 (fun a k => by rw [UInt8.xor_assoc, UInt8.xor_self, UInt8.xor_zero]) l

@[simp] theorem length_crypt (key : Vector UInt8 32) (nonce : Vector UInt8 12)
    (l : List UInt8) : (crypt key nonce l).length = l.length :=
  length_mask _ _ 0 l

theorem length_cryptFrom (key : Vector UInt8 32) (nonce : Vector UInt8 12) (off : Nat)
    (l : List UInt8) : (cryptFrom key nonce off l).length = l.length :=
  length_mask _ _ off l

/-- Byte `j` of a block sees byte `j` of the keystream from the block's offset on. -/
theorem crypt_take_append_drop (key : Vector UInt8 32) (nonce : Vector UInt8 12) (j : Nat)
    (l : List UInt8) :
    cryptFrom key nonce (64 * j) (l.take 64) ++ cryptFrom key nonce (64 * (j + 1)) (l.drop 64)
      = cryptFrom key nonce (64 * j) l := by
  by_cases hshort : l.length ≤ 64
  · -- the last block, possibly partial: nothing follows it
    rw [List.take_of_length_le hshort, List.drop_eq_nil_of_le hshort]
    exact List.append_nil _
  · conv_rhs => rw [← List.take_append_drop 64 l]
    unfold cryptFrom
    rw [mask_append, List.length_take, Nat.min_eq_left (by omega), Nat.mul_succ]

/-- The XOR loop over the buffer is one block of the cipher. -/
theorem xorBuffer_take (key : Vector UInt8 32) (nonce : Vector UInt8 12) (j : Nat)
    (old : Vector UInt8 64) (bytes : List UInt8) (hlen : bytes.length ≤ 64) :
    (xorBuffer bytes.length (blit old 0 bytes)
        (chacha20_block key nonce (UInt32.ofNat j))).toList.take bytes.length
      = cryptFrom key nonce (64 * j) bytes := by
  apply List.ext_getElem?
  intro i
  unfold cryptFrom
  rw [getElem?_mask, List.getElem?_take]
  by_cases hi : i < bytes.length
  · have hdiv : (64 * j + i) / 64 = j := by omega
    have hmod : (64 * j + i) % 64 = i := by omega
    have hi64 : i < 64 := by omega
    rw [if_pos hi]
    simp [xorBuffer, blit_getElem, keystreamByte, hdiv, hmod, hi, hi64]
  · rw [if_neg hi, List.getElem?_eq_none (by omega)]
    rfl

/-! ## §2. The invariant. -/

/-- Reader, writer and counter of the loop agree: `l` is still to be read,
`t` has been accepted, and the next block is number `j`. -/
structure Streaming (L : Libc) (s : XorState) (l t : List UInt8) (j : Nat) : Prop where
  left_eq : s.fin.left s.world.fs = l
  eofOk : s.fin.EofOk s.world.fs
  atEnd : s.fout.AtEnd s.world.fs
  accepted_eq : s.fout.accepted s.world.fs = t
  counter_eq : s.counter = UInt32.ofNat j
  pending_le : s.fout.pending.length ≤ L.bufsiz
  apart : l = [] ∨ s.fin.ino ≠ s.fout.ino ∨ t.length + l.length ≤ s.fin.pos

/-- Everything but the file being written, and which file that is, stays. -/
structure SameElsewhere (s s' : XorState) : Prop where
  names : s'.world.fs.names = s.world.fs.names
  fout_ino : s'.fout.ino = s.fout.ino
  data : ∀ i, i ≠ s.fout.ino → s'.world.fs.data i = s.world.fs.data i

theorem SameElsewhere.trans {s₁ s₂ s₃ : XorState} (h₁ : SameElsewhere s₁ s₂)
    (h₂ : SameElsewhere s₂ s₃) : SameElsewhere s₁ s₃ where
  names := h₂.names.trans h₁.names
  fout_ino := h₂.fout_ino.trans h₁.fout_ino
  data := fun i hi => (h₂.data i (by rwa [h₁.fout_ino])).trans (h₁.data i hi)

/-! ## §3. One iteration. -/

section step
variable (L : Libc) (key : Vector UInt8 32) (nonce : Vector UInt8 12) (s : XorState)

/-- The state after the read of an iteration. -/
def afterRead : XorState :=
  { s with
    fin := (fread L 64 s.fin s.world).2.1
    buffer := blit s.buffer 0 (fread L 64 s.fin s.world).1
    world := s.world.tick }

/-- The bytes an iteration writes. -/
def stepOutput : List UInt8 :=
  (xorBuffer (fread L 64 s.fin s.world).1.length (afterRead L s).buffer
    (chacha20_block key nonce s.counter)).toList.take (fread L 64 s.fin s.world).1.length

/-- The state after the write of an iteration. -/
def afterWrite : XorState :=
  { afterRead L s with
    keystream := chacha20_block key nonce s.counter
    buffer := xorBuffer (fread L 64 s.fin s.world).1.length (afterRead L s).buffer
      (chacha20_block key nonce s.counter)
    fout := (fwrite L (stepOutput L key nonce s) s.fout s.world.tick).2.1
    world := (fwrite L (stepOutput L key nonce s) s.fout s.world.tick).2.2
    counters := s.counters ++ [s.counter] }

/-- The state in which the loop is left: both buffers are wiped. -/
def afterExit : XorState :=
  { afterRead L s with
    keystream := Vector.replicate 64 0, buffer := Vector.replicate 64 0 }

@[simp] theorem afterExit_fout : (afterExit L s).fout = s.fout := by
  dsimp only [afterExit, afterRead]

@[simp] theorem afterExit_world : (afterExit L s).world = s.world.tick := by
  dsimp only [afterExit, afterRead]

@[simp] theorem afterExit_counters : (afterExit L s).counters = s.counters := by
  dsimp only [afterExit, afterRead]

/-- An iteration by its three ways out. -/
theorem xorStep_eq :
    xorStep L key nonce s
      = if (fread L 64 s.fin s.world).1.length = 0 then
          if (fread L 64 s.fin s.world).2.1.err then (.return0, afterRead L s)
          else (.leave, afterRead L s)
        else if (fwrite L (stepOutput L key nonce s) s.fout s.world.tick).1
            ≠ (fread L 64 s.fin s.world).1.length then
          (.return0, afterWrite L key nonce s)
        else (.next, { afterWrite L key nonce s with counter := s.counter + 1 }) := by
  have hw := fread_world L 64 s.fin s.world
  unfold afterWrite stepOutput afterRead
  rw [← hw]
  rfl

end step

section clean
variable {L : Libc} (key : Vector UInt8 32) (nonce : Vector UInt8 12)
  {s : XorState} {l t : List UInt8} {j : Nat}

/-- A clean read takes the next block off what is left. -/
theorem read_streaming (h : Streaming L s l t j) (hr : L.fault s.world.calls = none) :
    (fread L 64 s.fin s.world).1 = l.take 64 ∧
      (fread L 64 s.fin s.world).2.1.left s.world.fs = l.drop 64 := by
  have htake := fread_eq_take L 64 s.fin s.world h.eofOk hr
  have happ := fread_append_left L 64 s.fin s.world
  rw [h.left_eq] at htake happ
  refine ⟨htake, ?_⟩
  rw [htake] at happ
  exact List.append_cancel_left (happ.trans (List.take_append_drop 64 l).symm)

/-- What the iteration writes is the block's ciphertext. -/
theorem stepOutput_streaming (h : Streaming L s l t j)
    (hr : L.fault s.world.calls = none) :
    stepOutput L key nonce s = cryptFrom key nonce (64 * j) (l.take 64) := by
  obtain ⟨hbytes, -⟩ := read_streaming h hr
  unfold stepOutput afterRead
  dsimp only
  rw [h.counter_eq, hbytes]
  exact xorBuffer_take key nonce j s.buffer (l.take 64) (List.length_take_le 64 l)

theorem length_stepOutput (h : Streaming L s l t j) (hr : L.fault s.world.calls = none) :
    (stepOutput L key nonce s).length = (l.take 64).length := by
  rw [stepOutput_streaming key nonce h hr]
  exact length_cryptFrom key nonce _ _

theorem length_take_pos (hne : l ≠ []) : 0 < (l.take 64).length := by
  have := List.length_pos_iff.mpr hne
  rw [List.length_take]
  omega

/-- A clean write puts the block's ciphertext behind what was accepted. -/
theorem write_accepted (h : Streaming L s l t j) (hr : L.fault s.world.calls = none)
    (hw : L.fault (s.world.calls + 1) = none) :
    (fwrite L (stepOutput L key nonce s) s.fout s.world.tick).2.1.accepted
      (fwrite L (stepOutput L key nonce s) s.fout s.world.tick).2.2.fs
        = t ++ cryptFrom key nonce (64 * j) (l.take 64) := by
  have hacc := fwrite_accepted L (stepOutput L key nonce s) s.fout s.world.tick h.atEnd
  rw [fwriteTaken_of_none L (stepOutput L key nonce s) s.world.tick hw] at hacc
  rw [hacc, stepOutput_streaming key nonce h hr]
  exact congrArg (· ++ _) h.accepted_eq

/-- **The write leaves alone what is still to be read**: it goes to another
file, or to offsets the reader has passed. -/
theorem write_left (h : Streaming L s l t j) (hne : l ≠ [])
    (hr : L.fault s.world.calls = none) (hw : L.fault (s.world.calls + 1) = none) :
    (fread L 64 s.fin s.world).2.1.left
      (fwrite L (stepOutput L key nonce s) s.fout s.world.tick).2.2.fs = l.drop 64 := by
  obtain ⟨-, hleft⟩ := read_streaming h hr
  rw [← hleft]
  refine left_eq_of_apart _ (i := s.fout.ino) ?_ ?_
  · intro i hi
    exact fwrite_data_of_ne L (stepOutput L key nonce s) s.fout s.world.tick hi
  · rw [fread_ino]
    rcases h.apart.resolve_left hne with hino | hbound
    · exact Or.inl hino
    · right
      have hposle := fread_pos_le L 64 s.fin s.world
      -- old and new length of the file written, as far as they are accepted
      have h₀ := congrArg List.length h.accepted_eq
      have h₁ := congrArg List.length (write_accepted key nonce h hr hw)
      unfold WStream.accepted at h₀ h₁
      rw [fwrite_ino] at h₁
      simp only [List.length_append] at h₀ h₁
      rw [length_cryptFrom, List.length_take] at h₁
      constructor
      · show (s.world.fs.data s.fout.ino).length ≤ _
        omega
      · omega

/-- **One clean iteration** moves one block across. -/
theorem step_streaming (h : Streaming L s l t j) (hne : l ≠ [])
    (hr : L.fault s.world.calls = none) (hw : L.fault (s.world.calls + 1) = none) :
    ∃ s', xorStep L key nonce s = (.next, s') ∧
      Streaming L s' (l.drop 64) (t ++ cryptFrom key nonce (64 * j) (l.take 64)) (j + 1) ∧
      SameElsewhere s s' ∧ s'.world.calls = s.world.calls + 2 ∧
      s'.fin.err = s.fin.err ∧ s'.counters = s.counters ++ [UInt32.ofNat j] ∧
      0 < s'.fout.pending.length := by
  obtain ⟨hbytes, hleft⟩ := read_streaming h hr
  have hlen := length_stepOutput key nonce h hr
  have hpos := length_take_pos hne
  have htaken := fwriteTaken_of_none L (stepOutput L key nonce s) s.world.tick hw
  have hleft' := write_left key nonce h hne hr hw
  have hbuf := L.le_bufsiz
  obtain ⟨hpend, hpend0⟩ := fwrite_pending_bounds L (stepOutput L key nonce s) s.fout
    s.world.tick (by rw [hlen, List.length_take]; omega) h.pending_le
  rw [htaken] at hpend0
  have hstream : Streaming L { afterWrite L key nonce s with counter := s.counter + 1 }
      (l.drop 64) (t ++ cryptFrom key nonce (64 * j) (l.take 64)) (j + 1) := by
    refine ⟨hleft', ?_, fwrite_atEnd L _ s.fout s.world.tick h.atEnd,
      write_accepted key nonce h hr hw, ?_, hpend, ?_⟩
    · intro heof
      have := fread_eofOk L 64 s.fin s.world h.eofOk heof
      rw [hleft] at this
      rw [← this]
      exact hleft'
    · show s.counter + 1 = UInt32.ofNat (j + 1)
      rw [h.counter_eq, UInt32.ofNat_add]
      rfl
    · -- the reader is as far ahead of the writer as before
      right
      show (fread L 64 s.fin s.world).2.1.ino ≠ s.fout.ino ∨ _ ≤ (fread L 64 s.fin s.world).2.1.pos
      have hposle := fread_pos_le L 64 s.fin s.world
      rw [fread_ino]
      refine (h.apart.resolve_left hne).imp id ?_
      intro hbound
      rw [List.length_append, length_cryptFrom, List.length_take, List.length_drop]
      omega
  refine ⟨_, ?_, hstream, ⟨rfl, rfl, ?_⟩, rfl, fread_err_of_none L 64 s.fin s.world hr, ?_, ?_⟩
  · rw [xorStep_eq, if_neg (by rw [hbytes]; omega), if_neg]
    rw [fwrite_count, htaken, hlen, hbytes]
    exact fun hc => hc rfl
  · intro i hi
    exact fwrite_data_of_ne L (stepOutput L key nonce s) s.fout s.world.tick hi
  · show s.counters ++ [s.counter] = _
    rw [h.counter_eq]
  · apply hpend0
    rw [List.length_append, hlen]
    omega

/-- **At the end of the text** a clean read leaves the loop. -/
theorem step_streaming_nil (h : Streaming L s [] t j)
    (hr : L.fault s.world.calls = none) (herr : s.fin.err = false) :
    xorStep L key nonce s = (.leave, afterRead L s) := by
  obtain ⟨hbytes, -⟩ := read_streaming h hr
  rw [xorStep_eq, if_pos (by rw [hbytes]; rfl), if_neg]
  rw [fread_err_of_none L 64 s.fin s.world hr, herr]
  simp

end clean

/-! ## §4. The whole loop. -/

/-- Number of blocks of a text, the last one possibly partial. -/
def blockCount (n : Nat) : Nat := (n + 63) / 64

/-- No fault is scheduled for the calls `a, …, b - 1`. -/
def Clean (L : Libc) (a b : Nat) : Prop := ∀ c, a ≤ c → c < b → L.fault c = none

theorem Clean.sub {L : Libc} {a b a' b' : Nat} (h : Clean L a b) (ha : a ≤ a')
    (hb : b' ≤ b) : Clean L a' b' :=
  fun c hc hc' => h c (Nat.le_trans ha hc) (Nat.lt_of_lt_of_le hc' hb)

/-- The loop has gone from `s` to `s'`, accepting `u` on top of `t` in `B`
blocks from block number `j` on. -/
structure Transferred (s s' : XorState) (t u : List UInt8) (j B : Nat) : Prop where
  atEnd : s'.fout.AtEnd s'.world.fs
  accepted_eq : s'.fout.accepted s'.world.fs = t ++ u
  elsewhere : SameElsewhere s s'
  calls_eq : s'.world.calls = s.world.calls + (2 * B + 1)
  counters_eq : s'.counters = s.counters ++ (List.range' j B).map UInt32.ofNat
  pending_pos : 0 < s.fout.pending.length + B → 0 < s'.fout.pending.length

/-- Leaving at once transfers nothing. -/
theorem Transferred.leave {L : Libc} {s : XorState} {t : List UInt8} (j : Nat)
    (hend : s.fout.AtEnd s.world.fs) (hacc : s.fout.accepted s.world.fs = t) :
    Transferred s (afterExit L s) t [] j 0 where
  atEnd := by
    rw [afterExit_fout, afterExit_world]
    exact hend
  accepted_eq := by
    rw [afterExit_fout, afterExit_world, List.append_nil]
    exact hacc
  elsewhere := by
    refine ⟨?_, ?_, ?_⟩
    · rw [afterExit_world]
      rfl
    · rw [afterExit_fout]
    · intro i _
      rw [afterExit_world]
      rfl
  calls_eq := by
    rw [afterExit_world]
    rfl
  counters_eq := by
    rw [afterExit_counters]
    exact (List.append_nil _).symm
  pending_pos := by
    rw [afterExit_fout]
    exact id

/-- A block, and then the rest. -/
theorem Transferred.cons {s s₁ s' : XorState} {t u v : List UInt8} {j B : Nat}
    (hsame : SameElsewhere s s₁) (hcalls : s₁.world.calls = s.world.calls + 2)
    (hcount : s₁.counters = s.counters ++ [UInt32.ofNat j])
    (hpend : 0 < s₁.fout.pending.length)
    (h : Transferred s₁ s' (t ++ u) v (j + 1) B) : Transferred s s' t (u ++ v) j (B + 1) where
  atEnd := h.atEnd
  accepted_eq := by
    rw [h.accepted_eq, List.append_assoc]
  elsewhere := hsame.trans h.elsewhere
  calls_eq := by
    rw [h.calls_eq, hcalls]
    omega
  counters_eq := by
    rw [h.counters_eq, hcount, List.append_assoc]
    rfl
  pending_pos _ := h.pending_pos (by omega)

section loop
variable {L : Libc} (key : Vector UInt8 32) (nonce : Vector UInt8 12)

theorem blockCount_pos_of_ne {l : List UInt8} (hne : l ≠ []) :
    blockCount l.length = blockCount (l.drop 64).length + 1 := by
  have hpos := List.length_pos_iff.mpr hne
  unfold blockCount
  rw [List.length_drop]
  omega

/-- **A run without faults transfers everything** and returns 1, given one
iteration more than there are blocks. -/
theorem xorLoop_clean (B : Nat) :
    ∀ (s : XorState) (l t : List UInt8) (j : Nat), blockCount l.length = B →
      Streaming L s l t j → s.fin.err = false →
      Clean L s.world.calls (s.world.calls + (2 * B + 1)) →
      ∃ s', (∀ fuel, B < fuel → xorLoop L key nonce fuel s = some (1, s')) ∧
        Transferred s s' t (cryptFrom key nonce (64 * j) l) j B := by
  -- on the number of blocks: one clean iteration, then the clean rest
  induction B with
  | zero =>
      intro s l t j hB h herr hclean
      have hnil : l = [] := by
        unfold blockCount at hB
        exact List.length_eq_zero_iff.mp (by omega)
      subst hnil
      refine ⟨afterExit L s, ?_, ?_⟩
      · intro fuel hfuel
        obtain ⟨fuel, rfl⟩ := Nat.exists_eq_succ_of_ne_zero (Nat.ne_of_gt hfuel)
        rw [xorLoop, step_streaming_nil key nonce h (hclean _ (by omega) (by omega)) herr]
        rfl
      · rw [cryptFrom, mask_nil]
        exact Transferred.leave j h.atEnd h.accepted_eq
  | succ B ih =>
      intro s l t j hB h herr hclean
      have hne : l ≠ [] := by
        rintro rfl
        unfold blockCount at hB
        simp at hB
      obtain ⟨s₁, hstep, h₁, hsame, hcalls, herr₁, hcount, hpend⟩ :=
        step_streaming key nonce h hne (hclean _ (by omega) (by omega))
          (hclean _ (by omega) (by omega))
      have hB₁ : blockCount (l.drop 64).length = B := by
        have := blockCount_pos_of_ne hne
        omega
      obtain ⟨s', hloop, htr⟩ := ih s₁ _ _ _ hB₁ h₁ (by rw [herr₁, herr])
        (hclean.sub (by omega) (by omega))
      refine ⟨s', ?_, ?_⟩
      · intro fuel hfuel
        obtain ⟨fuel, rfl⟩ := Nat.exists_eq_succ_of_ne_zero (show fuel ≠ 0 by omega)
        rw [xorLoop, hstep]
        exact hloop fuel (by omega)
      · rw [← crypt_take_append_drop]
        exact htr.cons hsame hcalls hcount hpend

/-- With the error flag up an iteration returns 0, or goes round with the flag up. -/
theorem xorStep_of_err {s : XorState} (herr : (fread L 64 s.fin s.world).2.1.err = true) :
    (∃ s', xorStep L key nonce s = (.return0, s')) ∨
      ∃ s', xorStep L key nonce s = (.next, s') ∧ s'.fin.err = true := by
  rw [xorStep_eq]
  by_cases hzero : (fread L 64 s.fin s.world).1.length = 0
  · rw [if_pos hzero, if_pos herr]
    exact Or.inl ⟨_, rfl⟩
  · rw [if_neg hzero]
    split
    · exact Or.inl ⟨_, rfl⟩
    · exact Or.inr ⟨_, rfl, herr⟩

/-- After a read error the loop never returns 1: the flag stays up. -/
theorem xorLoop_of_err (fuel : Nat) :
    ∀ (s s' : XorState), (fread L 64 s.fin s.world).2.1.err = true →
      xorLoop L key nonce fuel s ≠ some (1, s') := by
  induction fuel with
  | zero =>
      intro s s' _ h
      cases h
  | succ fuel ih =>
      intro s s' herr h
      rw [xorLoop] at h
      rcases xorStep_of_err key nonce herr with ⟨s₁, hstep⟩ | ⟨s₁, hstep, herr₁⟩
      · rw [hstep] at h
        cases h
      · rw [hstep] at h
        exact ih s₁ s' (fread_err_sticky L 64 s₁.fin s₁.world herr₁) h

/-- A fault of the write ends the loop with 0. -/
theorem step_streaming_short {s : XorState} {l t : List UInt8} {j : Nat}
    (h : Streaming L s l t j) (hne : l ≠ []) (hr : L.fault s.world.calls = none)
    (hw : L.fault (s.world.calls + 1) ≠ none) :
    xorStep L key nonce s = (.return0, afterWrite L key nonce s) := by
  obtain ⟨hbytes, -⟩ := read_streaming h hr
  have hlen := length_stepOutput key nonce h hr
  have hpos := length_take_pos hne
  have hshort : ¬ (fwrite L (stepOutput L key nonce s) s.fout s.world.tick).1
      = (l.take 64).length := by
    rw [← hlen, fwrite_count_eq_iff L _ s.fout s.world.tick
      (List.length_pos_iff.mp (by omega))]
    exact hw
  rw [xorStep_eq, if_neg (by rw [hbytes]; omega), hbytes, if_pos hshort]

/-- **A run that returns 1 met no fault.** -/
theorem xorLoop_one (fuel : Nat) :
    ∀ (s s' : XorState) (l t : List UInt8) (j : Nat), Streaming L s l t j →
      xorLoop L key nonce fuel s = some (1, s') →
      Clean L s.world.calls (s.world.calls + (2 * blockCount l.length + 1)) := by
  induction fuel with
  | zero =>
      intro s s' l t j _ h
      cases h
  | succ fuel ih =>
      intro s s' l t j hs h
      have hr : L.fault s.world.calls = none := by
        by_contra hfault
        obtain ⟨k, hk⟩ := Option.ne_none_iff_exists'.mp hfault
        exact xorLoop_of_err key nonce (fuel + 1) s s'
          (fread_err_of_some L 64 s.fin s.world hk) h
      by_cases hne : l = []
      · -- the read that found the end of the file was the last call
        subst hne
        intro c hc hc'
        rw [show c = s.world.calls by simp [blockCount] at hc'; omega]
        exact hr
      · have hw : L.fault (s.world.calls + 1) = none := by
          by_contra hfault
          rw [xorLoop, step_streaming_short key nonce hs hne hr hfault] at h
          cases h
        obtain ⟨s₁, hstep, h₁, -, hcalls, -⟩ := step_streaming key nonce hs hne hr hw
        rw [xorLoop, hstep] at h
        have hrest := ih s₁ s' _ _ _ h₁ h
        have hB := blockCount_pos_of_ne hne
        intro c hc hc'
        -- the read, the write, and the calls of the rest
        rcases Nat.lt_trichotomy c (s.world.calls + 1) with hlt | heq | hgt
        · rw [show c = s.world.calls by omega]
          exact hr
        · rw [heq]
          exact hw
        · exact hrest c (by omega) (by omega)

/-- More fuel changes no result. -/
theorem xorLoop_mono (fuel : Nat) :
    ∀ (s : XorState) (r : Int × XorState), xorLoop L key nonce fuel s = some r →
      ∀ fuel', fuel ≤ fuel' → xorLoop L key nonce fuel' s = some r := by
  induction fuel with
  | zero =>
      intro s r h
      exact absurd h (by simp [xorLoop])
  | succ fuel ih =>
      intro s r h fuel' hle
      obtain ⟨fuel', rfl⟩ := Nat.exists_eq_succ_of_ne_zero (show fuel' ≠ 0 by omega)
      unfold xorLoop at h ⊢
      cases hstep : xorStep L key nonce s with
      | mk flow s' =>
          rw [hstep] at h
          cases flow with
          | next => exact ih s' r h fuel' (by omega)
          | leave => exact h
          | return0 => exact h

/-- An iteration over two different files that goes round has taken bytes off
what is left, whatever faults it met. -/
theorem left_lt_of_next {s s' : XorState} (hne : s.fin.ino ≠ s.fout.ino)
    (h : xorStep L key nonce s = (.next, s')) :
    s'.fin.ino ≠ s'.fout.ino ∧
      (s'.fin.left s'.world.fs).length < (s.fin.left s.world.fs).length := by
  have happ := congrArg List.length (fread_append_left L 64 s.fin s.world)
  rw [List.length_append] at happ
  rw [xorStep_eq] at h
  split at h
  · -- nothing read: the loop is left
    split at h <;> simp at h
  next hread =>
    split at h
    · simp at h
    · injection h with _ h
      subst h
      refine ⟨?_, ?_⟩
      · show (fread L 64 s.fin s.world).2.1.ino ≠ s.fout.ino
        rwa [fread_ino]
      · -- the write goes to the other file
        show ((fread L 64 s.fin s.world).2.1.left
          (fwrite L (stepOutput L key nonce s) s.fout s.world.tick).2.2.fs).length < _
        have hother : ∀ i, i ≠ s.fout.ino →
            (fwrite L (stepOutput L key nonce s) s.fout s.world.tick).2.2.fs.data i
              = s.world.fs.data i :=
          fun i hi => fwrite_data_of_ne L _ s.fout s.world.tick hi
        rw [left_eq_of_apart _ hother (Or.inl (by rwa [fread_ino]))]
        omega

/-- **Between different files the loop ends under every fault schedule.** -/
theorem xorLoop_returns (fuel : Nat) :
    ∀ s : XorState, s.fin.ino ≠ s.fout.ino →
      (s.fin.left s.world.fs).length < fuel → ∃ r, xorLoop L key nonce fuel s = some r := by
  induction fuel with
  | zero =>
      intro s _ hlt
      exact absurd hlt (Nat.not_lt_zero _)
  | succ fuel ih =>
      intro s hne hlt
      unfold xorLoop
      cases hstep : xorStep L key nonce s with
      | mk flow s' =>
          cases flow with
          | next =>
              obtain ⟨hne', hlt'⟩ := left_lt_of_next key nonce hne hstep
              exact ih s' hne' (by omega)
          | leave => exact ⟨_, rfl⟩
          | return0 => exact ⟨_, rfl⟩

end loop

end ConcurrencyCrypto.Crypto
