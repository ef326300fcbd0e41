/-
  ConcurrencyCrypto.Crypto.Sha256Calls
  ────────────────────────────────────
  **WHAT AN OPERATION OF `sha256.c` DOES TO A CONTEXT.**

  An operation takes bytes in and calls `sha256_transform` on full buffers.
  The functions `…Calls` record these calls, each with the chaining state it
  read and its block, along the same control flow as the code.

  `Emits c d calls c'` says of an operation from `c` to `c'` that it took in
  the bytes `d` and made the calls `calls`: these are a chain of the
  compression function, and their blocks with what is pending at the end are
  what was pending before, followed by `d`.  All of `sha256.c` is made of

    • storing bytes behind the pending ones          (`Emits.store`),
    • compressing a full buffer and emptying it      (`Emits.compress`),

  one after the other (`Emits.trans`).
-/
import ConcurrencyCrypto.Crypto.Sha256Transform
import ConcurrencyCrypto.Library.IteratedHash

namespace ConcurrencyCrypto.Crypto

open ConcurrencyCrypto.Library

/-! ## §1. Calls of the compression function. -/

/-- The state a call `sha256_transform(c, block)` reads, and its block. -/
abbrev Call := Vector UInt32 8 × Vector UInt8 64

/-- The state `sha256_transform` leaves. -/
def transformState (s : Vector UInt32 8) (block : Vector UInt8 64) : Vector UInt32 8 :=
  (transformRounds (transformExpand (transformLoad block (Vector.replicate 64 0)))
    (Work.load s)).feedForward s

theorem sha256_transform_state (c : Sha256Ctx) (block : Vector UInt8 64) :
    (sha256_transform c block).state = transformState c.state block := rfl

/-- `sha256_transform(c, c->buffer)`. -/
def Sha256Ctx.call (c : Sha256Ctx) : Call := (c.state, c.buffer)

/-- The call in one iteration of the loop of `sha256_update`. -/
def updateStepCalls (c : Sha256Ctx) (data : List UInt8) : List Call :=
  let take := c.take data.length
  if c.buffer_len + take = 64 then
    [(c.state, blit c.buffer c.buffer_len (data.take take))]
  else []

/-- The calls of the loop. -/
def updateLoopCalls (c : Sha256Ctx) (data : List UInt8) : List Call :=
  if _hne : data = [] then []
  else
    match _h : updateStep c data with
    | none => []
    | some (c', data') => updateStepCalls c data ++ updateLoopCalls c' data'
termination_by (data.length, c.buffer_len)
decreasing_by
  rcases updateStep_decreases _hne _h with hlt | ⟨heq, hlt⟩
  · exact Prod.Lex.left _ _ hlt
  · rw [heq]
    exact Prod.Lex.right _ hlt

/-- The calls of `sha256_update(c, data, len)`. -/
def updateCalls (c : Sha256Ctx) (data : List UInt8) : List Call :=
  updateLoopCalls { c with bit_count := c.bit_count + UInt64.ofNat data.length * 8 } data

/-- The call for a block that has no room for the length. -/
def spillCalls (c : Sha256Ctx) : Option (List Call) :=
  if c.buffer_len > 56 then do
    let c ← fillZeros 64 c
    pure [c.call]
  else pure []

/-- The calls of `sha256_final(c, out)`. -/
def finalCalls (c : Sha256Ctx) : Option (List Call) := do
  let c ← c.push 0x80
  let spilled ← spillCalls c
  let c ← spillBlock c
  let c ← fillZeros 56 c
  let c ← pushBitCount c
  pure (spilled ++ [c.call])

/-- The calls of `sha256(data, len, out)`. -/
def sha256Calls (c : Sha256Ctx) (data : List UInt8) : Option (List Call) := do
  let c₁ ← sha256_update (sha256_init c) data
  let calls ← finalCalls c₁
  pure (updateCalls (sha256_init c) data ++ calls)

/-! ## §2. Taking bytes in. -/

/-- The bytes waiting in the partial block. -/
def Sha256Ctx.pending (c : Sha256Ctx) : List UInt8 :=
  c.buffer.toList.take c.buffer_len

/-- The bytes of the blocks. -/
def blockBytes (calls : List Call) : List UInt8 := (calls.map fun x => x.2.toList).flatten

/-- From `c` to `c'` the bytes `d` were taken in, with these calls. -/
structure Emits (c : Sha256Ctx) (d : List UInt8) (calls : List Call) (c' : Sha256Ctx) :
    Prop where
  buffer_len_le : c'.buffer_len ≤ 64
  chained : Chained transformState c.state calls c'.state
  bytes : blockBytes calls ++ c'.pending = c.pending ++ d

namespace Emits

variable {c c' c'' : Sha256Ctx} {d d' : List UInt8} {calls calls' : List Call}

/-- Storing `d` behind the pending bytes. -/
theorem store (c : Sha256Ctx) (d : List UInt8) (hd : c.buffer_len + d.length ≤ 64)
    (n : UInt64) :
    Emits c d [] { c with
      bit_count := n
      buffer := blit c.buffer c.buffer_len d
      buffer_len := c.buffer_len + d.length } where
  buffer_len_le := hd
  chained := rfl
  bytes := blit_take c.buffer c.buffer_len d hd

/-- Compressing a full buffer. -/
theorem compress (c : Sha256Ctx) (hfull : c.buffer_len = 64) :
    Emits c [] [c.call] { sha256_transform c c.buffer with buffer_len := 0 } where
  buffer_len_le := Nat.zero_le 64
  chained := Chained.single transformState c.state c.buffer
  bytes := by
    have hpend : c.pending = c.buffer.toList := by
      unfold Sha256Ctx.pending
      rw [hfull]
      exact List.take_of_length_le (by simp)
    rw [hpend]
    show [c.buffer.toList].flatten ++ [] = c.buffer.toList ++ []
    rw [List.flatten_singleton]

/-- Doing nothing. -/
theorem refl (h : c.buffer_len ≤ 64) : Emits c [] [] c where
  buffer_len_le := h
  chained := rfl
  bytes := (List.append_nil c.pending).symm

/-- One operation after the other. -/
theorem trans (h : Emits c d calls c') (h' : Emits c' d' calls' c'') :
    Emits c (d ++ d') (calls ++ calls') c'' where
  buffer_len_le := h'.buffer_len_le
  chained := h.chained.trans h'.chained
  bytes := by
    calc blockBytes (calls ++ calls') ++ c''.pending
        = blockBytes calls ++ (blockBytes calls' ++ c''.pending) := by simp [blockBytes]
      _ = (blockBytes calls ++ c'.pending) ++ d' := by rw [h'.bytes, List.append_assoc]
      _ = c.pending ++ (d ++ d') := by rw [h.bytes, List.append_assoc]

/-- The bit counter plays no part. -/
theorem of_bit_count {n : UInt64} (h : Emits { c with bit_count := n } d calls c') :
    Emits c d calls c' := ⟨h.buffer_len_le, h.chained, h.bytes⟩

end Emits

/-! ## §3. `sha256_update`. -/

/-- With room in the buffer, an iteration takes what fits. -/
theorem take_eq (c : Sha256Ctx) (h : c.buffer_len < 64) (len : Nat) :
    c.take len = min len (64 - c.buffer_len) := by
  have hroom : (2 ^ 64 + 64 - c.buffer_len) % 2 ^ 64 = 64 - c.buffer_len := by omega
  unfold Sha256Ctx.take
  rw [hroom]
  dsimp only
  split <;> omega

/-- **One iteration** moves the first bytes of the data into the context and
leaves room in its buffer. -/
theorem updateStep_emits {c : Sha256Ctx} (hroom : c.buffer_len < 64) (data : List UInt8) :
    ∃ c', updateStep c data = some (c', data.drop (c.take data.length)) ∧
      Emits c (data.take (c.take data.length)) (updateStepCalls c data) c' ∧
      c'.buffer_len < 64 ∧ c'.bit_count = c.bit_count := by
  have htake := take_eq c hroom data.length
  have hlen : (data.take (c.take data.length)).length = c.take data.length := by
    rw [List.length_take]
    omega
  have hstore := Emits.store c (data.take (c.take data.length)) (by omega) c.bit_count
  rw [hlen] at hstore
  unfold updateStep updateStepCalls
  dsimp only
  rw [if_pos (by omega)]
  by_cases hfull : c.buffer_len + c.take data.length = 64
  · -- the block is complete and goes into the state
    rw [if_pos hfull, if_pos hfull]
    have h := hstore.trans (Emits.compress _ hfull)
    rw [List.append_nil, List.nil_append] at h
    exact ⟨_, rfl, h, by show 0 < 64; decide, rfl⟩
  · -- the data ends inside the block
    rw [if_neg hfull, if_neg hfull]
    exact ⟨_, rfl, hstore, by show c.buffer_len + _ < 64; omega, rfl⟩

/-- **The loop takes all of its data in.** -/
theorem updateLoop_emits (n : Nat) :
    ∀ (c : Sha256Ctx) (data : List UInt8), data.length ≤ n → c.buffer_len < 64 →
      ∃ c', updateLoop c data = some c' ∧ Emits c data (updateLoopCalls c data) c' ∧
        c'.buffer_len < 64 ∧ c'.bit_count = c.bit_count := by
  -- on the length of the data: an iteration takes at least one byte
  induction n with
  | zero =>
      intro c data hn hroom
      obtain rfl := List.length_eq_zero_iff.mp (Nat.le_zero.mp hn)
      refine ⟨c, ?_, ?_, hroom, rfl⟩
      · rw [updateLoop, dif_pos rfl]
      · rw [updateLoopCalls, dif_pos rfl]
        exact Emits.refl (Nat.le_of_lt hroom)
  | succ n ih =>
      intro c data hn hroom
      by_cases hne : data = []
      · subst hne
        refine ⟨c, ?_, ?_, hroom, rfl⟩
        · rw [updateLoop, dif_pos rfl]
        · rw [updateLoopCalls, dif_pos rfl]
          exact Emits.refl (Nat.le_of_lt hroom)
      · obtain ⟨c₁, hstep, h₁, hroom₁, hbits₁⟩ := updateStep_emits hroom data
        have hpos : 0 < data.length := List.length_pos_iff.mpr hne
        have hshort : (data.drop (c.take data.length)).length ≤ n := by
          rw [List.length_drop, take_eq c hroom]
          omega
        obtain ⟨c₂, hloop, h₂, hroom₂, hbits₂⟩ := ih c₁ _ hshort hroom₁
        refine ⟨c₂, ?_, ?_, hroom₂, by rw [hbits₂, hbits₁]⟩
        · rw [updateLoop, dif_neg hne]
          split
          next hnone => rw [hstep] at hnone; exact absurd hnone (by simp)
          next c' data' hsome =>
            rw [hstep] at hsome
            injection hsome with hsome
            injection hsome with hc hd
            subst hc hd
            exact hloop
        · rw [updateLoopCalls, dif_neg hne]
          split
          next hnone => rw [hstep] at hnone; exact absurd hnone (by simp)
          next c' data' hsome =>
            rw [hstep] at hsome
            injection hsome with hsome
            injection hsome with hc hd
            subst hc hd
            have h := h₁.trans h₂
            rwa [List.take_append_drop] at h

/-- **`sha256_update` takes its data in** and counts its bits modulo 2^64. -/
theorem update_emits {c : Sha256Ctx} (hroom : c.buffer_len < 64) (data : List UInt8) :
    ∃ c', sha256_update c data = some c' ∧ Emits c data (updateCalls c data) c' ∧
      c'.buffer_len < 64 ∧
      c'.bit_count = c.bit_count + UInt64.ofNat data.length * 8 := by
  obtain ⟨c', hloop, h, hrest⟩ := updateLoop_emits data.length
    { c with bit_count := c.bit_count + UInt64.ofNat data.length * 8 } data
    (Nat.le_refl _) hroom
  exact ⟨c', hloop, h.of_bit_count, hrest⟩

/-! ## §4. Padding bytes. -/

/-- **One padding byte** `c->buffer[c->buffer_len++] = b`. -/
theorem push_emits {c : Sha256Ctx} (hroom : c.buffer_len < 64) (b : UInt8) :
    ∃ c', c.push b = some c' ∧ Emits c [b] [] c' ∧
      c'.buffer_len = c.buffer_len + 1 ∧ c'.bit_count = c.bit_count := by
  -- the store is a copy of one byte
  have hset : c.buffer.set c.buffer_len b = blit c.buffer c.buffer_len [b] := by
    apply Vector.ext
    intro i hi
    rw [Vector.getElem_set, blit_getElem]
    by_cases hik : c.buffer_len = i
    · subst hik
      simp
    · rw [if_neg hik, dif_neg (by simp only [List.length_singleton]; omega)]
  have hstore := Emits.store c [b] (by simpa using hroom) c.bit_count
  rw [← hset] at hstore
  unfold Sha256Ctx.push
  rw [dif_pos hroom]
  exact ⟨_, rfl, hstore, rfl, rfl⟩

/-- **The zero-fill loop** takes in the zeros up to its limit. -/
theorem fillZeros_emits (limit : Nat) (hlimit : limit ≤ 64) (n : Nat) :
    ∀ (c : Sha256Ctx), c.buffer_len + n = limit →
      ∃ c', fillZeros limit c = some c' ∧ Emits c (List.replicate n 0) [] c' ∧
        c'.buffer_len = limit ∧ c'.bit_count = c.bit_count := by
  induction n with
  | zero =>
      intro c hn
      refine ⟨c, ?_, Emits.refl (by omega), hn, rfl⟩
      rw [fillZeros, if_neg (by omega)]
  | succ n ih =>
      intro c hn
      obtain ⟨c₁, hpush, h₁, hlen₁, hbits₁⟩ := push_emits (c := c) (by omega) 0
      obtain ⟨c₂, hfill, h₂, hlen₂, hbits₂⟩ := ih c₁ (by omega)
      refine ⟨c₂, ?_, h₁.trans h₂, hlen₂, by rw [hbits₂, hbits₁]⟩
      rw [fillZeros, if_pos (by omega)]
      split
      next hnone => rw [hpush] at hnone; exact absurd hnone (by simp)
      next c' hsome =>
        rw [hpush] at hsome
        injection hsome with hc
        subst hc
        exact hfill

/-- A run of single-byte stores, each computed from the bit counter. -/
theorem pushAll_emits (f : UInt64 → Nat → UInt8) (is : List Nat) :
    ∀ (c : Sha256Ctx), c.buffer_len + is.length ≤ 64 →
      ∃ c', is.foldlM (fun c i => c.push (f c.bit_count i)) c = some c' ∧
        Emits c (is.map (f c.bit_count)) [] c' ∧
        c'.buffer_len = c.buffer_len + is.length := by
  induction is with
  | nil =>
      intro c hlen
      exact ⟨c, rfl, Emits.refl hlen, rfl⟩
  | cons i is ih =>
      intro c hlen
      rw [List.length_cons] at hlen
      obtain ⟨c₁, hpush, h₁, hlen₁, hbits₁⟩ := push_emits (c := c) (by omega) (f c.bit_count i)
      obtain ⟨c₂, hrest, h₂, hlen₂⟩ := ih c₁ (by omega)
      refine ⟨c₂, ?_, ?_, by rw [hlen₂, hlen₁, List.length_cons]; omega⟩
      · rw [List.foldlM_cons, hpush]
        exact hrest
      · have h := h₁.trans h₂
        rwa [hbits₁, List.singleton_append, ← List.map_cons] at h

/-- Byte `i` of a 64-bit counter, most significant first. -/
theorem bit_count_bytes (n : UInt64) :
    [7, 6, 5, 4, 3, 2, 1, 0].map (fun i => (n >>> UInt64.ofNat (i * 8)).toUInt8)
      = Fips180.beBytes 8 n.toNat := by
  have hbyte : ∀ i, i < 8 →
      (n >>> UInt64.ofNat (i * 8)).toUInt8 = UInt8.ofNat (n.toNat / 256 ^ i) := by
    intro i hi
    apply UInt8.toNat_inj.mp
    have hmod : i * 8 % 2 ^ 64 % 64 = i * 8 := by omega
    simp only [UInt64.toNat_toUInt8, UInt64.toNat_shiftRight, UInt64.toNat_ofNat',
      UInt8.toNat_ofNat', Nat.shiftRight_eq_div_pow]
    rw [hmod, Nat.mul_comm i 8, Nat.pow_mul]
  show _ = (List.range 8).map _
  simp only [List.map_cons, List.map_nil, hbyte 7 (by decide), hbyte 6 (by decide),
    hbyte 5 (by decide), hbyte 4 (by decide), hbyte 3 (by decide), hbyte 2 (by decide),
    hbyte 1 (by decide), hbyte 0 (by decide)]
  rfl

/-! ## §5. `sha256_final`. -/

/-- **The two-way padding of `sha256_final`**: after the marker byte, zeros
up to offset 56 of a block, through a compression if this block is too full. -/
theorem final_zeros_emits {c : Sha256Ctx} (hle : c.buffer_len ≤ 64) :
    ∃ (k : Nat) (calls : List Call) (c' : Sha256Ctx),
      (spillBlock c).bind (fillZeros 56) = some c' ∧ spillCalls c = some calls ∧ k < 64 ∧
      Emits c (List.replicate k 0) calls c' ∧ c'.buffer_len = 56 ∧
      c'.bit_count = c.bit_count := by
  unfold spillBlock spillCalls
  by_cases hbig : c.buffer_len > 56
  · -- two final blocks: this one is zero-filled and compressed first
    obtain ⟨c₁, hfill₁, h₁, hlen₁, hbits₁⟩ :=
      fillZeros_emits 64 (Nat.le_refl 64) (64 - c.buffer_len) c (by omega)
    obtain ⟨c₂, hfill₂, h₂, hlen₂, hbits₂⟩ := fillZeros_emits 56 (by decide) 56
      { sha256_transform c₁ c₁.buffer with buffer_len := 0 } (by rfl)
    refine ⟨64 - c.buffer_len + 56, [c₁.call], c₂, ?_, ?_, by omega, ?_, hlen₂,
      by rw [hbits₂]; exact hbits₁⟩
    · rw [if_pos hbig, hfill₁]
      exact hfill₂
    · rw [if_pos hbig, hfill₁]
      rfl
    · have h := (h₁.trans (Emits.compress c₁ hlen₁)).trans h₂
      rwa [List.append_nil, List.replicate_append_replicate] at h
  · -- the length still fits into this block
    obtain ⟨c₁, hfill₁, h₁, hlen₁, hbits₁⟩ :=
      fillZeros_emits 56 (by decide) (56 - c.buffer_len) c (by omega)
    refine ⟨56 - c.buffer_len, [], c₁, ?_, ?_, by omega, h₁, hlen₁, hbits₁⟩
    · rw [if_neg hbig]
      exact hfill₁
    · rw [if_neg hbig]
      rfl

/-- **`sha256_final` takes in the marker, zeros and the bit count**, which
fill its last block. -/
theorem final_emits {c : Sha256Ctx} (hroom : c.buffer_len < 64) :
    ∃ (k : Nat) (calls : List Call) (c' : Sha256Ctx),
      sha256_final c = some (c', serializeState c'.state) ∧ finalCalls c = some calls ∧
      k < 64 ∧
      Emits c ([0x80] ++ List.replicate k 0 ++ Fips180.beBytes 8 c.bit_count.toNat) calls
        { c' with buffer_len := 0 } := by
  obtain ⟨c₁, hpush, h₁, hlen₁, hbits₁⟩ := push_emits hroom 0x80
  obtain ⟨k, calls, c₂, hzeros, hspill, hk, h₂, hlen₂, hbits₂⟩ :=
    final_zeros_emits h₁.buffer_len_le
  obtain ⟨c₃, hcount, h₃, hlen₃⟩ := pushAll_emits
    (fun n i => (n >>> UInt64.ofNat (i * 8)).toUInt8) [7, 6, 5, 4, 3, 2, 1, 0]
    c₂ (by rw [hlen₂]; decide)
  rw [bit_count_bytes, hbits₂, hbits₁] at h₃
  have hfull : c₃.buffer_len = 64 := by rw [hlen₃, hlen₂]; rfl
  obtain ⟨c₁', hspill', hfill⟩ := Option.bind_eq_some_iff.mp hzeros
  refine ⟨k, calls ++ [c₃.call], sha256_transform c₃ c₃.buffer, ?_, ?_, hk, ?_⟩
  · unfold sha256_final pushBitCount
    simp only [Option.bind_eq_bind]
    rw [hpush, Option.bind_some, hspill', Option.bind_some, hfill, Option.bind_some, hcount]
    rfl
  · unfold finalCalls pushBitCount
    simp only [Option.bind_eq_bind]
    rw [hpush, Option.bind_some, hspill, Option.bind_some, hspill', Option.bind_some, hfill,
      Option.bind_some, hcount]
    rfl
  · have h := ((h₁.trans h₂).trans h₃).trans (Emits.compress c₃ hfull)
    rwa [List.append_nil, List.nil_append, List.append_nil] at h

end ConcurrencyCrypto.Crypto
