/-
  ConcurrencyCrypto.Crypto.Sha256
  ───────────────────────────────
  `sha256.c`: the incremental SHA-256 of `file_crypt`.

  The context is the C struct.  Every store into its 64-byte `buffer` is
  bounds-checked: a store the C code would make outside the array has no
  meaning there and is `none` here.  `size_t` and `uint64_t` arithmetic is
  modulo 2^64 where it can wrap.
-/
import ConcurrencyCrypto.Crypto.Common
import ConcurrencyCrypto.Library.Loops

namespace ConcurrencyCrypto.Crypto

open ConcurrencyCrypto.Library

/-! ## §1. Constants and context. -/

/-- `SHA256_K`. -/
def SHA256_K : Vector UInt32 64 := #v[
    0x428a2f98,0x71374491,0xb5c0fbcf,0xe9b5dba5,0x3956c25b,0x59f111f1,0x923f82a4,0xab1c5ed5,
    0xd807aa98,0x12835b01,0x243185be,0x550c7dc3,0x72be5d74,0x80deb1fe,0x9bdc06a7,0xc19bf174,
    0xe49b69c1,0xefbe4786,0x0fc19dc6,0x240ca1cc,0x2de92c6f,0x4a7484aa,0x5cb0a9dc,0x76f988da,
    0x983e5152,0xa831c66d,0xb00327c8,0xbf597fc7,0xc6e00bf3,0xd5a79147,0x06ca6351,0x14292967,
    0x27b70a85,0x2e1b2138,0x4d2c6dfc,0x53380d13,0x650a7354,0x766a0abb,0x81c2c92e,0x92722c85,
    0xa2bfe8a1,0xa81a664b,0xc24b8b70,0xc76c51a3,0xd192e819,0xd6990624,0xf40e3585,0x106aa070,
    0x19a4c116,0x1e376c08,0x2748774c,0x34b0bcb5,0x391c0cb3,0x4ed8aa4a,0x5b9cca4f,0x682e6ff3,
    0x748f82ee,0x78a5636f,0x84c87814,0x8cc70208,0x90befffa,0xa4506ceb,0xbef9a3f7,0xc67178f2]

/-- `sha256_ctx`. -/
structure Sha256Ctx where
  /-- Current hash state (H0..H7). -/
  state : Vector UInt32 8
  /-- Total number of message bits seen so far. -/
  bit_count : UInt64
  /-- Partial-block buffer. -/
  buffer : Vector UInt8 64
  /-- Bytes currently in `buffer`. -/
  buffer_len : Nat
  deriving DecidableEq

/-- `sha256_init`: the buffer's bytes stay what they were. -/
def sha256_init (c : Sha256Ctx) : Sha256Ctx :=
  { c with
    state := #v[0x6a09e667, 0xbb67ae85, 0x3c6ef372, 0xa54ff53a,
                0x510e527f, 0x9b05688c, 0x1f83d9ab, 0x5be0cd19]
    bit_count := 0
    buffer_len := 0 }

/-! ## §2. The compression function `sha256_transform`. -/

/-- The working variables `a … h` of the round loop. -/
structure Work where
  (a b cc d e f g h : UInt32)
  deriving DecidableEq

/-- `for (i = 0; i < 16; i++) w[i] = block[4i..4i+3]`, big-endian. -/
def transformLoad (block : Vector UInt8 64) (w : Vector UInt32 64) : Vector UInt32 64 :=
  Nat.fold 16 (fun i _ w =>
    w.set i ((block[i * 4 + 0].toUInt32 <<< 24)
      ||| (block[i * 4 + 1].toUInt32 <<< 16)
      ||| (block[i * 4 + 2].toUInt32 <<< 8)
      ||| block[i * 4 + 3].toUInt32)) w

/-- `for (i = 16; i < 64; i++) w[i] = w[i-16] + s0 + w[i-7] + s1`; the loop
variable here is `i - 16`. -/
def transformExpand (w : Vector UInt32 64) : Vector UInt32 64 :=
  Nat.fold 48 (fun k _ w =>
    let s0 := rotr32 w[k + 1] 7 ^^^ rotr32 w[k + 1] 18 ^^^ w[k + 1] >>> 3
    let s1 := rotr32 w[k + 14] 17 ^^^ rotr32 w[k + 14] 19 ^^^ w[k + 14] >>> 10
    w.set (k + 16) (w[k] + s0 + w[k + 9] + s1)) w

/-- The body of the round loop. -/
def transformRound (k w : UInt32) (v : Work) : Work :=
  let S1 := rotr32 v.e 6 ^^^ rotr32 v.e 11 ^^^ rotr32 v.e 25
  let ch := (v.e &&& v.f) ^^^ (~~~v.e &&& v.g)
  let tmp1 := v.h + S1 + ch + k + w
  let S0 := rotr32 v.a 2 ^^^ rotr32 v.a 13 ^^^ rotr32 v.a 22
  let maj := (v.a &&& v.b) ^^^ (v.a &&& v.cc) ^^^ (v.b &&& v.cc)
  let tmp2 := S0 + maj
  { h := v.g, g := v.f, f := v.e, e := v.d + tmp1
    d := v.cc, cc := v.b, b := v.a, a := tmp1 + tmp2 }

/-- The round loop `for (i = 0; i < 64; i++)`. -/
def transformRounds (w : Vector UInt32 64) (v : Work) : Work :=
  Nat.fold 64 (fun i _ v => transformRound SHA256_K[i] w[i] v) v

/-- `uint32_t a = c->state[0], b = c->state[1], …`. -/
def Work.load (s : Vector UInt32 8) : Work :=
  { a := s[0], b := s[1], cc := s[2], d := s[3]
    e := s[4], f := s[5], g := s[6], h := s[7] }

/-- The feed-forward `c->state[0] += a; c->state[1] += b; …`. -/
def Work.feedForward (v : Work) (s : Vector UInt32 8) : Vector UInt32 8 :=
  #v[s[0] + v.a, s[1] + v.b, s[2] + v.cc, s[3] + v.d,
     s[4] + v.e, s[5] + v.f, s[6] + v.g, s[7] + v.h]

/-- `sha256_transform(c, block)`.  The local array `w` is written in full
before it is read, so it may start as anything. -/
def sha256_transform (c : Sha256Ctx) (block : Vector UInt8 64) : Sha256Ctx :=
  let w := transformExpand (transformLoad block (Vector.replicate 64 0))
  let v := transformRounds w (Work.load c.state)
  { c with state := v.feedForward c.state }

/-! ## §3. `sha256_update`. -/

/-- `size_t take = 64 - c->buffer_len; if (take > len) take = len;` -/
def Sha256Ctx.take (c : Sha256Ctx) (len : Nat) : Nat :=
  -- a size_t difference: it wraps when the buffer is over-full
  let take := (2 ^ 64 + 64 - c.buffer_len) % 2 ^ 64
  if take > len then len else take

/-- One iteration of the `while (len > 0)` loop: the context and the data
that remain. -/
def updateStep (c : Sha256Ctx) (data : List UInt8) : Option (Sha256Ctx × List UInt8) :=
  let take := c.take data.length
  if c.buffer_len + take ≤ 64 then
    -- memcpy(c->buffer + c->buffer_len, data, take);
    let c := { c with
      buffer := blit c.buffer c.buffer_len (data.take take)
      buffer_len := c.buffer_len + take }
    if c.buffer_len = 64 then
      some ({ sha256_transform c c.buffer with buffer_len := 0 }, data.drop take)
    else some (c, data.drop take)
  else none

/-- An iteration consumes data, or empties a full buffer. -/
theorem updateStep_decreases {c c' : Sha256Ctx} {data data' : List UInt8}
    (hne : data ≠ []) (h : updateStep c data = some (c', data')) :
    data'.length < data.length
      ∨ (data'.length = data.length ∧ c'.buffer_len < c.buffer_len) := by
  have hlen : 0 < data.length := List.length_pos_iff.mpr hne
  unfold updateStep at h
  dsimp only at h
  split at h
  next hfit =>
    have hdrop : (data.drop (c.take data.length)).length
        = data.length - c.take data.length := List.length_drop
    by_cases hfull : c.buffer_len = 64
    · -- nothing fits, but the full buffer is compressed and emptied
      have htake : c.take data.length = 0 := by
        unfold Sha256Ctx.take
        simp [hfull]
      rw [if_pos (by omega)] at h
      simp only [Option.some.injEq, Prod.mk.injEq] at h
      obtain ⟨rfl, rfl⟩ := h
      right
      exact ⟨by rw [hdrop, htake, Nat.sub_zero], by show 0 < c.buffer_len; omega⟩
    · -- at least one byte moves
      have htake : 0 < c.take data.length := by
        unfold Sha256Ctx.take
        dsimp only
        split <;> omega
      left
      split at h <;>
        · simp only [Option.some.injEq, Prod.mk.injEq] at h
          obtain ⟨-, rfl⟩ := h
          omega
  next => exact absurd h (by simp)

/-- The loop `while (len > 0)` of `sha256_update`. -/
def updateLoop (c : Sha256Ctx) (data : List UInt8) : Option Sha256Ctx :=
  if _hne : data = [] then some c
  else
    match _h : updateStep c data with
    | none => none
    | some (c', data') => updateLoop c' data'
termination_by (data.length, c.buffer_len)
decreasing_by
  rcases updateStep_decreases _hne _h with hlt | ⟨heq, hlt⟩
  · exact Prod.Lex.left _ _ hlt
  · rw [heq]
    exact Prod.Lex.right _ hlt

/-- `sha256_update(c, data, len)`. -/
def sha256_update (c : Sha256Ctx) (data : List UInt8) : Option Sha256Ctx :=
  updateLoop
    { c with bit_count := c.bit_count + UInt64.ofNat data.length * 8 } data

/-! ## §4. `sha256_final` and the one-shot wrapper. -/

/-- `c->buffer[c->buffer_len++] = b`. -/
def Sha256Ctx.push (c : Sha256Ctx) (b : UInt8) : Option Sha256Ctx :=
  if h : c.buffer_len < 64 then
    some { c with
      buffer := c.buffer.set c.buffer_len b
      buffer_len := c.buffer_len + 1 }
  else none

theorem Sha256Ctx.push_buffer_len {c c' : Sha256Ctx} {b : UInt8}
    (h : c.push b = some c') : c'.buffer_len = c.buffer_len + 1 := by
  unfold Sha256Ctx.push at h
  split at h
  · cases h
    rfl
  · exact absurd h (by simp)

/-- `while (c->buffer_len < limit) c->buffer[c->buffer_len++] = 0;` -/
def fillZeros (limit : Nat) (c : Sha256Ctx) : Option Sha256Ctx :=
  if c.buffer_len < limit then
    match _h : c.push 0 with
    | none => none
    | some c' => fillZeros limit c'
  else some c
termination_by limit - c.buffer_len
decreasing_by
  have := Sha256Ctx.push_buffer_len _h
  omega

/-- `for (i = 7; i >= 0; i--)` append byte `i` of the bit count. -/
def pushBitCount (c : Sha256Ctx) : Option Sha256Ctx :=
  [7, 6, 5, 4, 3, 2, 1, 0].foldlM
    (fun c i => c.push (c.bit_count >>> UInt64.ofNat (i * 8)).toUInt8) c

/-- The output loop: eight state words, big-endian.  Every byte of `out` is
written, so it may start as anything. -/
def serializeState (state : Vector UInt32 8) : Vector UInt8 32 :=
  Nat.fold 8 (fun i _ out =>
    (((out.set (i * 4 + 0) (state[i] >>> 24).toUInt8).set
      (i * 4 + 1) (state[i] >>> 16).toUInt8).set
      (i * 4 + 2) (state[i] >>> 8).toUInt8).set
      (i * 4 + 3) state[i].toUInt8) (Vector.replicate 32 0)

/-- `if (c->buffer_len > 56) { … }`: no room for the length in this block, so
it is zero-filled and compressed. -/
def spillBlock (c : Sha256Ctx) : Option Sha256Ctx :=
  if c.buffer_len > 56 then do
    let c ← fillZeros 64 c
    pure { sha256_transform c c.buffer with buffer_len := 0 }
  else pure c

/-- `sha256_final(c, out)`: the context afterwards and the digest. -/
def sha256_final (c : Sha256Ctx) : Option (Sha256Ctx × Vector UInt8 32) := do
  -- the marker bit, then zeros up to offset 56 of the last block
  let c ← c.push 0x80
  let c ← spillBlock c
  let c ← fillZeros 56 c
  -- the length fills that block
  let c ← pushBitCount c
  let c := sha256_transform c c.buffer
  pure (c, serializeState c.state)

/-- `sha256(data, len, out)`; `c` is what the stack held where the context
is allocated. -/
def sha256 (c : Sha256Ctx) (data : List UInt8) : Option (Vector UInt8 32) := do
  let c ← sha256_update (sha256_init c) data
  let (_, out) ← sha256_final c
  pure out

end ConcurrencyCrypto.Crypto
