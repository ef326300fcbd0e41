/-
  ConcurrencyCrypto.Crypto.ChaCha20
  ─────────────────────────────────
  `chacha20.c`: the ChaCha20 block function.  `quarter_round` gets four
  pointers into the working state; here they are indices into it, and every
  statement of the C function is one store.
-/
import ConcurrencyCrypto.Crypto.Common

namespace ConcurrencyCrypto.Crypto

/-- `load32_le(p)` on the bytes at `p`. -/
def load32_le (p0 p1 p2 p3 : UInt8) : UInt32 :=
  p0.toUInt32 ||| (p1.toUInt32 <<< 8) ||| (p2.toUInt32 <<< 16) ||| (p3.toUInt32 <<< 24)

/-- `quarter_round(&ws[a], &ws[b], &ws[c], &ws[d])`. -/
def quarter_round (ws : Vector UInt32 16) (a b c d : Fin 16) : Vector UInt32 16 :=
  let ws := ws.set a (ws[a] + ws[b])
  let ws := ws.set d (ws[d] ^^^ ws[a])
  let ws := ws.set d (rotl32 ws[d] 16)
  let ws := ws.set c (ws[c] + ws[d])
  let ws := ws.set b (ws[b] ^^^ ws[c])
  let ws := ws.set b (rotl32 ws[b] 12)
  let ws := ws.set a (ws[a] + ws[b])
  let ws := ws.set d (ws[d] ^^^ ws[a])
  let ws := ws.set d (rotl32 ws[d] 8)
  let ws := ws.set c (ws[c] + ws[d])
  let ws := ws.set b (ws[b] ^^^ ws[c])
  ws.set b (rotl32 ws[b] 7)

/-- One iteration of the round loop: a column round, then a diagonal round. -/
def doubleRound (ws : Vector UInt32 16) : Vector UInt32 16 :=
  -- columns
  let ws := quarter_round ws 0 4 8 12
  let ws := quarter_round ws 1 5 9 13
  let ws := quarter_round ws 2 6 10 14
  let ws := quarter_round ws 3 7 11 15
  -- diagonals
  let ws := quarter_round ws 0 5 10 15
  let ws := quarter_round ws 1 6 11 12
  let ws := quarter_round ws 2 7 8 13
  quarter_round ws 3 4 9 14

/-- The initial state: constants, key, counter, nonce. -/
def initialState (key : Vector UInt8 32) (nonce : Vector UInt8 12) (counter : UInt32) :
    Vector UInt32 16 :=
  -- "expand 32-byte k"
  #v[0x61707865, 0x3320646e, 0x79622d32, 0x6b206574,
     load32_le key[0] key[1] key[2] key[3], load32_le key[4] key[5] key[6] key[7],
     load32_le key[8] key[9] key[10] key[11], load32_le key[12] key[13] key[14] key[15],
     load32_le key[16] key[17] key[18] key[19], load32_le key[20] key[21] key[22] key[23],
     load32_le key[24] key[25] key[26] key[27], load32_le key[28] key[29] key[30] key[31],
     counter,
     load32_le nonce[0] nonce[1] nonce[2] nonce[3],
     load32_le nonce[4] nonce[5] nonce[6] nonce[7],
     load32_le nonce[8] nonce[9] nonce[10] nonce[11]]

/-- The twenty rounds, `for (i = 0; i < 10; i++)`. -/
def chachaRounds (ws : Vector UInt32 16) : Vector UInt32 16 :=
  Nat.fold 10 (fun _ _ ws => doubleRound ws) ws

/-- `for (i = 0; i < 16; i++) ws[i] += state[i]`. -/
def addState (state ws : Vector UInt32 16) : Vector UInt32 16 :=
  Nat.fold 16 (fun i _ ws => ws.set i (ws[i] + state[i])) ws

/-- The stores of iteration `i` of the output loop, little-endian. -/
def storeWord (x : UInt32) (i : Nat) (hi : i * 4 + 3 < 64) (out : Vector UInt8 64) :
    Vector UInt8 64 :=
  (((out.set (i * 4 + 0) x.toUInt8).set
    (i * 4 + 1) (x >>> 8).toUInt8).set
    (i * 4 + 2) (x >>> 16).toUInt8).set
    (i * 4 + 3) (x >>> 24).toUInt8

theorem wordBytes_lt {i : Nat} (hi : i < 16) : i * 4 + 3 < 64 := by omega

/-- The output loop.  Every byte of `out` is written. -/
def serializeWords (ws : Vector UInt32 16) : Vector UInt8 64 :=
  Nat.fold 16 (fun i hi out => storeWord ws[i] i (wordBytes_lt hi) out)
    (Vector.replicate 64 0)

/-- `chacha20_block(key, nonce, counter, out)`. -/
def chacha20_block (key : Vector UInt8 32) (nonce : Vector UInt8 12) (counter : UInt32) :
    Vector UInt8 64 :=
  let state := initialState key nonce counter
  serializeWords (addState state (chachaRounds state))

end ConcurrencyCrypto.Crypto
