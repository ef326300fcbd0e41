/-
  ConcurrencyCrypto.Crypto.Common
  ───────────────────────────────
  `common.h`: the size constants of `file_crypt` and its bit helpers on
  `uint32_t`, with what each helper is on 32-bit vectors.
-/
import Mathlib

namespace ConcurrencyCrypto.Crypto

/-! ## §1. Constants. -/

/-- `NONCE_SIZE`. -/
def NONCE_SIZE : Nat := 12
/-- `MIN_KEY_CHARS`. -/
def MIN_KEY_CHARS : Nat := 8

/-! ## §2. Bit helpers. -/

/-- `rotl32(x, n)`. -/
def rotl32 (x : UInt32) (n : Nat) : UInt32 :=
  (x <<< UInt32.ofNat n) ||| (x >>> UInt32.ofNat (32 - n))

/-- `rotr32(x, n)`. -/
def rotr32 (x : UInt32) (n : Nat) : UInt32 :=
  (x >>> UInt32.ofNat n) ||| (x <<< UInt32.ofNat (32 - n))

theorem toBitVec_shiftLeft (x : UInt32) (n : Nat) (hn : n < 32) :
    (x <<< UInt32.ofNat n).toBitVec = x.toBitVec <<< n := by
  apply BitVec.eq_of_toNat_eq
  simp [UInt32.toBitVec_shiftLeft, Nat.mod_eq_of_lt hn]

theorem toBitVec_shiftRight (x : UInt32) (n : Nat) (hn : n < 32) :
    (x >>> UInt32.ofNat n).toBitVec = x.toBitVec >>> n := by
  apply BitVec.eq_of_toNat_eq
  simp [UInt32.toBitVec_shiftRight, Nat.mod_eq_of_lt hn]

/-- `rotr32` rotates right. -/
theorem rotr32_toBitVec (x : UInt32) (n : Nat) (h0 : 0 < n) (hn : n < 32) :
    (rotr32 x n).toBitVec = x.toBitVec.rotateRight n := by
  rw [rotr32, UInt32.toBitVec_or, toBitVec_shiftRight x n hn,
      toBitVec_shiftLeft x (32 - n) (by omega), BitVec.rotateRight_def,
      Nat.mod_eq_of_lt hn]

/-- `rotl32` rotates left. -/
theorem rotl32_toBitVec (x : UInt32) (n : Nat) (h0 : 0 < n) (hn : n < 32) :
    (rotl32 x n).toBitVec = x.toBitVec.rotateLeft n := by
  rw [rotl32, UInt32.toBitVec_or, toBitVec_shiftLeft x n hn,
      toBitVec_shiftRight x (32 - n) (by omega), BitVec.rotateLeft_def,
      Nat.mod_eq_of_lt hn]

/-! ## §3. The two rotations undo each other. -/

theorem rotateRight_rotateLeft {w : Nat} (x : BitVec w) (n : Nat) (hn : n < w) :
    (x.rotateLeft n).rotateRight n = x := by
  ext i hi
  simp only [BitVec.getElem_rotateRight, BitVec.getElem_rotateLeft, Nat.mod_eq_of_lt hn]
  by_cases h : i < w - n
  · simp only [dif_pos h, dif_neg (show ¬ n + i < n by omega)]
    congr 1
    omega
  · simp only [dif_neg h, dif_pos (show i - (w - n) < n by omega)]
    congr 1
    omega

theorem rotateLeft_rotateRight {w : Nat} (x : BitVec w) (n : Nat) (hn : n < w) :
    (x.rotateRight n).rotateLeft n = x := by
  ext i hi
  simp only [BitVec.getElem_rotateRight, BitVec.getElem_rotateLeft, Nat.mod_eq_of_lt hn]
  by_cases h : i < n
  · simp only [dif_pos h, dif_neg (show ¬ w - n + i < w - n by omega)]
    congr 1
    omega
  · simp only [dif_neg h, dif_pos (show i - n < w - n by omega)]
    congr 1
    omega

theorem rotr32_rotl32 (x : UInt32) (n : Nat) (h0 : 0 < n) (hn : n < 32) :
    rotr32 (rotl32 x n) n = x := by
  apply UInt32.toBitVec_inj.mp
  rw [rotr32_toBitVec _ n h0 hn, rotl32_toBitVec x n h0 hn, rotateRight_rotateLeft _ n hn]

theorem rotl32_rotr32 (x : UInt32) (n : Nat) (h0 : 0 < n) (hn : n < 32) :
    rotl32 (rotr32 x n) n = x := by
  apply UInt32.toBitVec_inj.mp
  rw [rotl32_toBitVec _ n h0 hn, rotr32_toBitVec x n h0 hn, rotateLeft_rotateRight _ n hn]

end ConcurrencyCrypto.Crypto
