/-
  ConcurrencyCrypto.Crypto.Fips180
  ────────────────────────────────
  **SHA-256 AS FIPS 180-4 STATES IT** — the reference `sha256.c` is compared
  with.  Words are 32-bit vectors; nothing here is read off the C code:

    • the constants are computed from their definition (the first 32 bits of
      the fractional parts of the square roots of the first eight primes and
      of the cube roots of the first sixty-four),
    • the message schedule is its recurrence,
    • padding, block cutting and serialisation are functions of the whole
      message.
-/
import ConcurrencyCrypto.Library.BlockStream

namespace ConcurrencyCrypto.Crypto.Fips180

open ConcurrencyCrypto.Library

/-- A 32-bit word. -/
abbrev Word := BitVec 32

/-! ## §1. Constants. -/

/-- `⌊n^(1/k)⌋`, decided bit by bit from bit 39 down. -/
def rootFloor (k n : Nat) : Nat :=
  (List.range 40).foldr
    (fun b c => if (c + 2 ^ b) ^ k ≤ n then c + 2 ^ b else c) 0

/-- The first sixty-four primes. -/
def primes : List Nat :=
  [2, 3, 5, 7, 11, 13, 17, 19, 23, 29, 31, 37, 41, 43, 47, 53,
   59, 61, 67, 71, 73, 79, 83, 89, 97, 101, 103, 107, 109, 113, 127, 131,
   137, 139, 149, 151, 157, 163, 167, 173, 179, 181, 191, 193, 197, 199, 211, 223,
   227, 229, 233, 239, 241, 251, 257, 263, 269, 271, 277, 281, 283, 293, 307, 311]

/-- `H⁽⁰⁾`: fractional bits of the square roots of the first eight primes. -/
def H0 : Vector Word 8 :=
  Vector.ofFn fun i => BitVec.ofNat 32 (rootFloor 2 (primes.getD i.val 0 * 2 ^ 64))

/-- `K_t`: fractional bits of the cube root of prime number `t`. -/
def K (t : Nat) : Word :=
  BitVec.ofNat 32 (rootFloor 3 (primes.getD t 0 * 2 ^ 96))

/-- The list above is complete up to 311. -/
theorem primes_eq_filter :
    primes = (List.range 312).filter (fun p => Nat.Prime p) := by
  decide +kernel

/-- Deciding the bits `m - 1, …, 0` closes the gap between a root known up
to `2^m` and the exact integer root. -/
theorem rootFloor_bits (k n : Nat) :
    ∀ (m c : Nat), c ^ k ≤ n → n < (c + 2 ^ m) ^ k →
      ((List.range m).foldr
          (fun b c => if (c + 2 ^ b) ^ k ≤ n then c + 2 ^ b else c) c) ^ k ≤ n
      ∧ n < ((List.range m).foldr
          (fun b c => if (c + 2 ^ b) ^ k ≤ n then c + 2 ^ b else c) c + 1) ^ k := by
  intro m
  induction m with
  | zero =>
      intro c hlo hhi
      exact ⟨hlo, by simpa using hhi⟩
  | succ m ih =>
      intro c hlo hhi
      rw [List.range_succ, List.foldr_append, List.foldr_cons, List.foldr_nil]
      by_cases hbit : (c + 2 ^ m) ^ k ≤ n
      · rw [if_pos hbit]
        refine ih (c + 2 ^ m) hbit ?_
        rwa [show c + 2 ^ m + 2 ^ m = c + 2 ^ (m + 1) from by ring]
      · rw [if_neg hbit]
        exact ih c hlo (Nat.lt_of_not_le hbit)

/-- **`rootFloor` is the integer root** of everything below forty bits of
root. -/
theorem rootFloor_spec (k n : Nat) (hk : 0 < k) (hn : n < (2 ^ 40) ^ k) :
    rootFloor k n ^ k ≤ n ∧ n < (rootFloor k n + 1) ^ k := by
  refine rootFloor_bits k n 40 0 ?_ ?_
  · rw [Nat.zero_pow hk]
    exact Nat.zero_le n
  · rwa [Nat.zero_add]

/-! ## §2. Functions and the message schedule. -/

/-- `Ch(x, y, z)`. -/
def Ch (x y z : Word) : Word := (x &&& y) ^^^ (~~~x &&& z)

/-- `Maj(x, y, z)`. -/
def Maj (x y z : Word) : Word := (x &&& y) ^^^ (x &&& z) ^^^ (y &&& z)

/-- `Σ₀`. -/
def bigSigma0 (x : Word) : Word :=
  x.rotateRight 2 ^^^ x.rotateRight 13 ^^^ x.rotateRight 22

/-- `Σ₁`. -/
def bigSigma1 (x : Word) : Word :=
  x.rotateRight 6 ^^^ x.rotateRight 11 ^^^ x.rotateRight 25

/-- `σ₀`. -/
def smallSigma0 (x : Word) : Word :=
  x.rotateRight 7 ^^^ x.rotateRight 18 ^^^ x >>> 3

/-- `σ₁`. -/
def smallSigma1 (x : Word) : Word :=
  x.rotateRight 17 ^^^ x.rotateRight 19 ^^^ x >>> 10

/-- Word `t` of a block of bytes, big-endian. -/
def beWord (M : List UInt8) (t : Nat) : Word :=
  (M.getD (4 * t) 0).toBitVec ++ (M.getD (4 * t + 1) 0).toBitVec
    ++ (M.getD (4 * t + 2) 0).toBitVec ++ (M.getD (4 * t + 3) 0).toBitVec

/-- The message schedule `W_t` of a block. -/
def schedule (M : List UInt8) (t : Nat) : Word :=
  if t < 16 then beWord M t
  else smallSigma1 (schedule M (t - 2)) + schedule M (t - 7)
    + smallSigma0 (schedule M (t - 15)) + schedule M (t - 16)
termination_by t

theorem schedule_lt (M : List UInt8) (t : Nat) (ht : t < 16) :
    schedule M t = beWord M t := by
  rw [schedule, if_pos ht]

theorem schedule_add (M : List UInt8) (k : Nat) :
    schedule M (k + 16) = smallSigma1 (schedule M (k + 14)) + schedule M (k + 9)
      + smallSigma0 (schedule M (k + 1)) + schedule M k := by
  rw [schedule, if_neg (by omega)]
  rfl

/-! ## §3. Compression. -/

/-- The working variables. -/
structure Vars where
  (a b c d e f g h : Word)

/-- One round. -/
def round (k w : Word) (v : Vars) : Vars :=
  let T1 := v.h + bigSigma1 v.e + Ch v.e v.f v.g + k + w
  let T2 := bigSigma0 v.a + Maj v.a v.b v.c
  ⟨T1 + T2, v.a, v.b, v.c, v.d + T1, v.e, v.f, v.g⟩

/-- The working variables start as the chaining value. -/
def Vars.load (H : Vector Word 8) : Vars :=
  ⟨H.get 0, H.get 1, H.get 2, H.get 3, H.get 4, H.get 5, H.get 6, H.get 7⟩

/-- The sixty-four rounds. -/
def rounds (M : List UInt8) (v : Vars) : Vars :=
  Nat.fold 64 (fun t _ v => round (K t) (schedule M t) v) v

/-- The working variables are added to the chaining value. -/
def Vars.addTo (v : Vars) (H : Vector Word 8) : Vector Word 8 :=
  #v[v.a + H.get 0, v.b + H.get 1, v.c + H.get 2, v.d + H.get 3,
     v.e + H.get 4, v.f + H.get 5, v.g + H.get 6, v.h + H.get 7]

/-- The compression function on a chaining value and a 64-byte block. -/
def compress (H : Vector Word 8) (M : List UInt8) : Vector Word 8 :=
  (rounds M (Vars.load H)).addTo H

/-! ## §4. Padding and the digest. -/

/-- The `n` big-endian bytes of `x`. -/
def beBytes (n x : Nat) : List UInt8 :=
  (List.range n).map fun i => UInt8.ofNat (x / 256 ^ (n - 1 - i))

/-- Zero bytes between the marker `0x80` and the length. -/
def zeroBytes (n : Nat) : Nat := (119 - n % 64) % 64

/-- The padded message. -/
def pad (m : List UInt8) : List UInt8 :=
  m ++ [0x80] ++ List.replicate (zeroBytes m.length) 0 ++ beBytes 8 (8 * m.length)

/-- **The SHA-256 digest of `m`.** -/
def digest (m : List UInt8) : List UInt8 :=
  ((blocks 64 (pad m)).foldl compress H0).toList.flatMap fun w => beBytes 4 w.toNat

/-- The padding uses the least number of zero bytes that completes a block. -/
theorem zeroBytes_isLeast (n : Nat) :
    IsLeast {k | (n + 1 + k + 8) % 64 = 0} (zeroBytes n) := by
  constructor
  · show (n + 1 + (119 - n % 64) % 64 + 8) % 64 = 0
    omega
  · intro k hk
    have hk : (n + 1 + k + 8) % 64 = 0 := hk
    show (119 - n % 64) % 64 ≤ k
    omega

end ConcurrencyCrypto.Crypto.Fips180
