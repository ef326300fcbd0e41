/-
  ConcurrencyCrypto.Crypto.Sha256Transform
  ────────────────────────────────────────
  **`sha256_transform` IS THE FIPS COMPRESSION FUNCTION.**

  The C function works on `uint32_t` words and a 64-entry array it fills in
  two loops; the reference works on 32-bit vectors and a recurrence.  The
  file goes through it loop by loop:

    • the copied constants are the ones the standard defines,
    • `transformLoad` / `transformExpand` leave `W_t` in `w[t]`,
    • one round of the loop is one round of the reference,

  and ends in `words_transform`, the only fact later files use.
-/
import ConcurrencyCrypto.Crypto.Fips180
import ConcurrencyCrypto.Crypto.Sha256

namespace ConcurrencyCrypto.Crypto

open ConcurrencyCrypto.Library
open Fips180 (Word)

/-- The chaining value a C state stands for. -/
def words (s : Vector UInt32 8) : Vector Word 8 := s.map UInt32.toBitVec

/-! ## §1. The constants. -/

/-- The 64 copied round constants are the standard's. -/
theorem SHA256_K_toBitVec :
    ∀ i (hi : i < 64), SHA256_K[i].toBitVec = Fips180.K i := by
  decide +kernel

/-- The copied initial state is the standard's. -/
theorem words_init (c : Sha256Ctx) : words (sha256_init c).state = Fips180.H0 := by
  show words #v[0x6a09e667, 0xbb67ae85, 0x3c6ef372, 0xa54ff53a,
                0x510e527f, 0x9b05688c, 0x1f83d9ab, 0x5be0cd19] = Fips180.H0
  decide +kernel

/-! ## §2. The message schedule. -/

/-- Four bytes shifted together are their concatenation. -/
theorem load32_be_toBitVec (a b c d : UInt8) :
    ((a.toUInt32 <<< 24) ||| (b.toUInt32 <<< 16) ||| (c.toUInt32 <<< 8)
        ||| d.toUInt32).toBitVec
      = a.toBitVec ++ b.toBitVec ++ c.toBitVec ++ d.toBitVec := by
  apply BitVec.eq_of_getLsbD_eq
  intro i hi
  simp only [UInt32.toBitVec_or, UInt32.toBitVec_shiftLeft,
    UInt8.toBitVec_toUInt32, BitVec.getLsbD_or, BitVec.getLsbD_append]
  simp
  grind

/-- The load loop leaves the block's words in the first sixteen entries. -/
theorem transformLoad_getElem (block : Vector UInt8 64) (w : Vector UInt32 64)
    (i : Nat) (hi : i < 64) (hi16 : i < 16) :
    (transformLoad block w)[i].toBitVec
      = Fips180.beWord block.toList i := by
  unfold transformLoad
  rw [fold_set 16 (by omega)
        (fun i _ => (block[i * 4 + 0].toUInt32 <<< 24)
          ||| (block[i * 4 + 1].toUInt32 <<< 16)
          ||| (block[i * 4 + 2].toUInt32 <<< 8) ||| block[i * 4 + 3].toUInt32)
        w i hi,
      dif_pos hi16, load32_be_toBitVec]
  have hget : ∀ k (hk : k < 64), block.toList.getD k 0 = block[k] := by
    intro k hk
    simp [List.getD_eq_getElem?_getD, hk]
  unfold Fips180.beWord
  rw [hget (4 * i) (by omega), hget (4 * i + 1) (by omega),
      hget (4 * i + 2) (by omega), hget (4 * i + 3) (by omega)]
  simp only [Nat.mul_comm i 4, Nat.add_zero]

theorem smallSigma0_toBitVec (x : UInt32) :
    (rotr32 x 7 ^^^ rotr32 x 18 ^^^ x >>> 3).toBitVec
      = Fips180.smallSigma0 x.toBitVec := by
  rw [UInt32.toBitVec_xor, UInt32.toBitVec_xor,
      rotr32_toBitVec x 7 (by decide) (by decide),
      rotr32_toBitVec x 18 (by decide) (by decide),
      show (x >>> 3).toBitVec = x.toBitVec >>> 3 from
        toBitVec_shiftRight x 3 (by decide)]
  rfl

theorem smallSigma1_toBitVec (x : UInt32) :
    (rotr32 x 17 ^^^ rotr32 x 19 ^^^ x >>> 10).toBitVec
      = Fips180.smallSigma1 x.toBitVec := by
  rw [UInt32.toBitVec_xor, UInt32.toBitVec_xor,
      rotr32_toBitVec x 17 (by decide) (by decide),
      rotr32_toBitVec x 19 (by decide) (by decide),
      show (x >>> 10).toBitVec = x.toBitVec >>> 10 from
        toBitVec_shiftRight x 10 (by decide)]
  rfl

/-- **The expand loop computes the recurrence.** -/
theorem transformExpand_getElem (M : List UInt8) (w : Vector UInt32 64)
    (hw : ∀ i (hi : i < 64), i < 16 → w[i].toBitVec = Fips180.beWord M i)
    (i : Nat) (hi : i < 64) :
    (transformExpand w)[i].toBitVec = Fips180.schedule M i := by
  -- after `k` iterations the first `k + 16` entries are the schedule
  refine fold_invariant
    (fun k w => ∀ i (hi : i < 64), i < k + 16 →
      w[i].toBitVec = Fips180.schedule M i) 48 _ w ?_ ?_ i hi (by omega)
  · intro i hi hlt
    rw [hw i hi (by omega), Fips180.schedule_lt M i (by omega)]
  · intro k hk v ih i hi hlt
    dsimp only
    rw [Vector.getElem_set]
    by_cases hik : k + 16 = i
    · -- the entry written in this iteration
      subst hik
      rw [if_pos rfl, UInt32.toBitVec_add, UInt32.toBitVec_add, UInt32.toBitVec_add,
          smallSigma0_toBitVec, smallSigma1_toBitVec, ih k (by omega) (by omega),
          ih (k + 1) (by omega) (by omega), ih (k + 9) (by omega) (by omega),
          ih (k + 14) (by omega) (by omega), Fips180.schedule_add]
      ac_rfl
    · rw [if_neg hik]
      exact ih i hi (by omega)

/-! ## §3. The rounds. -/

/-- The working variables a C round works on, as words. -/
def Work.words (v : Work) : Fips180.Vars :=
  ⟨v.a.toBitVec, v.b.toBitVec, v.cc.toBitVec, v.d.toBitVec,
   v.e.toBitVec, v.f.toBitVec, v.g.toBitVec, v.h.toBitVec⟩

theorem bigSigma0_toBitVec (x : UInt32) :
    (rotr32 x 2 ^^^ rotr32 x 13 ^^^ rotr32 x 22).toBitVec
      = Fips180.bigSigma0 x.toBitVec := by
  rw [UInt32.toBitVec_xor, UInt32.toBitVec_xor,
      rotr32_toBitVec x 2 (by decide) (by decide),
      rotr32_toBitVec x 13 (by decide) (by decide),
      rotr32_toBitVec x 22 (by decide) (by decide)]
  rfl

theorem bigSigma1_toBitVec (x : UInt32) :
    (rotr32 x 6 ^^^ rotr32 x 11 ^^^ rotr32 x 25).toBitVec
      = Fips180.bigSigma1 x.toBitVec := by
  rw [UInt32.toBitVec_xor, UInt32.toBitVec_xor,
      rotr32_toBitVec x 6 (by decide) (by decide),
      rotr32_toBitVec x 11 (by decide) (by decide),
      rotr32_toBitVec x 25 (by decide) (by decide)]
  rfl

/-- One round of the C loop is one round of the reference. -/
theorem words_transformRound (k w : UInt32) (v : Work) :
    (transformRound k w v).words = Fips180.round k.toBitVec w.toBitVec v.words := by
  simp only [transformRound, Work.words, Fips180.round, UInt32.toBitVec_add,
    bigSigma0_toBitVec, bigSigma1_toBitVec]
  simp only [UInt32.toBitVec_xor, UInt32.toBitVec_and, UInt32.toBitVec_not,
    Fips180.Ch, Fips180.Maj]

/-- The round loop, on an array that holds the schedule. -/
theorem words_transformRounds (M : List UInt8) (w : Vector UInt32 64)
    (hw : ∀ i (hi : i < 64), w[i].toBitVec = Fips180.schedule M i) (v : Work) :
    (transformRounds w v).words = Fips180.rounds M v.words := by
  refine fold_map Work.words 64 _ _ ?_ v
  intro i hi u
  rw [words_transformRound, SHA256_K_toBitVec i hi, hw i hi]

/-! ## §4. The compression function. -/

theorem words_get (s : Vector UInt32 8) (i : Fin 8) :
    (words s).get i = (s.get i).toBitVec := by
  show (s.map UInt32.toBitVec)[i.val] = s[i.val].toBitVec
  rw [Vector.getElem_map]

theorem words_load (s : Vector UInt32 8) :
    (Work.load s).words = Fips180.Vars.load (words s) := by
  simp only [Work.words, Fips180.Vars.load, words_get]
  rfl

theorem words_feedForward (v : Work) (s : Vector UInt32 8) :
    words (v.feedForward s) = v.words.addTo (words s) := by
  simp only [Fips180.Vars.addTo, Work.words, words_get]
  simp only [Work.feedForward, words, Vector.map_mk, List.map_toArray, List.map_cons,
    List.map_nil, UInt32.toBitVec_add, BitVec.add_comm]
  rfl

/-- **`sha256_transform` computes the FIPS compression function.** -/
theorem words_transform (c : Sha256Ctx) (block : Vector UInt8 64) :
    words (sha256_transform c block).state
      = Fips180.compress (words c.state) block.toList := by
  show words ((transformRounds _ (Work.load c.state)).feedForward c.state) = _
  rw [words_feedForward,
      words_transformRounds block.toList _
        (transformExpand_getElem block.toList _
          (transformLoad_getElem block _)), words_load]
  rfl

end ConcurrencyCrypto.Crypto
