/-
  ConcurrencyCrypto.Crypto.ChaChaBlock
  ────────────────────────────────────
  **`chacha20_block` IS THE BLOCK FUNCTION OF RFC 8439.**

  The rounds are those of `ChaChaRounds`; what is left are the loads in
  front of them and the stores behind them.
-/
import ConcurrencyCrypto.Crypto.ChaChaRounds
import ConcurrencyCrypto.Library.BlockStream

namespace ConcurrencyCrypto.Crypto

open ConcurrencyCrypto.Library

/-! ## §1. Loads and stores. -/

/-- Four bytes shifted together are their concatenation. -/
theorem load32_le_toBitVec (p0 p1 p2 p3 : UInt8) :
    (load32_le p0 p1 p2 p3).toBitVec
      = p3.toBitVec ++ p2.toBitVec ++ p1.toBitVec ++ p0.toBitVec := by
  apply BitVec.eq_of_getLsbD_eq
  intro i hi
  unfold load32_le
  simp only [UInt32.toBitVec_or, UInt32.toBitVec_shiftLeft,
    UInt8.toBitVec_toUInt32, BitVec.getLsbD_or, BitVec.getLsbD_append]
  simp
  grind

/-- The four bytes the output loop takes from a word. -/
def leByte (x : UInt32) : Fin 4 → UInt8
  | 0 => x.toUInt8
  | 1 => (x >>> 8).toUInt8
  | 2 => (x >>> 16).toUInt8
  | 3 => (x >>> 24).toUInt8

/-- **Loading what was stored.** -/
theorem load32_le_leByte (x : UInt32) :
    load32_le (leByte x 0) (leByte x 1) (leByte x 2) (leByte x 3) = x := by
  apply UInt32.toBitVec_inj.mp
  apply BitVec.eq_of_getLsbD_eq
  intro i hi
  rw [load32_le_toBitVec]
  simp only [leByte, BitVec.getLsbD_append, UInt32.toBitVec_toUInt8, UInt32.toBitVec_shiftRight]
  simp
  grind

/-- **Storing what was loaded.** -/
theorem leByte_load32_le (p : Fin 4 → UInt8) (k : Fin 4) :
    leByte (load32_le (p 0) (p 1) (p 2) (p 3)) k = p k := by
  apply UInt8.toBitVec_inj.mp
  apply BitVec.eq_of_getLsbD_eq
  intro i hi
  fin_cases k <;>
  · simp only [leByte, UInt32.toBitVec_toUInt8, UInt32.toBitVec_shiftRight,
      load32_le_toBitVec]
    simp
    grind

theorem serializeWords_get (ws : Vector UInt32 16) (j : Nat) (hj : j < 64) :
    (serializeWords ws)[j]
      = leByte (ws.get ⟨j / 4, by omega⟩) ⟨j % 4, Nat.mod_lt j (by decide)⟩ :=
  (fold_set_four 16 (by decide) (fun i hi => leByte ws[i])
    (Vector.replicate 64 0) j hj).trans (dif_pos (by omega))

theorem leBytes_getElem? (x : UInt32) (k : Fin 4) :
    (Rfc8439.leBytes x)[k.val]? = some (leByte x k) := by
  have hshift : ∀ n : UInt32, n.toNat < 32 →
      UInt8.ofNat (x.toNat / 2 ^ n.toNat) = (x >>> n).toUInt8 := by
    intro n hn
    apply UInt8.toNat_inj.mp
    simp only [UInt32.toNat_toUInt8, UInt32.toNat_shiftRight, UInt8.toNat_ofNat',
      Nat.shiftRight_eq_div_pow, Nat.mod_eq_of_lt hn]
  unfold Rfc8439.leBytes
  rw [List.getElem?_map, List.getElem?_range k.isLt, Option.map_some]
  apply congrArg some
  fin_cases k
  · apply UInt8.toNat_inj.mp
    simp [leByte]
  · exact hshift 8 (by decide)
  · exact hshift 16 (by decide)
  · exact hshift 24 (by decide)

/-- The output loop writes the words little-endian. -/
theorem serializeWords_eq (ws : Vector UInt32 16) :
    (serializeWords ws).toList = ws.toList.flatMap Rfc8439.leBytes := by
  -- four bytes a word, so byte `j` is byte `j % 4` of word `j / 4`
  have hbytes : ∀ b ∈ ws.toList.map Rfc8439.leBytes, b.length = 4 := by
    intro b hb
    obtain ⟨w, -, rfl⟩ := List.mem_map.mp hb
    simp [Rfc8439.leBytes]
  apply List.ext_getElem?
  intro j
  rw [List.flatMap_def, getElem?_flatten_of_forall (by decide) _ hbytes]
  by_cases hj : j < 64
  · have hj4 : j / 4 < 16 := by omega
    have hleft : (serializeWords ws).toList[j]? = some (serializeWords ws)[j] := by
      simp [hj]
    have hright : (ws.toList.map Rfc8439.leBytes)[j / 4]?
        = some (Rfc8439.leBytes (ws.get ⟨j / 4, hj4⟩)) := by
      simp [hj4, Vector.get_eq_getElem]
    rw [hleft, hright, serializeWords_get ws j hj, Option.bind_some]
    exact (leBytes_getElem? _ ⟨j % 4, Nat.mod_lt j (by decide)⟩).symm
  · rw [List.getElem?_eq_none (by simp; omega), List.getElem?_eq_none (by simp; omega)]
    rfl

/-! ## §2. The initial state. -/

theorem getD_toList {n : Nat} (v : Vector UInt8 n) (i : Nat) (hi : i < n) :
    v.toList.getD i 0 = v.get ⟨i, hi⟩ := by
  rw [List.getD_eq_getElem _ _ (by rwa [Vector.length_toList]), Vector.getElem_toList]
  rfl

/-- A word of the standard is a load of the code. -/
theorem leWord_eq {n : Nat} (v : Vector UInt8 n) (i : Nat) (hi : 4 * i + 3 < n) :
    Rfc8439.leWord v.toList i
      = load32_le (v.get ⟨4 * i, by omega⟩) (v.get ⟨4 * i + 1, by omega⟩)
          (v.get ⟨4 * i + 2, by omega⟩) (v.get ⟨4 * i + 3, hi⟩) := by
  apply UInt32.toBitVec_inj.mp
  rw [load32_le_toBitVec]
  unfold Rfc8439.leWord
  rw [getD_toList v _ hi, getD_toList v (4 * i + 2) (by omega),
    getD_toList v (4 * i + 1) (by omega), getD_toList v (4 * i) (by omega)]

theorem matrixOf_initialState (key : Vector UInt8 32) (nonce : Vector UInt8 12)
    (counter : UInt32) :
    matrixOf (initialState key nonce counter).get
      = Rfc8439.initialMatrix key.toList counter nonce.toList := by
  unfold matrixOf Rfc8439.initialMatrix
  congr 1
  · apply congrArg Vector.ofFn
    funext c
    rw [leWord_eq key c (by omega)]
    fin_cases c <;> rfl
  · apply congrArg Vector.ofFn
    funext c
    rw [leWord_eq key (4 + c) (by omega)]
    fin_cases c <;> rfl
  · apply Vector.ext
    intro c hc
    rw [Vector.getElem_ofFn]
    interval_cases c
    · rfl
    · exact (leWord_eq nonce 0 (by omega)).symm
    · exact (leWord_eq nonce 1 (by omega)).symm
    · exact (leWord_eq nonce 2 (by omega)).symm

theorem matrixOf_toList (ws : Vector UInt32 16) : (matrixOf ws.get).toList = ws.toList := by
  have hofFn : ws = Vector.ofFn ws.get := Vector.ofFn_getElem.symm
  conv_rhs => rw [hofFn, Vector.toList_ofFn]
  rfl

/-! ## §3. The block function. -/

/-- **The code's block function is the standard's.** -/
theorem chacha20_block_eq (key : Vector UInt8 32) (nonce : Vector UInt8 12)
    (counter : UInt32) :
    (chacha20_block key nonce counter).toList
      = Rfc8439.block key.toList counter nonce.toList := by
  unfold chacha20_block Rfc8439.block Rfc8439.blockMatrix
  rw [serializeWords_eq, ← matrixOf_toList, matrixOf_addState, matrixOf_chachaRounds,
    matrixOf_initialState]

/-- The output read as sixteen words. -/
def readWords (out : Vector UInt8 64) : Vector UInt32 16 :=
  Vector.ofFn fun i => load32_le (out.get ⟨4 * i.val, by omega⟩)
    (out.get ⟨4 * i.val + 1, by omega⟩) (out.get ⟨4 * i.val + 2, by omega⟩)
    (out.get ⟨4 * i.val + 3, by omega⟩)

/-- **The loads recover the words that were stored.** -/
theorem readWords_serializeWords (ws : Vector UInt32 16) :
    readWords (serializeWords ws) = ws := by
  apply Vector.ext
  intro i hi
  have hbyte : ∀ (k : Fin 4) (hk : 4 * i + k.val < 64),
      (serializeWords ws).get ⟨4 * i + k.val, hk⟩ = leByte (ws.get ⟨i, hi⟩) k := by
    intro k hk
    have hdiv : (4 * i + k.val) / 4 = i := by omega
    have hmod : (4 * i + k.val) % 4 = k.val := by omega
    rw [Vector.get_eq_getElem, serializeWords_get ws _ hk]
    simp only [hdiv, hmod]
  unfold readWords
  rw [Vector.getElem_ofFn]
  refine Eq.trans ?_ (load32_le_leByte (ws.get ⟨i, hi⟩))
  exact congr (congr (congrArg₂ load32_le (hbyte 0 _) (hbyte 1 _)) (hbyte 2 _)) (hbyte 3 _)

/-- **THE BLOCK FUNCTION IN ROW-VECTOR FORM.**  Read as sixteen little-endian
words, the output is the standard's matrix: ten double rounds on rows, and the
initial matrix added.  The bytes are the standard's too, and the loads recover
every word the output loop stores. -/
theorem chacha20_block_rows (key : Vector UInt8 32) (nonce : Vector UInt8 12)
    (counter : UInt32) :
    (readWords (chacha20_block key nonce counter)).toList
        = (Rfc8439.blockMatrix key.toList counter nonce.toList).toList ∧
      (chacha20_block key nonce counter).toList
        = Rfc8439.block key.toList counter nonce.toList ∧
      ∀ ws : Vector UInt32 16, readWords (serializeWords ws) = ws := by
  refine ⟨?_, chacha20_block_eq key nonce counter, readWords_serializeWords⟩
  unfold chacha20_block Rfc8439.blockMatrix
  rw [readWords_serializeWords, ← matrixOf_toList, matrixOf_addState, matrixOf_chachaRounds,
    matrixOf_initialState]

end ConcurrencyCrypto.Crypto
