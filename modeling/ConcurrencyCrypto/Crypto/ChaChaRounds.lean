/-
  ConcurrencyCrypto.Crypto.ChaChaRounds
  ─────────────────────────────────────
  **THE ROUNDS OF `chacha20.c` ARE THOSE OF RFC 8439.**

  `quarter_round` is straight-line code through four pointers
  (`quarter_round_get`), and in each half of the round loop the four calls
  get disjoint pointers: the slots of a column, or of a diagonal, of the
  state matrix.  So each half is one parallel step (`columnRound_get`,
  `diagonalRound_get`), which is what the matrix form says.
-/
import ConcurrencyCrypto.Crypto.ChaCha20
import ConcurrencyCrypto.Crypto.Rfc8439
import ConcurrencyCrypto.Library.Loops
import ConcurrencyCrypto.Library.Slots

namespace ConcurrencyCrypto.Crypto

open ConcurrencyCrypto.Library

/-! ## §1. `quarter_round` as code through pointers. -/

-- the numerals of `Fin 4` take this instance, and no term made up on the spot
theorem neZero_four : NeZero 4 := ⟨by decide⟩

attribute [local instance] neZero_four

/-- The twelve statements; the pointers `a b c d` are numbered 0 to 3. -/
def quarterCode : List (Assign (Fin 4) UInt32) :=
  [⟨0, 1, (· + ·)⟩, ⟨3, 0, (· ^^^ ·)⟩, ⟨3, 0, fun x _ => rotl32 x 16⟩,
   ⟨2, 3, (· + ·)⟩, ⟨1, 2, (· ^^^ ·)⟩, ⟨1, 2, fun x _ => rotl32 x 12⟩,
   ⟨0, 1, (· + ·)⟩, ⟨3, 0, (· ^^^ ·)⟩, ⟨3, 0, fun x _ => rotl32 x 8⟩,
   ⟨2, 3, (· + ·)⟩, ⟨1, 2, (· ^^^ ·)⟩, ⟨1, 2, fun x _ => rotl32 x 7⟩]

/-- **`quarter_round` runs its statements through its pointers.** -/
theorem quarter_round_eq (ws : Vector UInt32 16) (a b c d : Fin 16) :
    quarter_round ws a b c d = storeAll ![a, b, c, d] quarterCode ws := by
  unfold quarter_round quarterCode
  extract_lets w1 w2 w3 w4 w5 w6 w7 w8 w9 w10 w11
  -- the array after each statement keeps its name, or the terms would double every time
  rw [storeAll_cons w1 rfl, storeAll_cons w2 rfl, storeAll_cons w3 rfl, storeAll_cons w4 rfl,
    storeAll_cons w5 rfl, storeAll_cons w6 rfl, storeAll_cons w7 rfl, storeAll_cons w8 rfl,
    storeAll_cons w9 rfl, storeAll_cons w10 rfl, storeAll_cons w11 rfl]
  rfl

/-- What they make of four variables. -/
def quarterWords : (Fin 4 → UInt32) → Fin 4 → UInt32 := runAssigns id quarterCode

/-- Four calls, the pointers being the columns of `e`. -/
def quarterCalls (e : Fin 4 × Fin 4 ≃ Fin 16) (ws : Vector UInt32 16) (p : Fin 4) :
    Vector UInt32 16 :=
  quarter_round ws (e (0, p)) (e (1, p)) (e (2, p)) (e (3, p))

theorem quarterCalls_get (e : Fin 4 × Fin 4 ≃ Fin 16) (ws : Vector UInt32 16) (p : Fin 4) :
    (quarterCalls e ws p).get = onSlots (fun k => e (k, p)) quarterWords ws.get := by
  have hslots : ![e (0, p), e (1, p), e (2, p), e (3, p)] = fun k => e (k, p) := by
    funext k
    fin_cases k <;> rfl
  unfold quarterCalls
  rw [quarter_round_eq, storeAll_get, hslots, run_eq_onSlots (column_injective e p)]
  rfl

/-- **Four calls on disjoint slots are one parallel step.** -/
theorem foldl_quarterCalls_get (e : Fin 4 × Fin 4 ≃ Fin 16) (ws : Vector UInt32 16) :
    ((List.finRange 4).foldl (quarterCalls e) ws).get
      = inParallel e quarterWords ws.get := by
  have hfold : ∀ (ps : List (Fin 4)) (ws : Vector UInt32 16),
      (ps.foldl (quarterCalls e) ws).get
        = ps.foldl (fun v p => onSlots (fun k => e (k, p)) quarterWords v) ws.get := by
    intro ps
    induction ps with
    | nil =>
        intro ws
        rfl
    | cons p ps ih =>
        intro ws
        rw [List.foldl_cons, List.foldl_cons, ih, quarterCalls_get]
  rw [hfold, foldl_onSlots_eq e quarterWords _ (List.nodup_finRange 4) List.mem_finRange]

/-! ## §2. The state as a matrix. -/

/-- Word `c` of row `r` is word `4 * r + c` of the state. -/
def slot : Fin 4 × Fin 4 ≃ Fin 16 := finProdFinEquiv

/-- Diagonal `p` goes one column further in every row. -/
def diagonal : Fin 4 × Fin 4 ≃ Fin 16 :=
  ((Equiv.refl (Fin 4)).prodShear fun r => Equiv.addRight r).trans slot

/-- The round loop's body. -/
theorem doubleRound_eq (ws : Vector UInt32 16) :
    doubleRound ws = (List.finRange 4).foldl (quarterCalls diagonal)
      ((List.finRange 4).foldl (quarterCalls slot) ws) := by
  -- the indices agree whatever routine is called with them
  have hcalls : ∀ Q : Vector UInt32 16 → Fin 16 → Fin 16 → Fin 16 → Fin 16 → Vector UInt32 16,
      Q (Q (Q (Q (Q (Q (Q (Q ws 0 4 8 12) 1 5 9 13) 2 6 10 14) 3 7 11 15)
        0 5 10 15) 1 6 11 12) 2 7 8 13) 3 4 9 14
      = (List.finRange 4).foldl
          (fun ws p => Q ws (diagonal (0, p)) (diagonal (1, p)) (diagonal (2, p)) (diagonal (3, p)))
          ((List.finRange 4).foldl
            (fun ws p => Q ws (slot (0, p)) (slot (1, p)) (slot (2, p)) (slot (3, p))) ws) := by
    intro Q
    rfl
  exact hcalls quarter_round

/-- The C state as the standard's matrix. -/
def matrixOf (v : Fin 16 → UInt32) : Rfc8439.WordMatrix where
  a := Vector.ofFn fun c => v (slot (0, c))
  b := Vector.ofFn fun c => v (slot (1, c))
  c := Vector.ofFn fun c => v (slot (2, c))
  d := Vector.ofFn fun c => v (slot (3, c))

/-- Word `c` of row `r`. -/
def entry (M : Rfc8439.WordMatrix) (r c : Fin 4) : UInt32 :=
  (![M.a, M.b, M.c, M.d] r).get c

theorem entry_matrixOf (v : Fin 16 → UInt32) (r c : Fin 4) :
    entry (matrixOf v) r c = v (slot (r, c)) := by
  fin_cases r <;> exact Vector.getElem_ofFn _

theorem matrix_ext {M N : Rfc8439.WordMatrix} (h : ∀ r c, entry M r c = entry N r c) :
    M = N := by
  have hrow : ∀ x y : Rfc8439.Row, (∀ c, x.get c = y.get c) → x = y :=
    fun x y hxy => Vector.ext fun i hi => hxy ⟨i, hi⟩
  cases M
  cases N
  congr 1
  · exact hrow _ _ (h 0)
  · exact hrow _ _ (h 1)
  · exact hrow _ _ (h 2)
  · exact hrow _ _ (h 3)

/-! ## §3. The two halves of a double round. -/

/-- A column of the matrix. -/
def column (M : Rfc8439.WordMatrix) (c : Fin 4) : Fin 4 → UInt32 := fun r => entry M r c

theorem rotateLeft_eq (x : UInt32) (n : Nat) (h0 : 0 < n) (hn : n < 32) :
    Rfc8439.rotateLeft x n = rotl32 x n :=
  UInt32.toBitVec_inj.mp (rotl32_toBitVec x n h0 hn).symm

section columns
variable (M : Rfc8439.WordMatrix) (c : Fin 4)

theorem column_eq : column M c = ![M.a.get c, M.b.get c, M.c.get c, M.d.get c] := by
  funext r
  fin_cases r <;> rfl

theorem get_addRow (x y : Rfc8439.Row) : (Rfc8439.addRow x y).get c = x.get c + y.get c :=
  Vector.getElem_zipWith ..

theorem get_rotateWords_xorRow (x y : Rfc8439.Row) (n : Nat) (h0 : 0 < n) (hn : n < 32) :
    (Rfc8439.rotateWords (Rfc8439.xorRow x y) n).get c = rotl32 (x.get c ^^^ y.get c) n := by
  rw [← rotateLeft_eq _ n h0 hn]
  show (Rfc8439.rotateWords (Rfc8439.xorRow x y) n)[c.val] = _
  unfold Rfc8439.rotateWords Rfc8439.xorRow
  rw [Vector.getElem_map, Vector.getElem_zipWith]
  rfl

/-- The code's four results. -/
theorem quarterWords_eq (x : Fin 4 → UInt32) :
    quarterWords x =
      let a := x 0 + x 1
      let d := rotl32 (x 3 ^^^ a) 16
      let c := x 2 + d
      let b := rotl32 (x 1 ^^^ c) 12
      let a := a + b
      let d := rotl32 (d ^^^ a) 8
      let c := c + d
      ![a, rotl32 (b ^^^ c) 7, c, d] := by
  funext r
  fin_cases r <;> rfl

/-- **The parallel quarter-round is `quarter_round`'s code on every column.** -/
theorem column_quarterRounds :
    column (Rfc8439.quarterRounds M) c = quarterWords (column M c) := by
  rw [quarterWords_eq, column_eq, column_eq]
  unfold Rfc8439.quarterRounds
  simp (disch := decide) only [get_addRow, get_rotateWords_xorRow]
  rfl

theorem get_rotateRow (x : Rfc8439.Row) (k : Fin 4) :
    (Rfc8439.rotateRow x k).get c = x.get (c + k) :=
  Vector.getElem_ofFn _

theorem entry_rotateRows (r : Fin 4) :
    entry (Rfc8439.rotateRows M) r c = entry M r (c + r) := by
  fin_cases r
  · show M.a.get c = M.a.get (c + 0)
    rw [add_zero]
  · exact get_rotateRow c M.b 1
  · exact get_rotateRow c M.c 2
  · exact get_rotateRow c M.d 3

theorem entry_rotateRowsBack (r : Fin 4) :
    entry (Rfc8439.rotateRowsBack M) r c = entry M r (c - r) := by
  fin_cases r
  · show M.a.get c = M.a.get (c - 0)
    rw [sub_zero]
  · exact (get_rotateRow c M.b (-1)).trans (congrArg M.b.get (sub_eq_add_neg c 1).symm)
  · exact (get_rotateRow c M.c (-2)).trans (congrArg M.c.get (sub_eq_add_neg c 2).symm)
  · exact (get_rotateRow c M.d (-3)).trans (congrArg M.d.get (sub_eq_add_neg c 3).symm)

end columns

/-- **The column calls.** -/
theorem matrixOf_columnRound (v : Fin 16 → UInt32) :
    matrixOf (inParallel slot quarterWords v) = Rfc8439.quarterRounds (matrixOf v) := by
  apply matrix_ext
  intro r c
  have hcolumn : column (matrixOf v) c = fun k => v (slot (k, c)) := by
    funext k
    exact entry_matrixOf v k c
  calc entry (matrixOf (inParallel slot quarterWords v)) r c
      = quarterWords (fun k => v (slot (k, c))) r := by
        rw [entry_matrixOf, inParallel_apply]
    _ = quarterWords (column (matrixOf v) c) r := by rw [hcolumn]
    _ = entry (Rfc8439.quarterRounds (matrixOf v)) r c := by
        rw [← column_quarterRounds]
        rfl

theorem diagonal_apply (r p : Fin 4) : diagonal (r, p) = slot (r, p + r) := rfl

/-- **The diagonal calls**: columns of the matrix with its rows rotated. -/
theorem matrixOf_diagonalRound (v : Fin 16 → UInt32) :
    matrixOf (inParallel diagonal quarterWords v)
      = Rfc8439.rotateRowsBack (Rfc8439.quarterRounds (Rfc8439.rotateRows (matrixOf v))) := by
  apply matrix_ext
  intro r c
  have hslot : slot (r, c) = diagonal (r, c - r) := by
    rw [diagonal_apply, sub_add_cancel]
  have hcolumn : column (Rfc8439.rotateRows (matrixOf v)) (c - r)
      = fun k => v (diagonal (k, c - r)) := by
    funext k
    show entry (Rfc8439.rotateRows (matrixOf v)) k (c - r) = _
    rw [entry_rotateRows, entry_matrixOf, diagonal_apply]
  calc entry (matrixOf (inParallel diagonal quarterWords v)) r c
      = quarterWords (fun k => v (diagonal (k, c - r))) r := by
        rw [entry_matrixOf, hslot, inParallel_apply]
    _ = quarterWords (column (Rfc8439.rotateRows (matrixOf v)) (c - r)) r := by rw [hcolumn]
    _ = entry (Rfc8439.quarterRounds (Rfc8439.rotateRows (matrixOf v))) r (c - r) := by
        rw [← column_quarterRounds]
        rfl
    _ = _ := (entry_rotateRowsBack _ c r).symm

/-- **One iteration of the round loop is one double round.** -/
theorem matrixOf_doubleRound (ws : Vector UInt32 16) :
    matrixOf (doubleRound ws).get = Rfc8439.doubleRound (matrixOf ws.get) := by
  rw [doubleRound_eq, foldl_quarterCalls_get, foldl_quarterCalls_get, matrixOf_diagonalRound,
    matrixOf_columnRound]
  rfl

/-! ## §4. The loops. -/

/-- The round loop iterates its body. -/
theorem chachaRounds_eq (ws : Vector UInt32 16) : chachaRounds ws = doubleRound^[10] ws :=
  fold_const doubleRound 10 ws

theorem matrixOf_chachaRounds (ws : Vector UInt32 16) :
    matrixOf (chachaRounds ws).get = Rfc8439.doubleRound^[10] (matrixOf ws.get) := by
  rw [chachaRounds_eq]
  exact Function.Semiconj.iterate_right (f := fun ws : Vector UInt32 16 => matrixOf ws.get)
    matrixOf_doubleRound 10 ws

theorem addState_get (state ws : Vector UInt32 16) (i : Fin 16) :
    (addState state ws).get i = ws.get i + state.get i :=
  (fold_set_own 16 (Nat.le_refl 16) (fun i hi x => x + state[i]) ws i.val i.isLt).trans
    (dif_pos i.isLt)

/-- The feed-forward is word-wise. -/
theorem matrixOf_addState (state ws : Vector UInt32 16) :
    matrixOf (addState state ws).get
      = Rfc8439.addMatrix (matrixOf ws.get) (matrixOf state.get) := by
  have hrow : ∀ r, Vector.ofFn (fun c => (addState state ws).get (slot (r, c)))
      = Rfc8439.addRow (Vector.ofFn fun c => ws.get (slot (r, c)))
          (Vector.ofFn fun c => state.get (slot (r, c))) := by
    intro r
    apply Vector.ext
    intro c hc
    show _ = (Rfc8439.addRow _ _).get ⟨c, hc⟩
    rw [get_addRow, Vector.getElem_ofFn, addState_get, Vector.get_ofFn, Vector.get_ofFn]
  unfold matrixOf Rfc8439.addMatrix
  rw [hrow, hrow, hrow, hrow]

end ConcurrencyCrypto.Crypto
