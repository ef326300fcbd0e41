/-
  ConcurrencyCrypto.Crypto.ChaChaInverse
  ──────────────────────────────────────
  **THE TWENTY ROUNDS LOSE NO INFORMATION.**

  Every statement of `quarter_round` can be taken back, so the undoing
  statements in reverse order invert it, the eight calls in reverse order an
  iteration of the round loop, and ten of those the loop.  What
  `chacha20_block` cannot undo is its feed-forward alone.
-/
import ConcurrencyCrypto.Crypto.ChaChaBlock

namespace ConcurrencyCrypto.Crypto

open ConcurrencyCrypto.Library

/-! ## §1. The inverse code. -/

theorem neZero_sixteen : NeZero 16 := ⟨by decide⟩

attribute [local instance] neZero_four neZero_sixteen

/-- The undoing statements, in the order of the statements they undo. -/
def undoCode : List (Assign (Fin 4) UInt32) :=
  [⟨0, 1, (· - ·)⟩, ⟨3, 0, (· ^^^ ·)⟩, ⟨3, 0, fun x _ => rotr32 x 16⟩,
   ⟨2, 3, (· - ·)⟩, ⟨1, 2, (· ^^^ ·)⟩, ⟨1, 2, fun x _ => rotr32 x 12⟩,
   ⟨0, 1, (· - ·)⟩, ⟨3, 0, (· ^^^ ·)⟩, ⟨3, 0, fun x _ => rotr32 x 8⟩,
   ⟨2, 3, (· - ·)⟩, ⟨1, 2, (· ^^^ ·)⟩, ⟨1, 2, fun x _ => rotr32 x 7⟩]

/-- The statements of `quarter_round` taken back, last one first. -/
def inverse_quarter_round (ws : Vector UInt32 16) (a b c d : Fin 16) : Vector UInt32 16 :=
  storeAll ![a, b, c, d] undoCode.reverse ws

/-- The calls of one iteration taken back, last one first. -/
def inverseDoubleRound (ws : Vector UInt32 16) : Vector UInt32 16 :=
  -- diagonals
  let ws := inverse_quarter_round ws 3 4 9 14
  let ws := inverse_quarter_round ws 2 7 8 13
  let ws := inverse_quarter_round ws 1 6 11 12
  let ws := inverse_quarter_round ws 0 5 10 15
  -- columns
  let ws := inverse_quarter_round ws 3 7 11 15
  let ws := inverse_quarter_round ws 2 6 10 14
  let ws := inverse_quarter_round ws 1 5 9 13
  inverse_quarter_round ws 0 4 8 12

/-- The round loop backwards. -/
def inverseRounds (ws : Vector UInt32 16) : Vector UInt32 16 :=
  Nat.fold 10 (fun _ _ ws => inverseDoubleRound ws) ws

/-! ## §2. One quarter-round. -/

theorem undo_add {t s : Fin 4} (h : s ≠ t) :
    Assign.Undoes (⟨t, s, (· - ·)⟩ : Assign (Fin 4) UInt32) ⟨t, s, (· + ·)⟩ :=
  ⟨rfl, rfl, h, fun x y => UInt32.add_sub_cancel x y⟩

theorem undo_sub {t s : Fin 4} (h : s ≠ t) :
    Assign.Undoes (⟨t, s, (· + ·)⟩ : Assign (Fin 4) UInt32) ⟨t, s, (· - ·)⟩ :=
  ⟨rfl, rfl, h, fun x y => UInt32.sub_add_cancel x y⟩

theorem undo_xor {t s : Fin 4} (h : s ≠ t) :
    Assign.Undoes (⟨t, s, (· ^^^ ·)⟩ : Assign (Fin 4) UInt32) ⟨t, s, (· ^^^ ·)⟩ :=
  ⟨rfl, rfl, h, fun x y => by
    show x ^^^ y ^^^ y = x
    rw [UInt32.xor_assoc, UInt32.xor_self, UInt32.xor_zero]⟩

theorem undo_rotl {t s : Fin 4} (h : s ≠ t) (n : Nat) (h0 : 0 < n) (hn : n < 32) :
    Assign.Undoes (⟨t, s, fun x _ => rotr32 x n⟩ : Assign (Fin 4) UInt32)
      ⟨t, s, fun x _ => rotl32 x n⟩ :=
  ⟨rfl, rfl, h, fun x _ => rotr32_rotl32 x n h0 hn⟩

theorem undo_rotr {t s : Fin 4} (h : s ≠ t) (n : Nat) (h0 : 0 < n) (hn : n < 32) :
    Assign.Undoes (⟨t, s, fun x _ => rotl32 x n⟩ : Assign (Fin 4) UInt32)
      ⟨t, s, fun x _ => rotr32 x n⟩ :=
  ⟨rfl, rfl, h, fun x _ => rotl32_rotr32 x n h0 hn⟩

/-- Statement by statement, `undoCode` takes back `quarterCode`. -/
theorem undoCode_undoes : List.Forall₂ Assign.Undoes undoCode quarterCode := by
  unfold undoCode quarterCode
  simp only [List.forall₂_cons, List.forall₂_nil_left_iff, and_true]
  refine ⟨undo_add ?_, undo_xor ?_, undo_rotl ?_ 16 ?_ ?_, undo_add ?_, undo_xor ?_,
    undo_rotl ?_ 12 ?_ ?_, undo_add ?_, undo_xor ?_, undo_rotl ?_ 8 ?_ ?_, undo_add ?_,
    undo_xor ?_, undo_rotl ?_ 7 ?_ ?_⟩ <;> decide

/-- And the other way round. -/
theorem quarterCode_undoes : List.Forall₂ Assign.Undoes quarterCode undoCode := by
  unfold undoCode quarterCode
  simp only [List.forall₂_cons, List.forall₂_nil_left_iff, and_true]
  refine ⟨undo_sub ?_, undo_xor ?_, undo_rotr ?_ 16 ?_ ?_, undo_sub ?_, undo_xor ?_,
    undo_rotr ?_ 12 ?_ ?_, undo_sub ?_, undo_xor ?_, undo_rotr ?_ 8 ?_ ?_, undo_sub ?_,
    undo_xor ?_, undo_rotr ?_ 7 ?_ ?_⟩ <;> decide

section quarter
variable {a b c d : Fin 16}

/-- **Four different words: the inverse code undoes the quarter-round.** -/
theorem inverse_quarter_round_quarter_round (h : Function.Injective ![a, b, c, d])
    (ws : Vector UInt32 16) :
    inverse_quarter_round (quarter_round ws a b c d) a b c d = ws := by
  rw [quarter_round_eq, inverse_quarter_round]
  exact storeAll_undo h undoCode_undoes ws

theorem quarter_round_inverse_quarter_round (h : Function.Injective ![a, b, c, d])
    (ws : Vector UInt32 16) :
    quarter_round (inverse_quarter_round ws a b c d) a b c d = ws := by
  rw [quarter_round_eq, inverse_quarter_round]
  have hundo := storeAll_undo h (List.rel_reverse quarterCode_undoes)
  rw [List.reverse_reverse] at hundo
  exact hundo ws

end quarter

/-! ## §3. The round loop. -/

theorem inverseDoubleRound_doubleRound :
    Function.LeftInverse inverseDoubleRound doubleRound := by
  intro ws
  unfold inverseDoubleRound doubleRound
  simp (disch := decide) only [inverse_quarter_round_quarter_round]

theorem doubleRound_inverseDoubleRound :
    Function.LeftInverse doubleRound inverseDoubleRound := by
  intro ws
  unfold inverseDoubleRound doubleRound
  simp (disch := decide) only [quarter_round_inverse_quarter_round]

theorem inverseRounds_chachaRounds : Function.LeftInverse inverseRounds chachaRounds := by
  intro ws
  rw [chachaRounds_eq]
  exact (fold_const inverseDoubleRound 10 _).trans
    (inverseDoubleRound_doubleRound.iterate 10 ws)

theorem chachaRounds_inverseRounds : Function.LeftInverse chachaRounds inverseRounds := by
  intro ws
  rw [chachaRounds_eq]
  exact (congrArg _ (fold_const inverseDoubleRound 10 ws)).trans
    (doubleRound_inverseDoubleRound.iterate 10 ws)

/-! ## §4. The initial state. -/

/-- The bytes of a word are recovered from it. -/
theorem leByte_leWord (bytes : List UInt8) (i : Nat) (k : Fin 4) :
    leByte (Rfc8439.leWord bytes i) k = bytes.getD (4 * i + k.val) 0 := by
  have hload : Rfc8439.leWord bytes i
      = load32_le (bytes.getD (4 * i) 0) (bytes.getD (4 * i + 1) 0)
          (bytes.getD (4 * i + 2) 0) (bytes.getD (4 * i + 3) 0) :=
    UInt32.toBitVec_inj.mp (load32_le_toBitVec _ _ _ _).symm
  rw [hload]
  exact leByte_load32_le (fun k => bytes.getD (4 * i + k.val) 0) k

/-- Byte strings of `n` words with the same words are equal. -/
theorem eq_of_leWord_eq {n : Nat} {v v' : Vector UInt8 (4 * n)}
    (h : ∀ i < n, Rfc8439.leWord v.toList i = Rfc8439.leWord v'.toList i) : v = v' := by
  apply Vector.ext
  intro j hj
  have hword := congrArg (fun x => leByte x ⟨j % 4, Nat.mod_lt j (by decide)⟩)
    (h (j / 4) (by omega))
  rw [leByte_leWord, leByte_leWord, Nat.div_add_mod, getD_toList v j hj, getD_toList v' j hj]
    at hword
  exact hword

/-- **Key, nonce and counter can be read off the initial state.** -/
theorem initialState_injective {key key' : Vector UInt8 32} {nonce nonce' : Vector UInt8 12}
    {counter counter' : UInt32}
    (h : initialState key nonce counter = initialState key' nonce' counter') :
    key = key' ∧ nonce = nonce' ∧ counter = counter' := by
  have hmatrix := congrArg (fun ws : Vector UInt32 16 => matrixOf ws.get) h
  rw [matrixOf_initialState, matrixOf_initialState] at hmatrix
  have hentry : ∀ r c, entry (Rfc8439.initialMatrix key.toList counter nonce.toList) r c
      = entry (Rfc8439.initialMatrix key'.toList counter' nonce'.toList) r c := by
    intro r c
    rw [hmatrix]
  refine ⟨?_, ?_, hentry 3 0⟩
  · refine eq_of_leWord_eq (n := 8) ?_
    intro i hi
    -- row 1, then row 2
    interval_cases i
    · exact hentry 1 0
    · exact hentry 1 1
    · exact hentry 1 2
    · exact hentry 1 3
    · exact hentry 2 0
    · exact hentry 2 1
    · exact hentry 2 2
    · exact hentry 2 3
  · refine eq_of_leWord_eq (n := 3) ?_
    intro i hi
    interval_cases i
    · exact hentry 3 1
    · exact hentry 3 2
    · exact hentry 3 3

/-- **THE ROUNDS ARE A BIJECTION** on the 2^512 states, with the explicit inverse
above; so different keys, nonces or counters give different mixed states. -/
theorem chachaRounds_bijective :
    (∀ ws, inverseRounds (chachaRounds ws) = ws) ∧
      (∀ ws, chachaRounds (inverseRounds ws) = ws) ∧
      Function.Bijective chachaRounds ∧
      ∀ (key key' : Vector UInt8 32) (nonce nonce' : Vector UInt8 12)
        (counter counter' : UInt32),
        (key, nonce, counter) ≠ (key', nonce', counter') →
        chachaRounds (initialState key nonce counter)
          ≠ chachaRounds (initialState key' nonce' counter') := by
  refine ⟨inverseRounds_chachaRounds, chachaRounds_inverseRounds,
    ⟨inverseRounds_chachaRounds.injective, chachaRounds_inverseRounds.surjective⟩, ?_⟩
  intro key key' nonce nonce' counter counter' hne hmixed
  obtain ⟨rfl, rfl, rfl⟩ :=
    initialState_injective (inverseRounds_chachaRounds.injective hmixed)
  exact hne rfl

end ConcurrencyCrypto.Crypto
