/-
  ConcurrencyCrypto.Library.Loops
  ───────────────────────────────
  **COUNTED LOOPS AND FIXED ARRAYS.**

  A C loop `for (i = 0; i < n; i++) body` is `Nat.fold n body`.  This file
  has the rules such a loop is reasoned with:

    • `fold_invariant` — an indexed invariant, established at `0` and carried
      by every iteration, holds at `n`;
    • `fold_map` — two loops whose bodies commute with an abstraction `φ`
      commute with it as a whole;
    • `fold_set` — the loop `a[i] = v(i)` writes exactly the first `n` cells;

  and `blit`, the copy of a run of bytes into an array at an offset.
-/
import Mathlib

namespace ConcurrencyCrypto.Library

variable {σ τ α : Type*}

/-! ## §1. Loop rules. -/

/-- **The invariant rule of a counted loop.** -/
theorem fold_invariant (P : Nat → σ → Prop) (n : Nat)
    (body : (i : Nat) → i < n → σ → σ) (s : σ) (h0 : P 0 s)
    (hstep : ∀ i (hi : i < n) t, P i t → P (i + 1) (body i hi t)) :
    P n (Nat.fold n body s) := by
  induction n with
  | zero => simpa using h0
  | succ n ih =>
      rw [Nat.fold_succ]
      exact hstep n (Nat.lt_succ_self n) _
        (ih (fun i hi => body i (Nat.lt_succ_of_lt hi))
          (fun i hi t ht => hstep i (Nat.lt_succ_of_lt hi) t ht))

/-- **Simulation of a counted loop** through an abstraction `φ`. -/
theorem fold_map (φ : σ → τ) (n : Nat)
    (f : (i : Nat) → i < n → σ → σ) (g : (i : Nat) → i < n → τ → τ)
    (h : ∀ i (hi : i < n) s, φ (f i hi s) = g i hi (φ s)) (s : σ) :
    φ (Nat.fold n f s) = Nat.fold n g (φ s) := by
  induction n with
  | zero => simp
  | succ n ih =>
      rw [Nat.fold_succ, Nat.fold_succ, h n (Nat.lt_succ_self n),
          ih _ _ (fun i hi t => h i (Nat.lt_succ_of_lt hi) t)]

/-- A loop whose body ignores the counter iterates its body. -/
theorem fold_const (f : σ → σ) (n : Nat) (s : σ) : Nat.fold n (fun _ _ => f) s = f^[n] s := by
  induction n with
  | zero => rfl
  | succ n ih => rw [Nat.fold_succ, ih, Function.iterate_succ_apply']

/-- The loop `a[i] = v(i)` writes exactly the first `n` cells. -/
theorem fold_set {N : Nat} (n : Nat) (hn : n ≤ N) (v : (i : Nat) → i < n → α)
    (a : Vector α N) (j : Nat) (hj : j < N) :
    (Nat.fold n (fun i hi b => b.set i (v i hi) (Nat.lt_of_lt_of_le hi hn)) a)[j]
      = if h : j < n then v j h else a[j] := by
  induction n with
  | zero => simp
  | succ n ih =>
      rw [Nat.fold_succ, Vector.getElem_set]
      by_cases hjn : n = j
      · subst hjn
        simp
      · rw [if_neg hjn, ih (by omega)]
        by_cases hlt : j < n
        · rw [dif_pos hlt, dif_pos (by omega)]
        · rw [dif_neg hlt, dif_neg (by omega)]

/-- The loop `a[i] = f(i, a[i])` updates exactly the first `n` cells, each once. -/
theorem fold_set_own {N : Nat} (n : Nat) (hn : n ≤ N) (f : (i : Nat) → i < n → α → α)
    (a : Vector α N) (j : Nat) (hj : j < N) :
    (Nat.fold n (fun i hi b => b.set i (f i hi (b.get ⟨i, Nat.lt_of_lt_of_le hi hn⟩))
        (Nat.lt_of_lt_of_le hi hn)) a)[j]
      = if h : j < n then f j h a[j] else a[j] := by
  induction n with
  | zero => simp
  | succ n ih =>
      rw [Nat.fold_succ, Vector.getElem_set]
      by_cases hjn : n = j
      · subst hjn
        rw [if_pos rfl, dif_pos (Nat.lt_succ_self n), Vector.get_eq_getElem]
        rw [ih (by omega), dif_neg (Nat.lt_irrefl n)]
      · rw [if_neg hjn, ih (by omega)]
        by_cases hlt : j < n
        · rw [dif_pos hlt, dif_pos (by omega)]
        · rw [dif_neg hlt, dif_neg (by omega)]

/-- The loop that writes four cells per iteration, `a[4i + k] = v(i, k)`,
writes exactly the first `4n` cells. -/
theorem fold_set_four {N : Nat} (n : Nat) (hn : 4 * n ≤ N)
    (v : (i : Nat) → i < n → Fin 4 → α)
    (a : Vector α N) (j : Nat) (hj : j < N) :
    (Nat.fold n (fun i hi b =>
        (((b.set (i * 4 + 0) (v i hi 0)).set (i * 4 + 1) (v i hi 1)).set
          (i * 4 + 2) (v i hi 2)).set (i * 4 + 3) (v i hi 3)) a)[j]
      = if h : j / 4 < n then v (j / 4) h ⟨j % 4, Nat.mod_lt j (by decide)⟩ else a[j] := by
  induction n with
  | zero => simp
  | succ n ih =>
      rw [Nat.fold_succ]
      simp only [Vector.getElem_set]
      by_cases hjn : j / 4 = n
      · have hcase : j = n * 4 + 0 ∨ j = n * 4 + 1 ∨ j = n * 4 + 2 ∨ j = n * 4 + 3 := by
          omega
        have hdiv : ∀ k, k < 4 → (n * 4 + k) / 4 = n := fun k hk => by omega
        have hmod : ∀ k, k < 4 → (n * 4 + k) % 4 = k := fun k hk => by omega
        rcases hcase with rfl | rfl | rfl | rfl <;> simp [hdiv, hmod]
      · rw [if_neg (by omega), if_neg (by omega), if_neg (by omega), if_neg (by omega),
            ih (by omega)]
        by_cases hlt : j / 4 < n
        · rw [dif_pos hlt, dif_pos (by omega)]
        · rw [dif_neg hlt, dif_neg (by omega)]

/-! ## §2. Copying a run of bytes into an array. -/

/-- `memcpy(v + off, xs, xs.length)`: the cells `off … off + xs.length - 1`
of `v` are replaced, the others stay. -/
def blit {N : Nat} (v : Vector α N) (off : Nat) (xs : List α) : Vector α N :=
  Vector.ofFn fun i : Fin N =>
    if h : off ≤ i.val ∧ i.val < off + xs.length
    then xs.get ⟨i.val - off, by omega⟩ else v[i]

theorem blit_getElem {N : Nat} (v : Vector α N) (off : Nat) (xs : List α)
    (i : Nat) (hi : i < N) :
    (blit v off xs)[i] = if h : off ≤ i ∧ i < off + xs.length
      then xs.get ⟨i - off, by omega⟩ else v[i] := by
  simp [blit]

/-- The first `off + xs.length` cells after a copy: the first `off` old ones,
then the copied run. -/
theorem blit_take {N : Nat} (v : Vector α N) (off : Nat) (xs : List α)
    (h : off + xs.length ≤ N) :
    (blit v off xs).toList.take (off + xs.length) = v.toList.take off ++ xs := by
  apply List.ext_getElem
  · simp
    omega
  · intro i h₁ h₂
    have hi : i < off + xs.length := by
      rw [List.length_take] at h₁
      omega
    rw [List.getElem_take, Vector.getElem_toList, blit_getElem]
    by_cases hlt : i < off
    · rw [dif_neg (by omega), List.getElem_append_left (by simp; omega)]
      simp
    · rw [dif_pos (by omega), List.getElem_append_right (by simp; omega)]
      simp [show min off N = off by omega]

end ConcurrencyCrypto.Library
