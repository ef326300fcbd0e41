/-
  ConcurrencyCrypto.Library.Tokens
  ────────────────────────────────
  **COUNTED RESOURCES SHARED BY THREADS.**

  A counting semaphore is a heap of tokens: what its value lacks is in the
  hands of threads.  `Conserved` says that nothing is lost, and
  `Conserved.move` is the one rule it is kept by: in a step of a single
  thread, the heap and this thread's hands together hold what they held.

  `no_circular_wait` excludes deadlock by ranking the resources: if whoever
  is in the way of a waiting thread can only be waiting for a resource of
  smaller rank, nobody waits.
-/
import Mathlib

namespace ConcurrencyCrypto.Library

/-! ## §1. Conservation. -/

section conserved
variable {T : Type*} [Fintype T]

/-- `value` tokens on the heap and those held by the threads are `total`. -/
def Conserved (value : Nat) (held : T → Nat) (total : Nat) : Prop :=
  value + ∑ t, held t = total

theorem Conserved.held_le {value total : Nat} {held : T → Nat}
    (h : Conserved value held total) : ∑ t, held t ≤ total := by
  unfold Conserved at h
  omega

/-- No more threads hold something than there are tokens. -/
theorem Conserved.card_holders_le {value total : Nat} {held : T → Nat}
    (h : Conserved value held total) {p : T → Prop} [DecidablePred p]
    (hp : ∀ t, p t → 0 < held t) : (Finset.univ.filter p).card ≤ total := by
  rw [Finset.card_filter]
  refine Nat.le_trans (Finset.sum_le_sum fun t _ => ?_) h.held_le
  split
  next ht => exact hp t ht
  next => exact Nat.zero_le _

/-- An empty heap is in somebody's hands. -/
theorem Conserved.exists_holder {total : Nat} {held : T → Nat}
    (h : Conserved 0 held total) (hpos : 0 < total) : ∃ t, 0 < held t := by
  unfold Conserved at h
  by_contra hnone
  have hzero : ∑ t, held t = 0 :=
    Finset.sum_eq_zero fun t _ => Nat.eq_zero_of_not_pos fun ht => hnone ⟨t, ht⟩
  omega

/-- When nobody holds anything, the heap is full. -/
theorem Conserved.eq_total {value total : Nat} {held : T → Nat}
    (h : Conserved value held total) (hnone : ∀ t, held t = 0) : value = total := by
  unfold Conserved at h
  rw [Finset.sum_eq_zero fun t _ => hnone t] at h
  exact h

variable [DecidableEq T]

/-- A sum of which one term changes. -/
theorem sum_of_change {held held' : T → Nat} (t : T)
    (hother : ∀ u, u ≠ t → held' u = held u) :
    ∑ u, held' u + held t = ∑ u, held u + held' t := by
  have hsum : ∀ f : T → Nat, ∑ u, f u = f t + ∑ u ∈ Finset.univ.erase t, f u := fun f =>
    (Finset.add_sum_erase Finset.univ f (Finset.mem_univ t)).symm
  have hrest : ∑ u ∈ Finset.univ.erase t, held' u = ∑ u ∈ Finset.univ.erase t, held u :=
    Finset.sum_congr rfl fun u hu => hother u (Finset.ne_of_mem_erase hu)
  rw [hsum held, hsum held', hrest]
  omega

theorem sum_update_succ (held : T → Nat) (t : T) :
    ∑ u, Function.update held t (held t + 1) u = ∑ u, held u + 1 := by
  have h : ∑ u, Function.update held t (held t + 1) u + held t
      = ∑ u, held u + Function.update held t (held t + 1) t :=
    sum_of_change t fun u hu => Function.update_of_ne hu _ _
  rw [Function.update_self] at h
  omega

/-- In a step of one thread, heap, hands and total change together. -/
theorem Conserved.exchange {value value' total total' : Nat} {held held' : T → Nat}
    (h : Conserved value held total) (t : T) (hother : ∀ u, u ≠ t → held' u = held u)
    (hbalance : value' + held' t + total = value + held t + total') :
    Conserved value' held' total' := by
  unfold Conserved at h ⊢
  have := sum_of_change t hother
  omega

/-- **Tokens only move between the heap and the hands of the thread that
steps.** -/
theorem Conserved.move {value value' total : Nat} {held held' : T → Nat}
    (h : Conserved value held total) (t : T) (hother : ∀ u, u ≠ t → held' u = held u)
    (hbalance : value' + held' t = value + held t) : Conserved value' held' total :=
  h.exchange t hother (by omega)

end conserved

/-! ## §2. Ranked resources. -/

/-- **No circular wait.**  If some thread waits for a resource only when some
thread waits for one of smaller rank, nobody waits. -/
theorem no_circular_wait {R : Type*} (rank : R → Nat) (awaited : R → Prop)
    (h : ∀ r, awaited r → ∃ r', awaited r' ∧ rank r' < rank r) (r : R) : ¬ awaited r := by
  intro hr
  induction hn : rank r using Nat.strong_induction_on generalizing r with
  | h n ih =>
      obtain ⟨r', hr', hlt⟩ := h r hr
      exact ih (rank r') (hn ▸ hlt) r' hr' rfl

end ConcurrencyCrypto.Library
