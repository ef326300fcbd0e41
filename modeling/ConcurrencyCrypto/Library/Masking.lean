/-
  ConcurrencyCrypto.Library.Masking
  ─────────────────────────────────
  **POSITION-WISE MASKING** — the whole of a stream cipher that is not its
  keystream.

  `mask op ks off l` combines item `j` of `l` with the key item `ks (off + j)`.
  Consecutive pieces of a stream are masked independently once each knows its
  offset (`mask_append`), and masking with an operation that undoes itself
  undoes itself (`mask_mask`).
-/
import Mathlib

namespace ConcurrencyCrypto.Library

variable {α κ : Type*}

/-- Item `j` of `l` combined with key item `off + j`. -/
def mask (op : α → κ → α) (ks : Nat → κ) (off : Nat) (l : List α) : List α :=
  l.mapIdx fun j a => op a (ks (off + j))

section mask
variable (op : α → κ → α) (ks : Nat → κ) (off : Nat)

@[simp] theorem mask_nil : mask op ks off [] = [] := rfl

@[simp] theorem length_mask (l : List α) : (mask op ks off l).length = l.length :=
  List.length_mapIdx

theorem getElem?_mask (l : List α) (j : Nat) :
    (mask op ks off l)[j]? = (l[j]?).map fun a => op a (ks (off + j)) := by
  unfold mask
  rw [List.getElem?_mapIdx]

/-- **Pieces of a stream are masked one after the other.** -/
theorem mask_append (l₁ l₂ : List α) :
    mask op ks off (l₁ ++ l₂)
      = mask op ks off l₁ ++ mask op ks (off + l₁.length) l₂ := by
  unfold mask
  rw [List.mapIdx_append]
  congr 1
  apply List.ext_getElem?
  intro j
  rw [List.getElem?_mapIdx, List.getElem?_mapIdx]
  congr 1
  funext a
  rw [Nat.add_assoc, Nat.add_comm j]

/-- A prefix is masked to the prefix. -/
theorem mask_take (l : List α) (n : Nat) :
    mask op ks off (l.take n) = (mask op ks off l).take n := by
  apply List.ext_getElem?
  intro j
  rw [getElem?_mask, List.getElem?_take, List.getElem?_take, getElem?_mask]
  split
  · rfl
  · rfl

/-- **A change of the text goes through unchanged** where it commutes with
the operation. -/
theorem mask_zipWith {β : Type*} (f : α → β → α) (hf : ∀ a b k, op (f a b) k = f (op a k) b)
    (l : List α) (m : List β) :
    mask op ks off (List.zipWith f l m) = List.zipWith f (mask op ks off l) m := by
  apply List.ext_getElem?
  intro j
  rw [getElem?_mask, List.getElem?_zipWith, List.getElem?_zipWith, getElem?_mask]
  cases l[j]? with
  | none => rfl
  | some a =>
      cases m[j]? with
      | none => rfl
      | some b => exact congrArg some (hf a b _)

/-- **Masking twice is the identity** where the operation undoes itself. -/
theorem mask_mask (hop : ∀ a k, op (op a k) k = a) (l : List α) :
    mask op ks off (mask op ks off l) = l := by
  apply List.ext_getElem?
  intro j
  rw [getElem?_mask, getElem?_mask, Option.map_map]
  cases l[j]? with
  | none => rfl
  | some a => exact congrArg some (hop a _)

end mask

end ConcurrencyCrypto.Library
