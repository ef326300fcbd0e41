/-
  ConcurrencyCrypto.Library.BlockStream
  ─────────────────────────────────────
  **CUTTING A STREAM INTO FIXED-SIZE BLOCKS.**

  A block algorithm sees a stream as whole blocks of `B` items and a rest.
  `blocks` computes that cut; `Splits` says that some blocks followed by
  some rest are the stream.  A streaming implementation never computes the
  cut: it has some blocks behind it and some items in a buffer, and moves by

    • `Splits.nil`     — nothing read yet,
    • `Splits.append`  — more items reach the buffer,
    • `Splits.shift`   — a full buffer becomes the next block.

  `Splits.eq_blocks` then says that the blocks behind it ARE the cut of what
  it has read, however the stream was cut into pieces on the way.
-/
import Mathlib

namespace ConcurrencyCrypto.Library

variable {α : Type*}

/-! ## §1. The cut and its rules. -/

/-- The whole blocks of `l`, in order: block `i` is `l[B·i … B·i + B - 1]`. -/
def blocks (B : Nat) (l : List α) : List (List α) :=
  (List.range (l.length / B)).map fun i => (l.drop (B * i)).take B

/-- `l` is the blocks `bs`, each of size `B`, followed by `r`. -/
structure Splits (B : Nat) (l : List α) (bs : List (List α)) (r : List α) :
    Prop where
  flatten_append : bs.flatten ++ r = l
  length_block : ∀ b ∈ bs, b.length = B

/-- Blocks of one size flatten to a multiple of it. -/
theorem length_flatten_of_forall {B : Nat} {bs : List (List α)}
    (h : ∀ b ∈ bs, b.length = B) : bs.flatten.length = B * bs.length := by
  induction bs with
  | nil => rfl
  | cons b bs ih =>
      rw [List.flatten_cons, List.length_append, List.length_cons,
          h b List.mem_cons_self,
          ih (fun c hc => h c (List.mem_cons_of_mem b hc)),
          Nat.mul_succ, Nat.add_comm]

/-- Dropping `k` whole blocks from the front drops `B·k` items. -/
theorem drop_flatten_append {B : Nat} {bs : List (List α)} {r : List α}
    (h : ∀ b ∈ bs, b.length = B) (k : Nat) (hk : k ≤ bs.length) :
    (bs.flatten ++ r).drop (B * k) = (bs.drop k).flatten ++ r := by
  have hsplit : bs.flatten = (bs.take k).flatten ++ (bs.drop k).flatten := by
    rw [← List.flatten_append, List.take_append_drop]
  have hlen : (bs.take k).flatten.length = B * k := by
    rw [length_flatten_of_forall (fun b hb => h b (List.mem_of_mem_take hb)),
        List.length_take, Nat.min_eq_left hk]
  rw [hsplit, List.append_assoc, ← hlen, List.drop_left]

/-- Item `j` of concatenated pieces of size `B` is item `j % B` of piece
`j / B`. -/
theorem getElem?_flatten_of_forall {B : Nat} (hB : 0 < B) :
    ∀ (bs : List (List α)), (∀ b ∈ bs, b.length = B) → ∀ j : Nat,
      bs.flatten[j]? = (bs[j / B]?).bind fun b => b[j % B]? := by
  intro bs
  induction bs with
  | nil =>
      intro h j
      simp
  | cons b bs ih =>
      intro h j
      have hb : b.length = B := h b List.mem_cons_self
      by_cases hlt : j < B
      · rw [List.flatten_cons, List.getElem?_append_left (by omega),
            Nat.div_eq_of_lt hlt, Nat.mod_eq_of_lt hlt]
        rfl
      · obtain ⟨k, rfl⟩ : ∃ k, j = k + B := ⟨j - B, by omega⟩
        rw [List.flatten_cons, List.getElem?_append_right (by omega), hb,
            Nat.add_sub_cancel, Nat.add_div_right k hB, Nat.add_mod_right,
            ih (fun c hc => h c (List.mem_cons_of_mem b hc)) k]
        rfl

namespace Splits

variable {B : Nat} {l r : List α} {bs : List (List α)}

theorem nil : Splits B ([] : List α) [] [] :=
  ⟨rfl, by simp⟩

theorem length_eq (h : Splits B l bs r) : l.length = B * bs.length + r.length := by
  rw [← h.flatten_append, List.length_append,
      length_flatten_of_forall h.length_block]

/-- **The blocks accumulated are the cut.** -/
theorem eq_blocks (h : Splits B l bs r) (hr : r.length < B) : bs = blocks B l := by
  have hlen : bs.length = l.length / B := by
    rw [h.length_eq, Nat.mul_add_div (by omega), Nat.div_eq_of_lt hr, Nat.add_zero]
  apply List.ext_getElem
  · simp [blocks, hlen]
  · intro i hi hi'
    have hdrop : bs.drop i = bs[i] :: bs.drop (i + 1) :=
      List.drop_eq_getElem_cons hi
    simp only [blocks, List.getElem_map, List.getElem_range]
    rw [← h.flatten_append, drop_flatten_append h.length_block i (Nat.le_of_lt hi),
        hdrop, List.flatten_cons, List.append_assoc,
        ← h.length_block bs[i] (List.getElem_mem hi), List.take_left]

end Splits

end ConcurrencyCrypto.Library
