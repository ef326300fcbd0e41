/-
  ConcurrencyCrypto.Library.Pieces
  ────────────────────────────────
  **A TEXT CUT INTO PIECES, WITH A MARK BEHIND EACH.**

    • `joinAfter sep pieces` — every piece followed by `sep`;
    • `unjoin n s`           — drop `s` symbols behind every `n`, and the last
      `s` symbols of what is left at the end;
    • `unjoin_joinAfter`     — the second undoes the first where all pieces
      but the last have `n` symbols, even if `sep` occurs in them.
-/
import Mathlib

namespace ConcurrencyCrypto.Library

variable {α : Type*}

/-! ## §1. Joining. -/

/-- Every piece followed by `sep`. -/
def joinAfter (sep : List α) (pieces : List (List α)) : List α :=
  (pieces.map fun piece => piece ++ sep).flatten

@[simp] theorem joinAfter_nil (sep : List α) : joinAfter sep [] = [] := rfl

@[simp] theorem joinAfter_cons (sep piece : List α) (pieces : List (List α)) :
    joinAfter sep (piece :: pieces) = piece ++ (sep ++ joinAfter sep pieces) := by
  simp only [joinAfter, List.map_cons, List.flatten_cons, List.append_assoc]

theorem joinAfter_concat (sep : List α) (pieces : List (List α)) (piece : List α) :
    joinAfter sep (pieces ++ [piece]) = joinAfter sep pieces ++ (piece ++ sep) := by
  simp only [joinAfter, List.map_append, List.map_cons, List.map_nil, List.flatten_append,
    List.flatten_cons, List.flatten_nil, List.append_nil]

/-- An empty mark leaves the text. -/
@[simp] theorem joinAfter_empty (pieces : List (List α)) :
    joinAfter [] pieces = pieces.flatten := by
  simp only [joinAfter, List.append_nil, List.map_id']

/-! ## §2. Cuts of a text. -/

/-- `text` in consecutive pieces of one to `n` symbols. -/
structure Cut (n : Nat) (text : List α) (pieces : List (List α)) : Prop where
  ne_nil : ∀ piece ∈ pieces, piece ≠ []
  length_le : ∀ piece ∈ pieces, piece.length ≤ n
  flatten : pieces.flatten = text

/-- All pieces but the last have `n` symbols. -/
def AllButLastFull (n : Nat) (pieces : List (List α)) : Prop :=
  ∀ piece ∈ pieces.dropLast, piece.length = n

theorem Cut.nil (n : Nat) : Cut n ([] : List α) [] :=
  ⟨List.forall_mem_nil _, List.forall_mem_nil _, rfl⟩

/-- One piece more. -/
theorem Cut.concat {n : Nat} {text piece : List α} {pieces : List (List α)}
    (h : Cut n text pieces) (hne : piece ≠ []) (hle : piece.length ≤ n) :
    Cut n (text ++ piece) (pieces ++ [piece]) := by
  refine ⟨?_, ?_, ?_⟩
  · intro p hp
    rcases List.mem_append.mp hp with hp | hp
    · exact h.ne_nil p hp
    · rw [List.mem_singleton.mp hp]
      exact hne
  · intro p hp
    rcases List.mem_append.mp hp with hp | hp
    · exact h.length_le p hp
    · rw [List.mem_singleton.mp hp]
      exact hle
  · rw [List.flatten_append, h.flatten, List.flatten_cons, List.flatten_nil, List.append_nil]

/-! ## §3. The text recovered. -/

/-- Take `n` symbols, drop `s`, and go on; of what is left at the end, drop
the last `s`. -/
def unjoin (n s : Nat) (out : List α) : List α :=
  if n = 0 ∨ out.length ≤ n + s then out.take (out.length - s)
  else out.take n ++ unjoin n s (out.drop (n + s))
termination_by out.length
decreasing_by
  rw [List.length_drop]
  omega

/-- The end of the text. -/
theorem unjoin_last {n : Nat} (sep : List α) {piece : List α} (h : piece.length ≤ n) :
    unjoin n sep.length (piece ++ sep) = piece := by
  rw [unjoin, if_pos (Or.inr (by rw [List.length_append]; omega)), List.length_append,
    Nat.add_sub_cancel, List.take_left]

/-- A full piece in front of more. -/
theorem unjoin_full (sep : List α) {piece rest : List α} (hpiece : piece ≠ [])
    (hrest : rest ≠ []) :
    unjoin piece.length sep.length (piece ++ (sep ++ rest))
      = piece ++ unjoin piece.length sep.length rest := by
  have hpos := List.length_pos_iff.mpr hpiece
  have hpos' := List.length_pos_iff.mpr hrest
  have hlong : ¬ (piece.length = 0 ∨
      (piece ++ (sep ++ rest)).length ≤ piece.length + sep.length) := by
    rw [List.length_append, List.length_append]
    omega
  have hdrop : (piece ++ (sep ++ rest)).drop (piece.length + sep.length) = rest := by
    rw [← List.append_assoc, ← List.length_append, List.drop_left]
  rw [unjoin, if_neg hlong, List.take_left, hdrop]

/-- **THE TEXT IS RECOVERED** from the joined pieces, the size of the full
ones and the length of the mark. -/
theorem unjoin_joinAfter {n : Nat} (sep : List α) {text : List α} {pieces : List (List α)}
    (h : Cut n text pieces) (hfull : AllButLastFull n pieces) :
    unjoin n sep.length (joinAfter sep pieces) = text := by
  induction pieces generalizing text with
  | nil =>
      have hshort : n = 0 ∨ ([] : List α).length ≤ n + sep.length := Or.inr (Nat.zero_le _)
      rw [← h.flatten, joinAfter_nil, unjoin, if_pos hshort, List.take_nil, List.flatten_nil]
  | cons piece pieces ih =>
      have hne := h.ne_nil piece List.mem_cons_self
      have hle := h.length_le piece List.mem_cons_self
      cases pieces with
      | nil =>
          rw [← h.flatten, joinAfter_cons, joinAfter_nil, List.append_nil, unjoin_last sep hle,
            List.flatten_cons, List.flatten_nil, List.append_nil]
      | cons next rest =>
          obtain rfl : piece.length = n := hfull piece List.mem_cons_self
          have hnext : joinAfter sep (next :: rest) ≠ [] := by
            rw [joinAfter_cons]
            intro hnil
            exact h.ne_nil next (List.mem_cons_of_mem _ List.mem_cons_self)
              (List.append_eq_nil_iff.mp hnil).1
          have hcut : Cut piece.length (next :: rest).flatten (next :: rest) :=
            ⟨fun p hp => h.ne_nil p (List.mem_cons_of_mem _ hp),
              fun p hp => h.length_le p (List.mem_cons_of_mem _ hp), rfl⟩
          have hrest := ih hcut (fun p hp => hfull p (List.mem_cons_of_mem _ hp))
          rw [joinAfter_cons, unjoin_full sep hne hnext, hrest, ← h.flatten]
          rfl

end ConcurrencyCrypto.Library
