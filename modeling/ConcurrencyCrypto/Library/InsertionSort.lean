/-
  ConcurrencyCrypto.Library.InsertionSort
  ───────────────────────────────────────
  **INSERTION FROM THE END, AND THE SORT BUILT ON IT.**

  `before a b` says that `a` must stand in front of `b`.  `insertEnd` walks
  from the end of a list towards its front and stops at the first item the
  new one must not stand in front of; `sortEnd` inserts all items in their
  order, starting with the empty list.

    • `insertEnd_perm`, `sortEnd_perm`       — nothing lost or duplicated,
    • `insertEnd_sorted`, `sortEnd_sorted`   — a strict weak order suffices,
    • `insertEnd_precedes`, `sortEnd_precedes` — stability: an item stays
      behind every item it need not stand in front of,
    • `sortEnd_filter` — the same for a class of equals, repetitions included,
    • `insertEnd_append_cons`, `sortEnd_append_cons` — what stands in front
      of such an item is left alone.
-/
import Mathlib

namespace ConcurrencyCrypto.Library

variable {α : Type*}

/-! ## §1. Definitions. -/

/-- The item `x` goes behind the last item it need not stand in front of. -/
def insertEnd (before : α → α → Bool) (x : α) (l : List α) : List α :=
  l.rdropWhile (before x) ++ x :: l.rtakeWhile (before x)

/-- All items inserted one after the other. -/
def sortEnd (before : α → α → Bool) (l : List α) : List α :=
  l.foldl (fun sorted x => insertEnd before x sorted) []

/-- No item must stand in front of an earlier one. -/
def SortedBy (before : α → α → Bool) (l : List α) : Prop :=
  l.Pairwise fun a b => before b a = false

/-- The order is strict and weak: what need not stand in front is transitive. -/
structure StrictWeak (before : α → α → Bool) : Prop where
  asymm : ∀ a b, before a b = true → before b a = false
  trans : ∀ a b c, before b a = false → before c b = false → before c a = false

section insert
variable (before : α → α → Bool) (x : α) (l : List α)

/-! ## §2. One insertion. -/

@[simp] theorem insertEnd_nil : insertEnd before x [] = [x] := rfl

/-- Walking past the last item. -/
theorem insertEnd_concat_pos {y : α} (h : before x y = true) :
    insertEnd before x (l ++ [y]) = insertEnd before x l ++ [y] := by
  unfold insertEnd
  rw [List.rdropWhile_concat_pos _ _ _ h, List.rtakeWhile_concat_pos _ _ _ h]
  simp

/-- Stopping behind it. -/
theorem insertEnd_concat_neg {y : α} (h : before x y = false) :
    insertEnd before x (l ++ [y]) = l ++ [y, x] := by
  have hneg : ¬ before x y = true := by rw [h]; exact Bool.false_ne_true
  unfold insertEnd
  rw [List.rdropWhile_concat_neg _ _ _ hneg, List.rtakeWhile_concat_neg _ _ _ hneg]
  simp

theorem insertEnd_perm : (insertEnd before x l).Perm (x :: l) := by
  have happ : l.rdropWhile (before x) ++ l.rtakeWhile (before x) = l :=
    List.rdropWhile_append_rtakeWhile
  have hmid : (insertEnd before x l).Perm
      (x :: (l.rdropWhile (before x) ++ l.rtakeWhile (before x))) :=
    List.perm_middle
  rwa [happ] at hmid

/-- The other items keep their order. -/
theorem sublist_insertEnd : l.Sublist (insertEnd before x l) := by
  have happ : l.rdropWhile (before x) ++ l.rtakeWhile (before x) = l :=
    List.rdropWhile_append_rtakeWhile
  unfold insertEnd
  conv_lhs => rw [← happ]
  exact List.Sublist.append_left (List.sublist_cons_self x _) _

variable {before x l}

/-- **An insertion keeps a list sorted.** -/
theorem insertEnd_sorted (hord : StrictWeak before) (hl : SortedBy before l) :
    SortedBy before (insertEnd before x l) := by
  induction l using List.reverseRecOn with
  | nil => exact List.pairwise_singleton _ x
  | append_singleton l y ih =>
      obtain ⟨hl', -, hly⟩ := List.pairwise_append.mp hl
      cases hxy : before x y with
      | true =>
          rw [insertEnd_concat_pos before x l hxy]
          refine List.pairwise_append.mpr ⟨ih hl', List.pairwise_singleton _ y, ?_⟩
          intro a ha b hb
          rw [List.mem_singleton.mp hb]
          rcases List.mem_cons.mp ((insertEnd_perm before x l).mem_iff.mp ha) with rfl | ha
          · exact hord.asymm a y hxy
          · exact hly a ha y (List.mem_singleton_self y)
      | false =>
          rw [insertEnd_concat_neg before x l hxy,
            show l ++ [y, x] = (l ++ [y]) ++ [x] by simp]
          refine List.pairwise_append.mpr ⟨hl, List.pairwise_singleton _ x, ?_⟩
          intro a ha b hb
          rw [List.mem_singleton.mp hb]
          rcases List.mem_append.mp ha with ha | ha
          · -- `a` before `y` before `x`
            exact hord.trans a y x (hly a ha y (List.mem_singleton_self y)) hxy
          · rw [List.mem_singleton.mp ha]
            exact hxy

/-- **An item that need not stand in front of `a` is inserted behind `a`.** -/
theorem insertEnd_append_cons {a : α} {front behind : List α} (h : before x a = false) :
    insertEnd before x (front ++ a :: behind) = front ++ a :: insertEnd before x behind := by
  induction behind using List.reverseRecOn with
  | nil =>
      rw [insertEnd_concat_neg before x front h]
      rfl
  | append_singleton l y ih =>
      rw [← List.cons_append, ← List.append_assoc]
      cases hxy : before x y with
      | true =>
          rw [insertEnd_concat_pos _ _ _ hxy, insertEnd_concat_pos _ _ _ hxy, ih]
          simp
      | false =>
          rw [insertEnd_concat_neg _ _ _ hxy, insertEnd_concat_neg _ _ _ hxy]
          simp

/-- An item that need not stand in front of any other goes to the end. -/
theorem insertEnd_of_forall (h : ∀ a ∈ l, before x a = false) :
    insertEnd before x l = l ++ [x] := by
  induction l using List.reverseRecOn with
  | nil => rfl
  | append_singleton l y _ =>
      rw [insertEnd_concat_neg before x l (h y (by simp))]
      simp

/-- **What is kept of the new list is what is kept of the old one, then `x`**,
if `x` need not stand in front of anything that is kept with it. -/
theorem insertEnd_filter (keep : α → Bool)
    (h : keep x = true → ∀ y, keep y = true → before x y = false) :
    (insertEnd before x l).filter keep = (l ++ [x]).filter keep := by
  have happ : l.rdropWhile (before x) ++ l.rtakeWhile (before x) = l :=
    List.rdropWhile_append_rtakeWhile
  have hl : l.filter keep = (l.rdropWhile (before x)).filter keep
      ++ (l.rtakeWhile (before x)).filter keep := by
    rw [← List.filter_append, happ]
  unfold insertEnd
  rw [List.filter_append, List.filter_append, hl, List.filter_cons]
  by_cases hx : keep x = true
  · -- nothing that `x` passes is kept
    have hnil : (l.rtakeWhile (before x)).filter keep = [] := by
      rw [List.filter_eq_nil_iff]
      intro y hy hkeep
      have hpass := List.mem_rtakeWhile_imp hy
      rw [h hx y hkeep] at hpass
      cases hpass
    rw [if_pos hx, hnil, List.append_nil, List.filter_singleton, hx]
    rfl
  · rw [if_neg hx, List.filter_singleton, Bool.eq_false_iff.mpr hx]
    exact (List.append_nil _).symm

/-- **An item goes behind every item it need not stand in front of.** -/
theorem insertEnd_precedes {a : α} (ha : a ∈ l) (h : before x a = false) :
    [a, x].Sublist (insertEnd before x l) := by
  have happ : l.rdropWhile (before x) ++ l.rtakeWhile (before x) = l :=
    List.rdropWhile_append_rtakeWhile
  rw [← happ] at ha
  rcases List.mem_append.mp ha with ha | ha
  · exact (List.singleton_sublist.mpr ha).append
      ((List.nil_sublist _).cons_cons x)
  · have := List.mem_rtakeWhile_imp ha
    rw [h] at this
    cases this

end insert

/-! ## §3. The sort. -/

section sort
variable (before : α → α → Bool) (l : List α)

theorem sortEnd_concat (x : α) :
    sortEnd before (l ++ [x]) = insertEnd before x (sortEnd before l) := by
  unfold sortEnd
  rw [List.foldl_append]
  rfl

theorem sortEnd_perm : (sortEnd before l).Perm l := by
  induction l using List.reverseRecOn with
  | nil => exact List.Perm.refl _
  | append_singleton l x ih =>
      rw [sortEnd_concat]
      exact (insertEnd_perm before x _).trans
        ((ih.cons x).trans (List.perm_append_singleton x l).symm)

@[simp] theorem length_sortEnd : (sortEnd before l).length = l.length :=
  (sortEnd_perm before l).length_eq

variable {before l}

/-- **The sort sorts.** -/
theorem sortEnd_sorted (hord : StrictWeak before) : SortedBy before (sortEnd before l) := by
  induction l using List.reverseRecOn with
  | nil => exact List.Pairwise.nil
  | append_singleton l x ih =>
      rw [sortEnd_concat]
      exact insertEnd_sorted hord ih

/-- A sorted list is left alone. -/
theorem sortEnd_of_sorted (hl : SortedBy before l) : sortEnd before l = l := by
  induction l using List.reverseRecOn with
  | nil => rfl
  | append_singleton l x ih =>
      obtain ⟨hl', -, hlx⟩ := List.pairwise_append.mp hl
      rw [sortEnd_concat, ih hl']
      exact insertEnd_of_forall (fun a ha => hlx a ha x (List.mem_singleton_self x))

/-- **A sorted front stays**, if nothing behind must stand in front of its last item. -/
theorem sortEnd_append_cons {a : α} {front behind : List α}
    (hfront : SortedBy before (front ++ [a])) (hbehind : ∀ b ∈ behind, before b a = false) :
    sortEnd before (front ++ a :: behind) = front ++ a :: sortEnd before behind := by
  induction behind using List.reverseRecOn with
  | nil => exact sortEnd_of_sorted hfront
  | append_singleton l y ih =>
      have hy : before y a = false := hbehind y (by simp)
      have hl : ∀ b ∈ l, before b a = false := fun b hb => hbehind b (by simp [hb])
      rw [← List.cons_append, ← List.append_assoc, sortEnd_concat, ih hl, sortEnd_concat]
      exact insertEnd_append_cons hy

/-- **The sort is stable.** -/
theorem sortEnd_precedes {a b : α} (hab : [a, b].Sublist l) (h : before b a = false) :
    [a, b].Sublist (sortEnd before l) := by
  induction l using List.reverseRecOn with
  | nil => cases hab
  | append_singleton l x ih =>
      rw [sortEnd_concat]
      obtain ⟨l₁, l₂, heq, h₁, h₂⟩ := List.sublist_append_iff.mp hab
      rcases List.sublist_singleton.mp h₂ with rfl | rfl
      · -- both stand in front of `x` already
        rw [List.append_nil] at heq
        exact (ih (heq ▸ h₁)).trans (sublist_insertEnd before x _)
      · have hsplit : [a] ++ [b] = l₁ ++ [x] := heq
        obtain ⟨rfl, hbx⟩ := List.append_inj' hsplit rfl
        injection hbx with hbx
        subst hbx
        exact insertEnd_precedes
          ((sortEnd_perm before l).mem_iff.mpr (List.singleton_sublist.mp h₁)) h

/-- **Stability, for a whole class of equals at once**: what is kept keeps its order. -/
theorem sortEnd_filter (keep : α → Bool)
    (h : ∀ x y, keep x = true → keep y = true → before x y = false) :
    (sortEnd before l).filter keep = l.filter keep := by
  induction l using List.reverseRecOn with
  | nil => rfl
  | append_singleton l x ih =>
      rw [sortEnd_concat, insertEnd_filter keep (fun hx y => h x y hx), List.filter_append, ih,
        List.filter_append]

end sort

end ConcurrencyCrypto.Library
