/-
  ConcurrencyCrypto.Trees.Levels
  ──────────────────────────────
  **HOW MANY LEVELS THE TREE OF `BinTree` HAS.**

  The programs grow a complete tree, and every run comes to its end.  The
  number of levels is about half the number that was asked for: the two
  numbers agree for 1, 3 and 4 only.
-/
import ConcurrencyCrypto.Trees.BinTree
import Mathlib.Data.Set.Card

namespace ConcurrencyCrypto.Trees

open ConcurrencyCrypto.Library

/-! ## §1. What is asked for. -/

/-- `BinTree` has just been started with the argument `number`. -/
def started (argv₀ number : CString) (stdin : List UInt8) : System Label Call :=
  System.start (.BinTree [argv₀, number]) stdin

/-- Where no `fork` and no `execlp` fails, every run can be brought to its
end, and then the processes that were created are a tree of `d` levels. -/
structure BuildsTree (argv₀ number : CString) (stdin : List UInt8) (d : Nat) : Prop where
  ends : ∀ s, Reaches (System.stepOk project) (started argv₀ number stdin) s →
    ∃ s', Reaches (System.stepOk project) s s' ∧ AllEnded s'.process
  levels : ∀ s, Reaches (System.stepOk project) (started argv₀ number stdin) s →
    AllEnded s.process → ∀ p, (s.process p).isSome = true ↔ p ∈ completeTree 2 d
  count : ∀ s, Reaches (System.stepOk project) (started argv₀ number stdin) s →
    AllEnded s.process → Set.ncard {p | (s.process p).isSome = true} = 2 ^ d - 1

/-! ## §2. What is built. -/

section built
variable {argv₀ number : CString} {stdin : List UInt8} {d : Nat}

theorem growing_started (hmin : atoi number ≠ -2 ^ 31) {s : System Label Call}
    (h : Reaches (System.stepOk project) (started argv₀ number stdin) s) :
    Growing project 2 (height (atoi number)) s.process :=
  (Growing.start (BinTree_grows argv₀ hmin) stdin).reaches h

/-- **THE NUMBER OF LEVELS** that the argument gives. -/
theorem buildsTree_iff_height (hmin : atoi number ≠ -2 ^ 31) :
    BuildsTree argv₀ number stdin d ↔ d = height (atoi number) + 1 := by
  constructor
  · intro h
    obtain ⟨s, hreach, hended⟩ := h.ends _ .refl
    have hbuilt := (growing_started hmin hreach).present_iff hended
    refine completeTree_injective (b := 2) (by decide) ?_
    ext p
    rw [← h.levels s hreach hended p, hbuilt p]
  · intro hd
    have hlevels : ∀ s, Reaches (System.stepOk project) (started argv₀ number stdin) s →
        AllEnded s.process → ∀ p, (s.process p).isSome = true ↔ p ∈ completeTree 2 d := by
      intro s hreach hended
      rw [hd]
      exact (growing_started hmin hreach).present_iff hended
    refine ⟨fun s hreach => (growing_started hmin hreach).can_end, hlevels, ?_⟩
    intro s hreach hended
    have hset : {p | (s.process p).isSome = true} = (completeTree 2 d : Set Pid) :=
      Set.ext (hlevels s hreach hended)
    rw [hset, Set.ncard_coe_finset, card_completeTree]

/-- `INT_MIN - 1` is undefined, and the run never ends. -/
theorem not_buildsTree_of_min (hmin : atoi number = -2 ^ 31) :
    ¬ BuildsTree argv₀ number stdin d := by
  intro h
  have hcode : project.code (.BinTree [argv₀, number]) = .undefined := if_pos hmin
  obtain ⟨s, hreach, hended⟩ := h.ends _ .refl
  have hstuck : Stuck (.BinTree [argv₀, number]) s.process := by
    refine hreach.invariant (I := fun s => Stuck (.BinTree [argv₀, number]) s.process)
      ⟨_, rfl, Or.inl rfl⟩ ?_
    intro s₁ a s₂ hstuck hstep
    exact Stuck.change hcode hstuck (System.stepOk_cases hstep)
  exact hstuck.not_allEnded hended

end built

/-! ## §3. When the two agree. -/

/-- **THE TREE IS THE ONE ASKED FOR** for the depths 1, 3 and 4, and for no
other: the children of a `BinTree` count two for each level below them. -/
theorem builds_asked_tree_iff (argv₀ number : CString) (stdin : List UInt8) :
    BuildsTree argv₀ number stdin (leadingNumber 10 number).toNat ↔
      leadingNumber 10 number = 1 ∨ leadingNumber 10 number = 3 ∨
        leadingNumber 10 number = 4 := by
  have hrange := atoi_range number
  have hatoi := atoi_eq (s := number)
  by_cases hmin : atoi number = -2 ^ 31
  · constructor
    · exact fun h => absurd h (not_buildsTree_of_min hmin)
    · -- small numbers are read as they are
      intro h
      have := hatoi (by omega)
      omega
  · rw [buildsTree_iff_height hmin, height]
    by_cases hin : -2 ^ 31 ≤ leadingNumber 10 number ∧ leadingNumber 10 number < 2 ^ 31
    · rw [hatoi hin]
      split
      · omega
      · omega
    · -- no tree has `2 ^ 31` levels, and none has 0
      split
      · omega
      · omega

/-- Two levels are asked for, and three are built. -/
theorem two_levels_asked :
    1 ≤ leadingNumber 10 (str "2") ∧
      ¬ BuildsTree (str "./BinTree") (str "2") [] (leadingNumber 10 (str "2")).toNat := by
  have hread : leadingNumber 10 (str "2") = 2 := by decide +kernel
  have hatoi : atoi (str "2") = 2 := by decide +kernel
  refine ⟨by rw [hread]; decide, ?_⟩
  rw [buildsTree_iff_height (by rw [hatoi]; decide), hread, hatoi]
  decide

end ConcurrencyCrypto.Trees
