/-
  ConcurrencyCrypto.Trees.Endings
  ───────────────────────────────
  **THE TREE OF `binary-tree` ALWAYS ENDS**: whichever calls of `fork` and
  `execlp` fail and in whatever order the processes run.

  A process that executes `BinTreeChild m` makes, with all that descend from
  it, no more than `13 · 2 ^ ((m + 1) / 2) - 14` calls: twice what a child of
  it makes, and six of its own.

    • `tree_always_ends` — the bound for `BinTree`, and that no run stops before.
-/
import ConcurrencyCrypto.Library.ProcessCosts
import ConcurrencyCrypto.Trees.Levels

namespace ConcurrencyCrypto.Trees

open ConcurrencyCrypto.Library

theorem decrement_costs {n : Nat} {x : Int} {next : Int → Code Label Call} (hx : x ≠ -2 ^ 31)
    (h : Costs project (next (x - 1)) n) : Costs project (decrement x next) n := by
  rw [decrement, if_neg hx]
  exact h

theorem printChild_costs {n : Nat} {side : String} {pid : Int} {next : Code Label Call}
    (h : Costs project next n) : Costs project (printChild side pid next) (n + 2) :=
  .call fun _ => .printf h

/-- Where `execlp` fails the process exits. -/
theorem execBinTreeChild_costs {n : Nat} {mDepth status : Int}
    (h : Costs project (BinTreeChild [str "./BinTreeChild", decimal mDepth]) n) :
    Costs project (execBinTreeChild mDepth (.exit status)) (n + 2) :=
  .execl (load_BinTreeChild _) (.goto h) .exit

/-- The second of two forks, and a `wait` for each. -/
theorem costs_waits : Costs project (.wait (.wait (.exit 0))) 3 := .wait (.wait .exit)

/-- **WHAT `BinTreeChild m` COSTS.** -/
theorem BinTreeChild_costs (m : Nat) : ∀ (argv₀ : CString) {number : CString} {n : Nat},
    atoi number = m → 1 ≤ m → n + 14 = 13 * 2 ^ ((m + 1) / 2) →
      Costs project (BinTreeChild [argv₀, number]) n := by
  induction m using Nat.strong_induction_on with
  | _ m ih =>
      intro argv₀ number n hnumber hm hn
      have hrange := (atoi_range number).2
      have hlevels : (m + 1) / 2 = (m - 1) / 2 + 1 := by omega
      rw [hlevels, Nat.pow_succ] at hn
      -- a child makes three calls, or becomes `BinTreeChild (m - 2)`
      obtain ⟨c, hc⟩ : ∃ c, c + 10 = 13 * 2 ^ ((m - 1) / 2) :=
        ⟨13 * 2 ^ ((m - 1) / 2) - 10, by have := Nat.two_pow_pos ((m - 1) / 2); omega⟩
      have hchild : ∀ side pid, Costs project (grandchild side pid ((m : Int) - 1)) c := by
        intro side pid
        by_cases hleaf : m ≤ 2
        · have hzero : (m - 1) / 2 = 0 := by omega
          rw [hzero, Nat.pow_zero] at hc
          obtain rfl : c = 3 := by omega
          refine printChild_costs (n := 1) (decrement_costs (by omega) ?_)
          rw [if_neg (by omega)]
          exact .exit
        · have hhalf : (m - 1) / 2 = (m - 2 + 1) / 2 := by omega
          have hpos : 2 ≤ 2 ^ ((m - 1) / 2) := by
            have hle := Nat.pow_le_pow_right (show 0 < 2 by decide) (show 1 ≤ (m - 1) / 2 by omega)
            rwa [Nat.pow_one] at hle
          obtain ⟨d, rfl⟩ : ∃ d, c = d + 4 := ⟨c - 4, by omega⟩
          have hcast : (m : Int) - 1 - 1 = ((m - 2 : Nat) : Int) := by omega
          rw [hhalf] at hc
          have hsub := ih (m - 2) (by omega) (str "./BinTreeChild") (n := d)
            (atoi_decimal (m := m - 2) (by omega)) (by omega) (by omega)
          refine printChild_costs (n := d + 2) (decrement_costs (by omega) ?_)
          rw [if_pos (by omega), hcast]
          exact execBinTreeChild_costs hsub
      obtain rfl : n = c + (c + 3 + 1) + 1 + 1 := by omega
      show Costs project (decrement (atoi number) fun mDepth => _) _
      refine decrement_costs (by omega) (.call fun pid => .fork ?_ ?_ ?_)
      · rw [if_pos (by decide)]
        exact (Costs.perror (n := 1) .exit).mono (by omega)
      · rw [if_neg (by decide), if_pos rfl, hnumber]
        exact hchild "Left" pid
      · intro left hleft
        rw [if_neg (by omega), if_neg (by omega)]
        refine .fork ?_ ?_ ?_
        · rw [if_pos (by decide)]
          exact (Costs.perror (n := 1) .exit).mono (by omega)
        · rw [if_neg (by decide), if_pos rfl, hnumber]
          exact hchild "Right" pid
        · intro right hright
          rw [if_neg (by omega), if_neg (by omega)]
          exact costs_waits

/-- **WHAT `BinTree` COSTS.** -/
theorem BinTree_costs (argv₀ : CString) {number : CString} (hmin : atoi number ≠ -2 ^ 31) :
    Costs project (.goto (.BinTree [argv₀, number])) (13 * 2 ^ height (atoi number)) := by
  have hrange := atoi_range number
  have hpos := Nat.two_pow_pos (height (atoi number))
  obtain ⟨n, hn⟩ : ∃ n, 13 * 2 ^ height (atoi number) = n + 1 :=
    ⟨13 * 2 ^ height (atoi number) - 1, by omega⟩
  rw [hn]
  refine .goto ?_
  show Costs project (decrement (atoi number) fun mDepth => _) n
  refine decrement_costs hmin ?_
  by_cases hneg : atoi number - 1 < 0
  · rw [if_pos hneg]
    exact (Costs.printf (n := 1) .exit).mono (by omega)
  · rw [if_neg hneg]
    by_cases hzero : atoi number - 1 > 0
    · obtain ⟨m, hm⟩ := Int.eq_ofNat_of_zero_le (show 0 ≤ atoi number - 1 by omega)
      have hlevels : height (atoi number) = (m + 1) / 2 + 1 := by
        rw [height, if_neg (by omega)]
        omega
      rw [hlevels, Nat.pow_succ] at hn
      have hfull := Nat.pow_le_pow_right (show 0 < 2 by decide) (show 1 ≤ (m + 1) / 2 by omega)
      rw [Nat.pow_one] at hfull
      obtain ⟨c, hc⟩ : ∃ c, c + 14 = 13 * 2 ^ ((m + 1) / 2) :=
        ⟨13 * 2 ^ ((m + 1) / 2) - 14, by omega⟩
      have hsub : Costs project (BinTreeChild [str "./BinTreeChild", decimal (m : Int)]) c :=
        BinTreeChild_costs m (str "./BinTreeChild") (atoi_decimal (by omega)) (by omega) hc
      have hchild : ∀ side pid,
          Costs project (printChild side pid (execBinTreeChild (m : Int) (.exit 0))) (c + 4) :=
        fun side pid => printChild_costs (n := c + 2) (execBinTreeChild_costs hsub)
      -- a fork that fails is followed by the other one
      have hsecond : ∀ pid, Costs project (.fork fun right =>
          if right = 0 then printChild "Right" pid (execBinTreeChild (m : Int) (.exit 0))
          else .wait (.wait (.exit 0))) (c + 4 + 3 + 1) := by
        intro pid
        refine .fork (m := c + 4) (n := 3) ?_ ?_ ?_
        · rw [if_neg (by decide)]
          exact costs_waits.mono (by omega)
        · rw [if_pos rfl]
          exact hchild "Right" pid
        · intro right hright
          rw [if_neg (by omega)]
          exact costs_waits
      refine Costs.mono (n := c + 4 + (c + 4 + 3 + 1) + 1 + 1 + 1) ?_ (by omega)
      refine .call fun pid => .printf ?_
      rw [if_pos hzero, hm]
      refine .fork ?_ ?_ ?_
      · rw [if_neg (by decide)]
        exact (hsecond pid).mono (by omega)
      · rw [if_pos rfl]
        exact hchild "Left" pid
      · intro left hleft
        rw [if_neg (by omega)]
        exact hsecond pid
    · refine .mono (n := 1 + 1 + 1) (.call fun pid => .printf ?_) (by omega)
      rw [if_neg hzero]
      exact .exit

/-- **THE TREE ALWAYS ENDS**, whatever fails: there is an end to the calls that
its processes make, and none to wait for that does not come. -/
theorem tree_always_ends (argv₀ number : CString) (stdin : List UInt8)
    (hmin : atoi number ≠ -2 ^ 31) :
    (∀ as s, runActions (System.step project) (started argv₀ number stdin) as = some s →
      as.countP (!·.isInput) ≤ 13 * 2 ^ height (atoi number)) ∧
    ∀ s, Reaches (System.step project) (started argv₀ number stdin) s →
      AllEnded s.process ∨ ∃ a, a.isInput = false ∧ Enabled (System.step project) s a := by
  have hcosts := BinTree_costs argv₀ hmin
  refine ⟨?_, ?_⟩
  · intro as s hrun
    exact hcosts.length_le hrun
  · intro s hreach
    exact hcosts.enabled hreach

theorem tree_always_ends_of_four :
    (∀ as s, runActions (System.step project) (started (str "./BinTree") (str "4") []) as = some s →
      as.countP (!·.isInput) ≤ 104) ∧
    ∀ s, Reaches (System.step project) (started (str "./BinTree") (str "4") []) s →
      AllEnded s.process ∨ ∃ a, a.isInput = false ∧ Enabled (System.step project) s a :=
  tree_always_ends (str "./BinTree") (str "4") [] (by decide +kernel)

end ConcurrencyCrypto.Trees
