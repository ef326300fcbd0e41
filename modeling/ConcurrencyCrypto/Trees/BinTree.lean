/-
  ConcurrencyCrypto.Trees.BinTree
  ───────────────────────────────
  `binary-tree/BinTree.c` and the program it executes, `BinTreeChild.c`.

  The depth that is left is handed on as an argument, a text.  `BinTree`
  subtracts 1 from its argument and hands that on; `BinTreeChild` subtracts 1
  from its own, and each child that it forks subtracts 1 again.
-/
import ConcurrencyCrypto.Library.ProcessTrees

namespace ConcurrencyCrypto.Trees

open ConcurrencyCrypto.Library

/-! ## §1. The two programs. -/

inductive Label where
  | BinTree (argv : List CString)
  | BinTreeChild (argv : List CString)
  deriving DecidableEq

inductive Call where
  | getpid
  deriving DecidableEq

/-- `x - 1` in the type `int`. -/
def decrement (x : Int) (next : Int → Code Label Call) : Code Label Call :=
  if x = -2 ^ 31 then .undefined else next (x - 1)

/-- `argc != 2`; `printf` prints `(null)` where there is no `argv[0]`. -/
def usage (argv : List CString) : Code Label Call :=
  .printf (str "Usage: " ++ argv.headD (str "(null)") ++ str " <number>\n") (.exit 1)

/-- `printf("… child: Process PID: %d, Parent PID: %d\n", getpid(), pid)`. -/
def printChild (side : String) (pid : Int) (next : Code Label Call) : Code Label Call :=
  .call .getpid fun own =>
    .printf (str side ++ str " child: Process PID: " ++ decimal own ++ str ", Parent PID: " ++
      decimal pid ++ str "\n") next

/-- `sprintf(buf, "%d", mDepth)` and
`execlp("./BinTreeChild", "./BinTreeChild", buf, NULL)`. -/
def execBinTreeChild (mDepth : Int) (failed : Code Label Call) : Code Label Call :=
  .execl (str "./BinTreeChild") [str "./BinTreeChild", decimal mDepth] failed

/-- What both children of a `BinTreeChild` do. -/
def grandchild (side : String) (pid mDepth : Int) : Code Label Call :=
  printChild side pid <| decrement mDepth fun mDepth =>
    if mDepth > 0 then execBinTreeChild mDepth (.exit 0) else .exit 0

/-- `main` of `BinTreeChild.c`. -/
def BinTreeChild (argv : List CString) : Code Label Call :=
  match argv with
  | [_, number] =>
      decrement (atoi number) fun mDepth =>
      .call .getpid fun pid =>
      .fork fun left_child_pid =>
        if left_child_pid < 0 then .perror (str "Fork failed") (.exit 1)
        else if left_child_pid = 0 then grandchild "Left" pid mDepth
        else
          .fork fun right_child_pid =>
            if right_child_pid < 0 then .perror (str "Fork failed") (.exit 1)
            else if right_child_pid = 0 then grandchild "Right" pid mDepth
            else .wait (.wait (.exit 0))
  | _ => usage argv

/-- `main` of `BinTree.c`. -/
def BinTree (argv : List CString) : Code Label Call :=
  match argv with
  | [_, number] =>
      decrement (atoi number) fun mDepth =>
        if mDepth < 0 then
          .printf (str "Please enter a non-negative integer for depth.\n") (.exit 1)
        else
          .call .getpid fun pid =>
          .printf (str "Parent PID: " ++ decimal pid ++ str "\n") <|
          if mDepth > 0 then
            -- a fork that fails is not looked at
            .fork fun left =>
              if left = 0 then printChild "Left" pid (execBinTreeChild mDepth (.exit 0))
              else
                .fork fun right =>
                  if right = 0 then printChild "Right" pid (execBinTreeChild mDepth (.exit 0))
                  else .wait (.wait (.exit 0))
          else .exit 0
  | _ => usage argv

def project : Project Label Call where
  code
    | .BinTree argv => BinTree argv
    | .BinTreeChild argv => BinTreeChild argv
  load path argv := if path = str "./BinTreeChild" then some (.BinTreeChild argv) else none

/-! ## §2. What they grow. -/

theorem decrement_grows {b k f : Nat} {x : Int} {next : Int → Code Label Call} (hx : x ≠ -2 ^ 31)
    (h : Grows project b k f (next (x - 1))) : Grows project b k f (decrement x next) := by
  rw [decrement, if_neg hx]
  exact h

theorem printChild_grows {b k f : Nat} {side : String} {pid : Int} {next : Code Label Call}
    (h : Grows project b k f next) : Grows project b k f (printChild side pid next) :=
  .call fun _ => .printf h

theorem load_BinTreeChild (argv : List CString) :
    project.load (str "./BinTreeChild") argv = some (.BinTreeChild argv) := by
  simp [project]

theorem execBinTreeChild_grows {b k f : Nat} {mDepth : Int} {failed : Code Label Call}
    (h : Grows project b k f (BinTreeChild [str "./BinTreeChild", decimal mDepth])) :
    Grows project b k f (execBinTreeChild mDepth failed) := .execl (load_BinTreeChild _) h

/-- Two forks, and a `wait` for each. -/
theorem grows_two {k : Nat} {next : Int → Code Label Call} (hleft : Grows project 2 k 0 (next 0))
    (hright : ∀ left, 0 < left → ∃ next', next left = .fork next' ∧
      Grows project 2 k 0 (next' 0) ∧ ∀ right, 0 < right → next' right = .wait (.wait (.exit 0))) :
    Grows project 2 (k + 1) 0 (.fork next) := by
  refine .fork hleft ?_
  intro left hpos
  obtain ⟨next', hnext, hchild, hparent⟩ := hright left hpos
  rw [hnext]
  refine .fork hchild ?_
  intro right hpos'
  rw [hparent right hpos']
  exact .wait (.wait (.exit rfl))

/-- The number that a `BinTreeChild` reads is the one its parent printed. -/
theorem atoi_decimal {m : Nat} (h : m < 2 ^ 31) : atoi (decimal m) = m := by
  have hread := leadingNumber_decimal m
  rw [atoi_eq (by rw [hread]; omega), hread]

/-- **THE TREE OF `BinTreeChild m`**: one level for every two that its argument
counts, since every generation subtracts 2. -/
theorem BinTreeChild_grows (m : Nat) : ∀ (argv₀ : CString) {number : CString},
    atoi number = m → 1 ≤ m → Grows project 2 ((m + 1) / 2) 0 (BinTreeChild [argv₀, number]) := by
  induction m using Nat.strong_induction_on with
  | _ m ih =>
      intro argv₀ number hnumber hm
      have hrange := (atoi_range number).2
      -- each child is a leaf, or executes `BinTreeChild (m - 2)`
      have hchild : ∀ side pid,
          Grows project 2 ((m - 1) / 2) 0 (grandchild side pid ((m : Int) - 1)) := by
        intro side pid
        refine printChild_grows (decrement_grows (by omega) ?_)
        by_cases hleaf : m ≤ 2
        · rw [if_neg (by omega)]
          exact .exit (by rw [if_pos (by omega)])
        · rw [if_pos (by omega)]
          have hcast : (m : Int) - 1 - 1 = ((m - 2 : Nat) : Int) := by omega
          have hsub := ih (m - 2) (by omega) (str "./BinTreeChild")
            (atoi_decimal (m := m - 2) (by omega)) (by omega)
          rw [hcast]
          refine execBinTreeChild_grows ?_
          have hlevels : (m - 2 + 1) / 2 = (m - 1) / 2 := by omega
          rwa [hlevels] at hsub
      have hlevels : (m + 1) / 2 = (m - 1) / 2 + 1 := by omega
      rw [hlevels]
      show Grows project 2 ((m - 1) / 2 + 1) 0 (decrement (atoi number) fun mDepth => _)
      refine decrement_grows (by omega) (.call fun pid => grows_two ?_ ?_)
      · rw [if_neg (by decide), if_pos rfl, hnumber]
        exact hchild "Left" pid
      · intro left hleft
        rw [if_neg (by omega), if_neg (by omega)]
        refine ⟨_, rfl, ?_, ?_⟩
        · rw [if_neg (by decide), if_pos rfl, hnumber]
          exact hchild "Right" pid
        · intro right hright
          rw [if_neg (by omega), if_neg (by omega)]

/-- The height of the tree of `BinTree`, when `atoi` gives `n`. -/
def height (n : Int) : Nat := if n ≤ 1 then 0 else n.toNat / 2 + 1

/-- **THE TREE OF `BinTree`.** -/
theorem BinTree_grows (argv₀ : CString) {number : CString} (hmin : atoi number ≠ -2 ^ 31) :
    Grows project 2 (height (atoi number)) 0 (BinTree [argv₀, number]) := by
  have hrange := atoi_range number
  show Grows project 2 (height (atoi number)) 0 (decrement (atoi number) fun mDepth => _)
  refine decrement_grows hmin ?_
  by_cases hneg : atoi number - 1 < 0
  · rw [if_pos hneg, height, if_pos (by omega)]
    exact .printf (.exit rfl)
  · rw [if_neg hneg]
    refine .call fun pid => .printf ?_
    by_cases hzero : atoi number - 1 > 0
    · rw [if_pos hzero, height, if_neg (by omega)]
      obtain ⟨m, hm⟩ := Int.eq_ofNat_of_zero_le (show 0 ≤ atoi number - 1 by omega)
      have hlevels : (atoi number).toNat / 2 = (m + 1) / 2 := by omega
      have hchild := BinTreeChild_grows m (str "./BinTreeChild") (atoi_decimal (by omega))
        (by omega)
      rw [hm, hlevels]
      refine grows_two ?_ ?_
      · rw [if_pos rfl]
        exact printChild_grows (execBinTreeChild_grows hchild)
      · intro left hleft
        rw [if_neg (by omega)]
        refine ⟨_, rfl, ?_, ?_⟩
        · rw [if_pos rfl]
          exact printChild_grows (execBinTreeChild_grows hchild)
        · intro right hright
          rw [if_neg (by omega)]
    · rw [if_neg hzero, height, if_pos (by omega)]
      exact .exit rfl

end ConcurrencyCrypto.Trees
