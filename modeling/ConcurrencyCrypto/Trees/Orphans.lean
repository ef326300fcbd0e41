/-
  ConcurrencyCrypto.Trees.Orphans
  ───────────────────────────────
  **WHO WAITS FOR WHOM IN `binary-tree`** when calls of `fork` fail.

  `BinTree` waits twice whatever its forks return.  A `BinTreeChild` exits
  where one of them fails, and then does not wait for the other child.

    • `ended_processes_waited`        — it says `Fork failed` when it does that,
    • `ended_processes_waited_orphan` — and it does happen.
-/
import ConcurrencyCrypto.Library.Orphans
import ConcurrencyCrypto.Trees.Levels

namespace ConcurrencyCrypto.Trees

open ConcurrencyCrypto.Library

/-! ## §1. The two programs. -/

def forkFailed : CString := str "Fork failed"

theorem decrement_tidy {n : Nat} {x : Int} {next : Int → Code Label Call}
    (h : Tidy forkFailed (next (x - 1)) n) : Tidy forkFailed (decrement x next) n := by
  unfold decrement
  split
  · trivial
  · exact h

theorem execBinTreeChild_tidy (mDepth status : Int) :
    Tidy forkFailed (execBinTreeChild mDepth (.exit status)) 0 := ⟨rfl, rfl⟩

theorem grandchild_tidy (side : String) (pid mDepth : Int) :
    Tidy forkFailed (grandchild side pid mDepth) 0 := by
  intro own
  refine decrement_tidy ?_
  split
  · exact execBinTreeChild_tidy _ 0
  · rfl

theorem usage_tidy (argv : List CString) : Tidy forkFailed (usage argv) 0 := rfl

/-- **`BinTreeChild` LEAVES A CHILD** only where its second `fork` fails. -/
theorem BinTreeChild_tidy (argv : List CString) : Tidy forkFailed (BinTreeChild argv) 0 := by
  unfold BinTreeChild
  split
  · next argv₀ number =>
      refine decrement_tidy fun pid => ⟨?_, ?_, ?_⟩
      · exact Or.inl ⟨rfl, Nat.zero_le 1, 1, rfl⟩
      · exact grandchild_tidy "Left" pid _
      · intro left hleft
        beta_reduce
        rw [if_neg (by omega), if_neg (by omega)]
        refine ⟨Or.inl ⟨rfl, Nat.le_refl 1, 1, rfl⟩, grandchild_tidy "Right" pid _, ?_⟩
        intro right hright
        beta_reduce
        rw [if_neg (by omega), if_neg (by omega)]
        rfl
  · exact usage_tidy argv

/-- `BinTree` waits for both children, or for the one that could be forked. -/
theorem second_tidy {n : Nat} (hn : n ≤ 1) (pid mDepth : Int) :
    Tidy forkFailed (.fork fun right =>
      if right = 0 then printChild "Right" pid (execBinTreeChild mDepth (.exit 0))
      else .wait (.wait (.exit 0))) n := by
  refine ⟨?_, ?_, ?_⟩
  · show n - 1 - 1 = 0
    omega
  · intro own
    exact execBinTreeChild_tidy mDepth 0
  · intro right hright
    beta_reduce
    rw [if_neg (by omega)]
    show n + 1 - 1 - 1 = 0
    omega

/-- `BinTree` leaves no child, whatever fails. -/
theorem BinTree_tidy (argv : List CString) : Tidy forkFailed (BinTree argv) 0 := by
  unfold BinTree
  split
  · next argv₀ number =>
      refine decrement_tidy ?_
      split
      · rfl
      · intro pid
        show Tidy forkFailed (if atoi number - 1 > 0 then _ else _) 0
        split
        · refine ⟨second_tidy (Nat.zero_le 1) pid _, ?_, ?_⟩
          · intro own
            exact execBinTreeChild_tidy (atoi number - 1) 0
          · intro left hleft
            beta_reduce
            rw [if_neg (by omega)]
            exact second_tidy (Nat.le_refl 1) pid _
        · rfl
  · exact usage_tidy argv

theorem project_tidy (l : Label) : Tidy forkFailed (project.code l) 0 := by
  cases l with
  | BinTree argv => exact BinTree_tidy argv
  | BinTreeChild argv => exact BinTreeChild_tidy argv

/-! ## §2. All runs. -/

/-- **WHO IS WAITED FOR**, on every command line and whatever fails: a process
that has ended has left one child at most, and none as long as nobody has said
`Fork failed`; until then `BinTree` ends last. -/
theorem ended_processes_waited (argv : List CString) (stdin : List UInt8) {s : System Label Call}
    (h : Reaches (System.step project) (System.start (.BinTree argv) stdin) s) :
    (∀ p q, s.process p = some q → q.status.isEnded = true →
      (s.process.left p).card ≤ 1 ∧
        (.perror forkFailed ∉ s.events → s.process.left p = ∅)) ∧
    ∀ q, s.process [] = some q → q.status.isEnded = true → .perror forkFailed ∉ s.events →
      ∀ p c, p ≠ [] → s.process p = some c → c.status = .reaped := by
  have ht := tended_of_tidy project_tidy h
  refine ⟨?_, ?_⟩
  · intro p q hp hended
    rcases ht.ended hp hended with hnone | ⟨hsaid, hle⟩
    · rw [hnone]
      exact ⟨Nat.zero_le 1, fun _ => rfl⟩
    · exact ⟨hle, fun hquiet => absurd hsaid hquiet⟩
  · intro q hq hended hquiet p c hne hc
    exact reaped_of_tended ht hquiet hq hended List.nil_suffix hne hc

/-- Statuses to look at: of `BinTree`, of its left child, and of the left child
of that one. -/
def leftmost (s : System Label Call) : List (Option (Bool × Bool)) :=
  [[], [0], [0, 0]].map fun p =>
    (s.process p).map fun q => (q.status.isEnded, q.status.isReaped)

/-- **AN ORPHAN**: the right fork of a `BinTreeChild` fails, and `BinTree` ends
while the grandchild on the left still runs. -/
theorem ended_processes_waited_orphan :
    ∃ s, Reaches (System.step project)
        (System.start (.BinTree [str "./BinTree", str "3"]) []) s ∧
      leftmost s = [some (true, false), some (true, true), some (false, false)] ∧
      .perror forkFailed ∈ s.events := by
  obtain ⟨s, hreach, hs⟩ : ∃ s, Reaches (System.step project)
      (System.start (.BinTree [str "./BinTree", str "3"]) []) s ∧
        leftmost s = [some (true, false), some (true, true), some (false, false)] :=
    exists_reaches
      [.run [] 0, .run [] 7, .run [] 0, .run [] 1, .fails [],
        .run [0] 8, .run [0] 0, .run [0] 0, .run [0] 0, .run [0] 8, .run [0] 1, .fails [0],
        .run [0] 0, .run [0] 0, .run [] 0, .run [] (-1), .run [] 0]
      leftmost (by decide +kernel)
  refine ⟨s, hreach, hs, ?_⟩
  by_contra hquiet
  injection hs with hroot hs
  injection hs with hleft hs
  injection hs with hleaf hs
  obtain ⟨q, hq, hended⟩ := Option.map_eq_some_iff.mp hroot
  obtain ⟨c, hc, hrunning⟩ := Option.map_eq_some_iff.mp hleaf
  have hreaped := (ended_processes_waited _ [] hreach).2 q hq (congrArg Prod.fst hended) hquiet
    [0, 0] c (List.cons_ne_nil _ _) hc
  rw [hreaped] at hrunning
  cases hrunning

end ConcurrencyCrypto.Trees
