/-
  ConcurrencyCrypto.Shells.Forking
  ────────────────────────────────
  What the four shells have in common: every command that needs a child
  forks it in one way, and the loop waits for it at its end.

  `did_fork` is set where the parent goes on behind `fork`; both other ways
  out of `fork` leave the turn at once.
-/
import ConcurrencyCrypto.Library.Reaping

namespace ConcurrencyCrypto.Shells

open ConcurrencyCrypto.Library

variable {L C : Type}

/-! ## §1. The code. -/

/-- `if (did_fork) wait(NULL);` and the end of the turn. -/
def afterChain (loop : L) (did_fork : Int) : Code L C :=
  if did_fork ≠ 0 then .wait (.goto loop) else .goto loop

/-- What follows `pid_t pid = fork();`. -/
def afterFork (loop : L) (child : Code L C) (pid : Int) : Code L C :=
  if pid < 0 then .perror (str "fork") (.goto loop)
  else if pid = 0 then child
  else afterChain loop 1

/-- The fork of a command. -/
def forkChild (loop : L) (child : Code L C) : Code L C := .fork (afterFork loop child)

/-- A child that executes a program. -/
def execChild (path : CString) (argv : List CString) (failure : CString) : Code L C :=
  .execl path argv (.perror failure (.exit 1))

/-- A shell: its code, the labels of its own loop, and its prompt. -/
structure ShellProgram where
  L : Type
  C : Type
  code : L → Code L C
  main : L
  own : L → Prop
  prompt : CString

/-- The shells execute no program of which the code is given here. -/
def ShellProgram.project (shell : ShellProgram) : Project shell.L shell.C :=
  ⟨shell.code, fun _ _ => none⟩

@[simp] theorem afterFork_failed (loop : L) (child : Code L C) :
    afterFork loop child (-1) = .perror (str "fork") (.goto loop) := if_pos (by decide)

@[simp] theorem afterFork_child (loop : L) (child : Code L C) :
    afterFork loop child 0 = child := by
  rw [afterFork, if_neg (by decide), if_pos rfl]

theorem afterFork_parent (loop : L) (child : Code L C) {pid : Int} (h : 0 < pid) :
    afterFork loop child pid = .wait (.goto loop) := by
  rw [afterFork, if_neg (by omega), if_neg (by omega)]
  rfl

/-! ## §2. The children that are left. -/

section discipline
variable {prompt : CString} {own : L → Prop} {loop : L}

/-- A turn that has not forked. -/
theorem afterChain_disciplined (hloop : own loop) :
    Disciplined prompt own (afterChain loop 0 : Code L C) 0 := ⟨hloop, rfl⟩

/-- **A FORK LEAVES NO CHILD BEHIND**, whether it fails or not. -/
theorem forkChild_disciplined (hloop : own loop) {child : Code L C}
    (hchild : ChildSafe prompt own child) : Disciplined prompt own (forkChild loop child) 0 := by
  refine ⟨?_, ?_, ?_⟩
  · rw [afterFork_failed]
    exact ⟨hloop, rfl⟩
  · rw [afterFork_child]
    exact hchild
  · intro pid hpid
    rw [afterFork_parent loop child hpid]
    -- one child is left, and waited for
    exact ⟨hloop, rfl⟩

theorem execChild_safe (path : CString) (argv : List CString) (failure : CString) :
    ChildSafe prompt own (execChild path argv failure : Code L C) := trivial

theorem printAll_safe {texts : List CString} (htexts : ∀ text ∈ texts, text ≠ prompt)
    {next : Code L C} (hnext : ChildSafe prompt own next) :
    ChildSafe prompt own (printAll texts next) := by
  induction texts with
  | nil => exact hnext
  | cons text texts ih =>
      exact ⟨htexts text List.mem_cons_self,
        ih fun text' h => htexts text' (List.mem_cons_of_mem text h)⟩

end discipline

/-! ## §3. The trace of a command. -/

/-- The trace after a command that prints `entering` in the child and then
executes a program. -/
def commandTrace (K : Oracle C) (past : List (Effect C)) (entering : List CString)
    (path : CString) (argv : List CString) (failure : CString) : List (Effect C) :=
  if K.forkFails past then past ++ [Effect.forked true, .perror (str "fork")]
  else
    let inChild := past ++ Effect.forked false :: entering.map Effect.printed
    if K.execFails inChild then inChild ++ [Effect.execed path argv true, .perror failure, .waited]
    else inChild ++ [Effect.execed path argv false, .waited]

theorem commandTrace_forked (K : Oracle C) (past : List (Effect C)) (entering : List CString)
    (path : CString) (argv : List CString) (failure : CString) :
    ∃ failed,
      past ++ [Effect.forked failed] <+: commandTrace K past entering path argv failure := by
  unfold commandTrace
  by_cases hfork : K.forkFails past = true
  · rw [if_pos hfork]
    exact ⟨true, [Effect.perror (str "fork")], by rw [List.append_assoc]; rfl⟩
  · rw [if_neg hfork]
    refine ⟨false, ?_⟩
    have hfront : past ++ [Effect.forked false]
        <+: past ++ Effect.forked false :: entering.map Effect.printed :=
      ⟨entering.map Effect.printed, by rw [List.append_assoc]; rfl⟩
    extract_lets inChild
    split
    · exact hfront.trans (List.prefix_append _ _)
    · exact hfront.trans (List.prefix_append _ _)

theorem run_printAll (K : Oracle C) (texts : List CString) (next : Code L C) :
    ∀ s : Console C, (printAll texts next).run K s
      = next.run K { s with events := s.events ++ texts.map Effect.printed } := by
  induction texts with
  | nil =>
      intro s
      rw [List.map_nil, List.append_nil]
      rfl
  | cons text texts ih =>
      intro s
      show (printAll texts next).run K (s.emit (.printed text)) = _
      rw [ih, List.map_cons, Console.emit_events, List.append_assoc]
      rfl

/-- **THE RUN OF A COMMAND** is that trace, and the loop goes round. -/
theorem run_command (K : Oracle C) (loop : L) (entering : List CString) (path : CString)
    (argv : List CString) (failure : CString) (stdin : List UInt8) (past : List (Effect C)) :
    (forkChild loop (printAll entering (execChild path argv failure))).run K ⟨stdin, 0, past⟩
      = (.goto loop, ⟨stdin, 0, commandTrace K past entering path argv failure⟩) := by
  unfold commandTrace forkChild
  by_cases hfork : K.forkFails past = true
  · rw [if_pos hfork, Code.run_fork_fails hfork, afterFork_failed]
    show (Stop.goto loop, Console.mk stdin 0
      (past ++ [Effect.forked true] ++ [Effect.perror (str "fork")])) = _
    rw [List.append_assoc]
    rfl
  · rw [if_neg hfork]
    have hpid : 0 < (past.length + 1 : Int) := by omega
    -- the child, up to its `execl`
    have hchild : (afterFork loop (printAll entering (execChild path argv failure)) 0).run K
        ⟨stdin, 0, past ++ [Effect.forked false]⟩
          = (execChild path argv failure : Code L C).run K
              ⟨stdin, 0, past ++ Effect.forked false :: entering.map Effect.printed⟩ := by
      rw [afterFork_child, run_printAll, List.append_assoc]
      rfl
    by_cases hexec : K.execFails (past ++ Effect.forked false :: entering.map Effect.printed) = true
    · rw [if_pos hexec, Code.run_fork hfork (hchild.trans (if_pos hexec)) (Or.inl ⟨1, rfl⟩),
        afterFork_parent loop _ hpid]
      simp only [Code.run, Console.emit, Nat.zero_add, Nat.one_ne_zero, if_false, Nat.sub_self,
        List.append_assoc, List.cons_append, List.nil_append]
    · rw [if_neg hexec, Code.run_fork hfork (hchild.trans (if_neg hexec)) (Or.inr rfl),
        afterFork_parent loop _ hpid]
      simp only [Code.run, Console.emit, Nat.zero_add, Nat.one_ne_zero, if_false, Nat.sub_self,
        List.append_assoc, List.cons_append, List.nil_append]

end ConcurrencyCrypto.Shells
