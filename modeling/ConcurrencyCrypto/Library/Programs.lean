/-
  ConcurrencyCrypto.Library.Programs
  ──────────────────────────────────
  **PROGRAMS THAT PRINT, READ, `fork` AND `exec`.**

  `Code L C` is what a process still has to do: a tree whose nodes are the
  calls that the rest of the world sees, and whose branches are the values
  these calls may return.  What lies between two calls is computed in Lean.  A
  loop of the program is a label of the type `L`, and `goto` ends a turn of
  it; the calls of the type `C` answer with a number and are not looked into.

  `Code.run` runs a program alone: a child runs to its end before its parent
  goes on, and what a process has not read yet stays its own.  On the streams
  that a process shares with its children `Library.StreamRuns` runs the same
  code, and says when that is the same.  Which calls of `fork` and `execl` fail
  is an `Oracle`: any pattern of failures is one.

    • `Code.run_grows`  — the trace is only ever added to,
    • `execute_grows`   — so also over a whole run.
-/
import ConcurrencyCrypto.Library.Iteration
import ConcurrencyCrypto.Library.Lines

namespace ConcurrencyCrypto.Library

/-! ## §1. Programs. -/

/-- The code of a process from one point on. -/
inductive Code (L C : Type) where
  | printf (text : CString) (next : Code L C)
  | perror (text : CString) (next : Code L C)
  /-- `scanf` with `n` conversions `%s` into arrays of `capacity` bytes. -/
  | scanf (capacity n : Nat) (next : Int → List CString → Code L C)
  /-- `fgets(line, size, stdin)`; `none` is NULL. -/
  | fgets (size : Nat) (next : Option (List UInt8) → Code L C)
  | call (c : C) (next : Int → Code L C)
  /-- -1 when it fails, 0 in the child, the child's number in the parent. -/
  | fork (next : Int → Code L C)
  /-- `wait(NULL)`. -/
  | wait (next : Code L C)
  /-- `execl` or `execlp`: it returns only when it fails. -/
  | execl (path : CString) (argv : List CString) (failed : Code L C)
  | goto (l : L)
  | exit (status : Int)
  /-- Undefined behaviour. -/
  | undefined

/-- What a call leaves on record. -/
inductive Effect (C : Type) where
  | printed (text : CString)
  | perror (text : CString)
  /-- What `scanf` stored, and the number of bytes left in the input. -/
  | scanned (ws : List (List UInt8)) (left : Nat)
  /-- What `fgets` stored. -/
  | got (line : Option (List UInt8))
  | called (c : C) (result : Int)
  | forked (failed : Bool)
  | execed (path : CString) (argv : List CString) (failed : Bool)
  /-- `wait` has found a child that had ended. -/
  | waited
  deriving DecidableEq

section
variable {L C : Type}

/-- `sscanf(line, …)` with `n` conversions `%s` into arrays of `capacity`
bytes. -/
def sscanf (capacity n : Nat) (line : List UInt8) (next : Int → List CString → Code L C) :
    Code L C :=
  let ws := (scanf n (cString line)).1
  if ws.all (·.length < capacity) then next (scanfResult ws) ws else .undefined

/-- Several `printf`. -/
def printAll (texts : List CString) (next : Code L C) : Code L C :=
  texts.foldr .printf next

/-! ## §2. A program that runs alone. -/

/-- The answers of the kernel: whether call number `n` of `fork` fails, or of
`execl`, and what another call of the program returns. -/
structure Oracle (C : Type) where
  forkCall : Nat → Bool
  execCall : Nat → Bool
  result : Nat → C → Int

def Effect.isFork : Effect C → Bool
  | .forked _ => true
  | _ => false

def Effect.isExec : Effect C → Bool
  | .execed _ _ _ => true
  | _ => false

def Effect.isCall : Effect C → Bool
  | .called _ _ => true
  | _ => false

namespace Oracle

/-- Whether the next `fork` fails, when `past` has happened so far. -/
def forkFails (K : Oracle C) (past : List (Effect C)) : Bool :=
  K.forkCall (past.countP Effect.isFork)

def execFails (K : Oracle C) (past : List (Effect C)) : Bool :=
  K.execCall (past.countP Effect.isExec)

def answer (K : Oracle C) (past : List (Effect C)) (c : C) : Int :=
  K.result (past.countP Effect.isCall) c

end Oracle

/-- The state of a process that runs alone. -/
structure Console (C : Type) where
  stdin : List UInt8
  /-- The children that have ended and not been waited for. -/
  zombies : Nat
  events : List (Effect C)

/-- How a turn ends. -/
inductive Stop (L : Type) where
  | goto (l : L)
  | exited (status : Int)
  | execed
  | undefined
  deriving DecidableEq

namespace Console

def start (stdin : List UInt8) : Console C := ⟨stdin, 0, []⟩

def emit (s : Console C) (e : Effect C) : Console C := { s with events := s.events ++ [e] }

end Console

/-- One turn of a process. -/
def Code.run (K : Oracle C) : Code L C → Console C → Stop L × Console C
  | .printf text next, s => next.run K (s.emit (.printed text))
  | .perror text next, s => next.run K (s.emit (.perror text))
  | .scanf capacity n next, s =>
      let ws := (Library.scanf n s.stdin).1
      let rest := (Library.scanf n s.stdin).2
      if ws.all (·.length < capacity) then
        (next (scanfResult ws) (ws.map cString)).run K
          ({ s with stdin := rest }.emit (.scanned ws rest.length))
      else (.undefined, s)
  | .fgets size next, s =>
      if s.stdin = [] then (next none).run K (s.emit (.got none))
      else
        let line := (Library.fgets (size - 1) s.stdin).1
        (next (some line)).run K
          ({ s with stdin := (Library.fgets (size - 1) s.stdin).2 }.emit (.got (some line)))
  | .call c next, s =>
      (next (K.answer s.events c)).run K (s.emit (.called c (K.answer s.events c)))
  | .fork next, s =>
      if K.forkFails s.events then (next (-1)).run K (s.emit (.forked true))
      else
        match (next 0).run K ({ s with zombies := 0 }.emit (.forked false)) with
        -- a child that loops is not followed
        | (.goto _, child) => (.undefined, child)
        | (.undefined, child) => (.undefined, child)
        | (_, child) =>
            (next (s.events.length + 1)).run K
              { child with stdin := s.stdin, zombies := s.zombies + 1 }
  | .wait next, s =>
      if s.zombies = 0 then next.run K s
      else next.run K ({ s with zombies := s.zombies - 1 }.emit .waited)
  | .execl path argv failed, s =>
      if K.execFails s.events then failed.run K (s.emit (.execed path argv true))
      else (.execed, s.emit (.execed path argv false))
  | .goto l, s => (.goto l, s)
  | .exit status, s => (.exited status, s)
  | .undefined, s => (.undefined, s)

/-- One turn of the loop at a label. -/
def turn (K : Oracle C) (prog : L → Code L C) :
    L × Console C → (L × Console C) ⊕ (Stop L × Console C)
  | (l, s) =>
      match (prog l).run K s with
      | (.goto l', s') => .inl (l', s')
      | (stop, s') => .inr (stop, s')

/-- A run from label `l` on: how it ends, and the state it ends in. -/
def execute (K : Oracle C) (prog : L → Code L C) (fuel : Nat) (l : L) (s : Console C) :
    Option (Stop L × Console C) :=
  iterate (turn K prog) fuel (l, s)

end

/-! ## §3. Rules. -/

section rules
variable {L C : Type} {K : Oracle C} {prog : L → Code L C}

@[simp] theorem Console.emit_events (s : Console C) (e : Effect C) :
    (s.emit e).events = s.events ++ [e] := rfl

theorem Console.events_prefix_emit (s : Console C) (e : Effect C) :
    s.events <+: (s.emit e).events := ⟨[e], rfl⟩

/-- `sscanf` takes the next words of the line. -/
theorem sscanf_eq {capacity n : Nat} {line : List UInt8} {next : Int → List CString → Code L C}
    (h : ∀ w ∈ words (cString line), w.length < capacity) :
    sscanf capacity n line next = next (scanfResult ((words (cString line)).take n))
      ((words (cString line)).take n) := by
  have hfit : (((words (cString line)).take n).all fun w => w.length < capacity) = true := by
    rw [List.all_eq_true]
    intro w hw
    simpa using h w (List.mem_of_mem_take hw)
  unfold sscanf
  rw [(scanf_eq n (cString line)).1, if_pos hfit]

/-- **A TURN ONLY ADDS TO THE TRACE.** -/
theorem Code.run_grows (code : Code L C) : ∀ s : Console C,
    s.events <+: (code.run K s).2.events := by
  induction code with
  | printf text next ih | perror text next ih =>
      exact fun s => (s.events_prefix_emit _).trans (ih _)
  | scanf capacity n next ih =>
      intro s
      unfold Code.run
      by_cases hfit : ((Library.scanf n s.stdin).1.all (·.length < capacity)) = true
      · simp only [if_pos hfit]
        refine List.IsPrefix.trans ?_ (ih _ _ _)
        exact List.prefix_append _ _
      · simp only [if_neg hfit]
        exact List.prefix_refl _
  | fgets size next ih =>
      intro s
      unfold Code.run
      by_cases hnil : s.stdin = []
      · rw [if_pos hnil]
        exact (s.events_prefix_emit _).trans (ih _ _)
      · rw [if_neg hnil]
        refine List.IsPrefix.trans ?_ (ih _ _)
        exact List.prefix_append _ _
  | call c next ih => exact fun s => (s.events_prefix_emit _).trans (ih _ _)
  | fork next ih =>
      intro s
      unfold Code.run
      by_cases hfork : K.forkFails s.events = true
      · rw [if_pos hfork]
        exact (s.events_prefix_emit _).trans (ih _ _)
      · rw [if_neg hfork]
        have hchild := (s.events_prefix_emit (.forked false)).trans
          (ih 0 ({ s with zombies := 0 }.emit (.forked false)))
        revert hchild
        generalize (next 0).run K _ = ended
        obtain ⟨stop, child⟩ := ended
        intro hchild
        cases stop with
        | goto l => exact hchild
        | undefined => exact hchild
        | exited status =>
            refine List.IsPrefix.trans ?_ (ih _ _)
            exact hchild
        | execed =>
            refine List.IsPrefix.trans ?_ (ih _ _)
            exact hchild
  | wait next ih =>
      intro s
      unfold Code.run
      by_cases hz : s.zombies = 0
      · rw [if_pos hz]
        exact ih s
      · rw [if_neg hz]
        refine List.IsPrefix.trans ?_ (ih _)
        exact List.prefix_append _ _
  | execl path argv failed ih =>
      intro s
      unfold Code.run
      by_cases hexec : K.execFails s.events = true
      · rw [if_pos hexec]
        exact (s.events_prefix_emit _).trans (ih _)
      · rw [if_neg hexec]
        exact s.events_prefix_emit _
  | goto l => exact fun s => List.prefix_refl _
  | exit status => exact fun s => List.prefix_refl _
  | undefined => exact fun s => List.prefix_refl _

theorem Code.run_scanf {capacity n : Nat} {next : Int → List CString → Code L C} {s : Console C}
    {ws : List (List UInt8)} {rest : List UInt8} (hscan : Library.scanf n s.stdin = (ws, rest))
    (hfit : ∀ w ∈ ws, w.length < capacity) :
    (Code.scanf capacity n next).run K s = (next (scanfResult ws) (ws.map cString)).run K
      ({ s with stdin := rest }.emit (.scanned ws rest.length)) := by
  have hall : (ws.all fun w => w.length < capacity) = true := by
    rw [List.all_eq_true]
    intro w hw
    simpa using hfit w hw
  rw [Code.run]
  simp only [hscan]
  rw [if_pos hall]

theorem Code.run_fgets_line {size : Nat} {next : Option (List UInt8) → Code L C} {s : Console C}
    (h : s.stdin ≠ []) :
    (Code.fgets size next).run K s = (next (some (Library.fgets (size - 1) s.stdin).1)).run K
      ({ s with stdin := (Library.fgets (size - 1) s.stdin).2 }.emit
        (.got (some (Library.fgets (size - 1) s.stdin).1))) := if_neg h

theorem Code.run_fork_fails {next : Int → Code L C} {s : Console C}
    (h : K.forkFails s.events = true) :
    (Code.fork next).run K s = (next (-1)).run K (s.emit (.forked true)) := if_pos h

/-- The child has ended, or has become another program, when the parent goes
on. -/
theorem Code.run_fork {next : Int → Code L C} {s child : Console C} {stop : Stop L}
    (h : ¬ K.forkFails s.events = true)
    (hchild : (next 0).run K ({ s with zombies := 0 }.emit (.forked false)) = (stop, child))
    (hstop : (∃ status, stop = .exited status) ∨ stop = .execed) :
    (Code.fork next).run K s = (next (s.events.length + 1)).run K
      { child with stdin := s.stdin, zombies := s.zombies + 1 } := by
  rw [Code.run, if_neg h, hchild]
  rcases hstop with ⟨status, rfl⟩ | rfl
  · rfl
  · rfl

/-- Two traces that part. -/
theorem ne_of_prefix {α : Type} {past t u : List α} {x y : α} (hx : past ++ [x] <+: t)
    (hy : past ++ [y] <+: u) (hne : x ≠ y) : t ≠ u := by
  rintro rfl
  have hlen : (past ++ [x]).length = (past ++ [y]).length := by simp
  have heq := (List.prefix_of_prefix_length_le hx hy (Nat.le_of_eq hlen)).eq_of_length hlen
  exact hne (List.singleton_injective (List.append_cancel_left heq))

/-- A turn that goes round. -/
theorem execute_goto {l l' : L} {s s' : Console C} (h : (prog l).run K s = (.goto l', s'))
    (fuel : Nat) : execute K prog (fuel + 1) l s = execute K prog fuel l' s' := by
  refine iterate_next ?_ fuel
  simp only [turn, h]

/-- A turn that ends the run. -/
theorem execute_stop {l : L} {s s' : Console C} {stop : Stop L}
    (h : (prog l).run K s = (stop, s')) (hstop : ∀ l', stop ≠ .goto l') (fuel : Nat) :
    execute K prog (fuel + 1) l s = some (stop, s') := by
  refine iterate_leave ?_ fuel
  cases stop with
  | goto l' => exact absurd rfl (hstop l')
  | exited status => simp only [turn, h]
  | execed => simp only [turn, h]
  | undefined => simp only [turn, h]

theorem execute_exit {l : L} {s s' : Console C} {status : Int}
    (h : (prog l).run K s = (.exited status, s')) (fuel : Nat) :
    execute K prog (fuel + 1) l s = some (.exited status, s') := by
  refine execute_stop h ?_ fuel
  intro l' hl
  cases hl

/-- **A RUN ONLY ADDS TO THE TRACE.** -/
theorem execute_grows (fuel : Nat) : ∀ {l : L} {s s' : Console C} {stop : Stop L},
    execute K prog fuel l s = some (stop, s') → s.events <+: s'.events := by
  induction fuel with
  | zero => exact fun h => nomatch h
  | succ fuel ih =>
      intro l s s' stop h
      have hgrow := (prog l).run_grows (K := K) s
      rcases hrun : (prog l).run K s with ⟨stop', t⟩
      rw [hrun] at hgrow
      by_cases hgoto : ∃ l', stop' = .goto l'
      · obtain ⟨l', rfl⟩ := hgoto
        rw [execute_goto hrun] at h
        exact hgrow.trans (ih h)
      · rw [execute_stop hrun (fun l' hl => hgoto ⟨l', hl⟩)] at h
        cases h
        exact hgrow

/-- The trace of a run begins with that of its first turn. -/
theorem execute_first_turn {fuel : Nat} {l : L} {s s' : Console C} {stop : Stop L}
    (h : execute K prog fuel l s = some (stop, s')) :
    ((prog l).run K s).2.events <+: s'.events := by
  cases fuel with
  | zero => exact nomatch h
  | succ fuel =>
      rcases hrun : (prog l).run K s with ⟨stop', t⟩
      by_cases hgoto : ∃ l', stop' = .goto l'
      · obtain ⟨l', rfl⟩ := hgoto
        rw [execute_goto hrun] at h
        exact execute_grows fuel h
      · rw [execute_stop hrun (fun l' hl => hgoto ⟨l', hl⟩)] at h
        cases h
        exact List.prefix_refl _

end rules

end ConcurrencyCrypto.Library
