/-
  ConcurrencyCrypto.Library.Processes
  ───────────────────────────────────
  **PROCESSES THAT `fork`, `exec`, `exit` AND `wait`.**

  A process is named by its address: the first process is `[]`, and `n :: p`
  is the child that process `p` forked as its number `n`.  An address is never
  used again, so the table also knows the processes that have been waited for.

  An action lets one process take its next step.  What the kernel answers is
  part of the action, so every failure and every order of steps is a run.  A
  program that is not of the project (`load` knows no code for it) is a
  process that may do anything until it ends.  The input of a process may
  change at any time, for others may read from the same file.

    • `System.step_cases`  — all that one action can do,
    • `System.Family`      — which addresses are in use: kept by every action.
-/
import ConcurrencyCrypto.Library.Programs
import ConcurrencyCrypto.Library.Transition

namespace ConcurrencyCrypto.Library

/-! ## §1. The machine. -/

/-- The address of a process, its own number first. -/
abbrev Pid := List Nat

inductive Status (L C : Type) where
  | running (code : Code L C)
  /-- A program of which nothing is known. -/
  | foreign (path : CString) (argv : List CString)
  /-- Ended, and not waited for. -/
  | zombie (status : Int)
  | reaped

structure Process (L C : Type) where
  status : Status L C
  stdin : List UInt8
  /-- The number of children forked so far. -/
  forks : Nat

/-- The processes there are or were. -/
abbrev Table (L C : Type) := Pid → Option (Process L C)

structure System (L C : Type) where
  process : Table L C
  events : List (Effect C)

/-- A program, and the programs of the project that it executes. -/
structure Project (L C : Type) where
  code : L → Code L C
  load : CString → List CString → Option L

inductive Act where
  /-- Process `p` makes its next call, which succeeds; `answer` is what the
  kernel answers, if the call has several results. -/
  | run (p : Pid) (answer : Int)
  /-- The `fork` or `execl` that process `p` makes next fails. -/
  | fails (p : Pid)
  /-- A foreign program ends. -/
  | ends (p : Pid) (status : Int)
  /-- The input of process `p` is now `text`. -/
  | input (p : Pid) (text : List UInt8)
  deriving DecidableEq

section machine
variable {L C : Type}

namespace Status

def isReaped : Status L C → Bool
  | .reaped => true
  | _ => false

def isZombie : Status L C → Bool
  | .zombie _ => true
  | _ => false

end Status

namespace Table

def set (t : Table L C) (p : Pid) (q : Process L C) : Table L C :=
  fun p' => if p' = p then some q else t p'

/-- There is no process at `p`, or it has been waited for. -/
def reaped (t : Table L C) (p : Pid) : Bool := (t p).all (·.status.isReaped)

/-- No child of `p` is left. -/
def childless (t : Table L C) (p : Pid) (q : Process L C) : Bool :=
  (List.range q.forks).all fun n => t.reaped (n :: p)

end Table

namespace System

/-- One process that begins at label `l`. -/
def start (l : L) (stdin : List UInt8) : System L C :=
  ⟨fun p => if p = [] then some ⟨.running (.goto l), stdin, 0⟩ else none, []⟩

def set (s : System L C) (p : Pid) (q : Process L C) : System L C :=
  { s with process := s.process.set p q }

def emit (s : System L C) (e : Effect C) : System L C := { s with events := s.events ++ [e] }

/-- Process `p`, which is `q`, makes the first call of its code. -/
def advance (P : Project L C) (s : System L C) (p : Pid) (q : Process L C) (answer : Int) :
    Code L C → Option (System L C)
  | .printf text next => some ((s.set p { q with status := .running next }).emit (.printed text))
  | .perror text next => some ((s.set p { q with status := .running next }).emit (.perror text))
  | .scanf capacity n next =>
      let ws := (scanf n q.stdin).1
      let rest := (scanf n q.stdin).2
      if ws.all (·.length < capacity) then
        some ((s.set p ⟨.running (next (scanfResult ws) (ws.map cString)), rest, q.forks⟩).emit
          (.scanned ws rest.length))
      else none
  | .fgets size next =>
      if q.stdin = [] then
        some ((s.set p { q with status := .running (next none) }).emit (.got none))
      else
        let line := (fgets (size - 1) q.stdin).1
        let rest := (fgets (size - 1) q.stdin).2
        some ((s.set p { q with status := .running (next (some line)), stdin := rest }).emit
          (.got (some line)))
  | .call c next =>
      some ((s.set p { q with status := .running (next answer) }).emit (.called c answer))
  | .fork next =>
      if 0 < answer then
        some (((s.set p ⟨.running (next answer), q.stdin, q.forks + 1⟩).set
          (q.forks :: p) ⟨.running (next 0), q.stdin, 0⟩).emit (.forked false))
      else none
  | .wait next =>
      if answer = -1 then
        -- ECHILD
        if s.process.childless p q then some (s.set p { q with status := .running next }) else none
      else
        match s.process (answer.toNat :: p) with
        | some c =>
            if c.status.isZombie then
              some (((s.set p { q with status := .running next }).set (answer.toNat :: p)
                { c with status := .reaped }).emit .waited)
            else none
        | none => none
  | .execl path argv _ =>
      let status : Status L C :=
        match P.load path argv with
        | some l => .running (.goto l)
        | none => .foreign path argv
      some ((s.set p { q with status := status }).emit (.execed path argv false))
  | .goto l => some (s.set p { q with status := .running (P.code l) })
  | .exit status => some (s.set p { q with status := .zombie status })
  | .undefined => none

/-- The first call of the code of process `p` fails. -/
def fail (s : System L C) (p : Pid) (q : Process L C) : Code L C → Option (System L C)
  | .fork next => some ((s.set p { q with status := .running (next (-1)) }).emit (.forked true))
  | .execl path argv failed =>
      some ((s.set p { q with status := .running failed }).emit (.execed path argv true))
  | _ => none

def step (P : Project L C) (s : System L C) : Act → Option (System L C)
  | .run p answer =>
      match s.process p with
      | some q =>
          match q.status with
          | .running code => s.advance P p q answer code
          | _ => none
      | none => none
  | .fails p =>
      match s.process p with
      | some q =>
          match q.status with
          | .running code => s.fail p q code
          | _ => none
      | none => none
  | .ends p status =>
      match s.process p with
      | some q =>
          match q.status with
          | .foreign _ _ => some (s.set p { q with status := .zombie status })
          | _ => none
      | none => none
  | .input p text =>
      match s.process p with
      | some q => some (s.set p { q with stdin := text })
      | none => none

end System

/-! ## §2. All that one action can do. -/

/-- A step that concerns one process alone; `failed` says that a call of it
has failed. -/
inductive Move (P : Project L C) : Bool → Status L C → Status L C → Prop where
  | printf (text next) : Move P false (.running (.printf text next)) (.running next)
  | perror (text next) : Move P false (.running (.perror text next)) (.running next)
  | scanf (capacity n next r ws) :
      Move P false (.running (.scanf capacity n next)) (.running (next r ws))
  | fgets (size next got) : Move P false (.running (.fgets size next)) (.running (next got))
  | call (c next r) : Move P false (.running (.call c next)) (.running (next r))
  | forkFails (next) : Move P true (.running (.fork next)) (.running (next (-1)))
  | execFails (path argv failed) :
      Move P true (.running (.execl path argv failed)) (.running failed)
  | exec (path argv failed l) (h : P.load path argv = some l) :
      Move P false (.running (.execl path argv failed)) (.running (.goto l))
  | foreign (path argv failed) (h : P.load path argv = none) :
      Move P false (.running (.execl path argv failed)) (.foreign path argv)
  | goto (l) : Move P false (.running (.goto l)) (.running (P.code l))
  | exit (status) : Move P false (.running (.exit status)) (.zombie status)
  | ends (path argv status) : Move P false (.foreign path argv) (.zombie status)
  | input (st) : Move P false st st

/-- What an action does to the table. -/
inductive Change (P : Project L C) (t : Table L C) : Bool → Table L C → Prop where
  /-- One process moves on. -/
  | move (failed p q st stdin) (hp : t p = some q) (hst : Move P failed q.status st) :
      Change P t failed (t.set p ⟨st, stdin, q.forks⟩)
  /-- `wait` without a child. -/
  | noChild (p q next) (hp : t p = some q) (hst : q.status = .running (.wait next))
      (hnone : t.childless p q = true) :
      Change P t false (t.set p ⟨.running next, q.stdin, q.forks⟩)
  | fork (p q next answer) (hp : t p = some q) (hst : q.status = .running (.fork next))
      (hanswer : 0 < answer) :
      Change P t false ((t.set p ⟨.running (next answer), q.stdin, q.forks + 1⟩).set
        (q.forks :: p) ⟨.running (next 0), q.stdin, 0⟩)
  | reap (p q next n c) (hp : t p = some q) (hst : q.status = .running (.wait next))
      (hc : t (n :: p) = some c) (hzombie : c.status.isZombie = true) :
      Change P t false ((t.set p ⟨.running next, q.stdin, q.forks⟩).set (n :: p)
        ⟨.reaped, c.stdin, c.forks⟩)

/-- The actions that make a call fail. -/
def Act.isFailure : Act → Bool
  | .fails _ => true
  | _ => false

namespace System

variable {P : Project L C} {s s' : System L C}

/-- One process moves on. -/
theorem moved {t : Table L C} {failed : Bool} {p : Pid} {q : Process L C} {st₀ st : Status L C}
    (stdin : List UInt8) (hp : t p = some q) (hcode : q.status = st₀)
    (hmove : Move P failed st₀ st) : Change P t failed (t.set p ⟨st, stdin, q.forks⟩) :=
  .move failed p q st stdin hp (hcode ▸ hmove)

/-- A call that succeeds. -/
theorem advance_cases {p : Pid} {q : Process L C} {answer : Int} {code : Code L C}
    (hp : s.process p = some q) (hcode : q.status = .running code)
    (h : s.advance P p q answer code = some s') : Change P s.process false s'.process := by
  cases code with
  | printf text next =>
      cases h
      exact moved _ hp hcode (.printf text next)
  | perror text next =>
      cases h
      exact moved _ hp hcode (.perror text next)
  | scanf capacity n next =>
      simp only [advance] at h
      split at h
      · cases h
        exact moved _ hp hcode (.scanf capacity n next _ _)
      · exact absurd h (by simp)
  | fgets size next =>
      simp only [advance] at h
      split at h
      · cases h
        exact moved _ hp hcode (.fgets size next none)
      · cases h
        exact moved _ hp hcode (.fgets size next (some _))
  | call c next =>
      cases h
      exact moved _ hp hcode (.call c next answer)
  | fork next =>
      simp only [advance] at h
      split at h
      · next hanswer =>
          cases h
          exact .fork p q next answer hp hcode hanswer
      · exact absurd h (by simp)
  | wait next =>
      simp only [advance] at h
      split at h
      · split at h
        · next hnone =>
            cases h
            exact .noChild p q next hp hcode hnone
        · exact absurd h (by simp)
      · split at h
        · next c hc =>
            split at h
            · next hzombie =>
                cases h
                exact .reap p q next _ c hp hcode hc hzombie
            · exact absurd h (by simp)
        · exact absurd h (by simp)
  | execl path argv failed =>
      simp only [advance] at h
      split at h
      · next l hload =>
          cases h
          exact moved _ hp hcode (.exec path argv failed l hload)
      · next hload =>
          cases h
          exact moved _ hp hcode (.foreign path argv failed hload)
  | goto l =>
      cases h
      exact moved _ hp hcode (.goto l)
  | exit status =>
      cases h
      exact moved _ hp hcode (.exit status)
  | undefined => exact absurd h (by simp [advance])

/-- A call that fails. -/
theorem fail_cases {p : Pid} {q : Process L C} {code : Code L C}
    (hp : s.process p = some q) (hcode : q.status = .running code)
    (h : s.fail p q code = some s') : Change P s.process true s'.process := by
  cases code with
  | fork next =>
      cases h
      exact moved _ hp hcode (.forkFails next)
  | execl path argv failed =>
      cases h
      exact moved _ hp hcode (.execFails path argv failed)
  | _ => exact absurd h (by simp [fail])

/-- The step of a process that makes its next call. -/
theorem step_run {p : Pid} {q : Process L C} {code : Code L C} (hp : s.process p = some q)
    (hcode : q.status = .running code) (answer : Int) :
    s.step P (.run p answer) = s.advance P p q answer code := by
  unfold step
  simp only [hp, hcode]

/-- The step of a process whose next call fails. -/
theorem step_fails {p : Pid} {q : Process L C} {code : Code L C} (hp : s.process p = some q)
    (hcode : q.status = .running code) : s.step P (.fails p) = s.fail p q code := by
  unfold step
  simp only [hp, hcode]

/-- **ALL THAT ONE ACTION CAN DO.** -/
theorem step_cases {a : Act} (h : s.step P a = some s') :
    Change P s.process a.isFailure s'.process := by
  cases a with
  | run p answer =>
      simp only [step] at h
      split at h
      · next q hp =>
          split at h
          · next code hcode => exact advance_cases hp hcode h
          · exact absurd h (by simp)
      · exact absurd h (by simp)
  | fails p =>
      simp only [step] at h
      split at h
      · next q hp =>
          split at h
          · next code hcode => exact fail_cases hp hcode h
          · exact absurd h (by simp)
      · exact absurd h (by simp)
  | ends p status =>
      simp only [step] at h
      split at h
      · next q hp =>
          split at h
          · next path argv hforeign =>
              cases h
              exact moved _ hp hforeign (.ends path argv status)
          · exact absurd h (by simp)
      · exact absurd h (by simp)
  | input p text =>
      simp only [step] at h
      split at h
      · next q hp =>
          cases h
          exact moved _ hp rfl (.input q.status)
      · exact absurd h (by simp)

end System

/-! ## §3. Families. -/

/-- The address of a child is not that of its parent. -/
theorem child_ne (n : Nat) (p : Pid) : n :: p ≠ p := List.cons_ne_self n p

/-- A process that is not below `p` is not `p`. -/
theorem ne_of_not_suffix {p p' : Pid} (h : ¬ p <:+ p') : p' ≠ p := by
  intro heq
  rw [heq] at h
  exact h (List.suffix_refl p)

/-- Processes of the same depth share no descendants. -/
theorem not_suffix_of_ne {m n : Nat} {p p' : Pid} (hne : m ≠ n) (h : (m :: p) <:+ p') :
    ¬ (n :: p) <:+ p' := by
  intro h'
  have hlen : (m :: p).length = (n :: p).length := rfl
  have heq := (List.suffix_of_suffix_length_le h h' (Nat.le_of_eq hlen)).eq_of_length hlen
  exact hne (List.cons.inj heq).1

/-- Where a process that moves on had been waited for, it still has. -/
theorem Move.isReaped_eq {P : Project L C} {failed : Bool} {st st' : Status L C}
    (h : Move P failed st st') : st'.isReaped = st.isReaped := by
  cases h with
  | _ => rfl

namespace Table

variable {P : Project L C} {t t' : Table L C}

@[simp] theorem set_self (t : Table L C) (p : Pid) (q : Process L C) : t.set p q p = some q :=
  if_pos rfl

theorem set_ne {p p' : Pid} (h : p' ≠ p) (q : Process L C) : t.set p q p' = t p' := if_neg h

/-- The number of children that a process has forked. -/
def forks (t : Table L C) (p : Pid) : Option Nat := (t p).map (·.forks)

theorem forks_eq {p : Pid} {q : Process L C} (hp : t p = some q) : t.forks p = some q.forks := by
  rw [forks, hp]
  rfl

theorem reaped_eq {p : Pid} {q : Process L C} (hp : t p = some q) :
    t.reaped p = q.status.isReaped := by
  rw [reaped, hp]
  rfl

theorem forks_set (t : Table L C) (p : Pid) (q : Process L C) :
    (t.set p q).forks = Function.update t.forks p (some q.forks) := by
  funext p'
  by_cases h : p' = p
  · subst h
    rw [forks_eq (set_self t p' q), Function.update_self]
  · rw [Function.update_of_ne h, forks, set_ne h]
    rfl

theorem reaped_set (t : Table L C) (p : Pid) (q : Process L C) :
    (t.set p q).reaped = Function.update t.reaped p q.status.isReaped := by
  funext p'
  by_cases h : p' = p
  · subst h
    rw [reaped_eq (set_self t p' q), Function.update_self]
  · rw [Function.update_of_ne h, reaped, set_ne h]
    rfl

/-- A process that keeps its number of children. -/
theorem forks_set_same {p : Pid} {q : Process L C} (hp : t p = some q) {st : Status L C}
    {stdin : List UInt8} : (t.set p ⟨st, stdin, q.forks⟩).forks = t.forks := by
  rw [forks_set, Function.update_eq_self_iff, forks_eq hp]

theorem reaped_set_same {p : Pid} {q : Process L C} (hp : t p = some q) {st : Status L C}
    (hst : st.isReaped = q.status.isReaped) {stdin : List UInt8} {n : Nat} :
    (t.set p ⟨st, stdin, n⟩).reaped = t.reaped := by
  rw [reaped_set, Function.update_eq_self_iff, reaped_eq hp, hst]

/-- **WHICH ADDRESSES ARE IN USE**: the children of a process are numbered in
the order of their forks. -/
def Family (t : Table L C) : Prop :=
  ∀ p n, (t.forks (n :: p)).isSome = true ↔ ∃ k, t.forks p = some k ∧ n < k

theorem Family.lt {p : Pid} {n : Nat} {q c : Process L C} (hfam : t.Family) (hp : t p = some q)
    (hc : t (n :: p) = some c) : n < q.forks := by
  obtain ⟨k, hk, hlt⟩ := (hfam p n).mp (by rw [forks_eq hc]; rfl)
  rw [forks_eq hp] at hk
  injection hk with hk
  rwa [hk]

/-- The address of the next child is free, and so are those below it. -/
theorem Family.next_free {p : Pid} {q : Process L C} (hfam : t.Family) (hp : t p = some q) :
    t (q.forks :: p) = none := by
  cases hc : t (q.forks :: p) with
  | none => rfl
  | some c => exact absurd (hfam.lt hp hc) (Nat.lt_irrefl _)

/-- The family grows by one child. -/
theorem Family.fork {p : Pid} {q : Process L C} (hfam : t.Family) (hp : t p = some q)
    {st st' : Status L C} {stdin stdin' : List UInt8} :
    ((t.set p ⟨st, stdin, q.forks + 1⟩).set (q.forks :: p) ⟨st', stdin', 0⟩).Family := by
  have hk := forks_eq hp
  have hfree : t.forks (q.forks :: p) = none := by
    rw [forks, hfam.next_free hp]
    rfl
  intro p' n
  rw [forks_set, forks_set]
  show ((Function.update (Function.update t.forks p (some (q.forks + 1))) (q.forks :: p)
      (some 0)) (n :: p')).isSome = true ↔
    ∃ k, (Function.update (Function.update t.forks p (some (q.forks + 1))) (q.forks :: p)
      (some 0)) p' = some k ∧ n < k
  by_cases hnew : p' = q.forks :: p
  · -- the new child has no children
    subst hnew
    have hne : n :: q.forks :: p ≠ q.forks :: p := child_ne n _
    have hne' : n :: q.forks :: p ≠ p := by
      intro h
      have hlen := congrArg List.length h
      simp only [List.length_cons] at hlen
      omega
    rw [Function.update_of_ne hne, Function.update_of_ne hne', hfam, hfree, Function.update_self]
    simp
  · rw [Function.update_of_ne hnew]
    by_cases hpar : p' = p
    · subst hpar
      rw [Function.update_self]
      by_cases hn : n = q.forks
      · subst hn
        rw [Function.update_self]
        exact ⟨fun _ => ⟨_, rfl, Nat.lt_succ_self _⟩, fun _ => rfl⟩
      · have hne : n :: p' ≠ q.forks :: p' := fun h => hn (List.cons.inj h).1
        rw [Function.update_of_ne hne, Function.update_of_ne (child_ne n p'), hfam, hk]
        constructor
        · rintro ⟨k, hk', hlt⟩
          injection hk' with hk'
          exact ⟨_, rfl, by omega⟩
        · rintro ⟨k, hk', hlt⟩
          injection hk' with hk'
          exact ⟨_, rfl, by omega⟩
    · have hne : n :: p' ≠ q.forks :: p := fun h => hpar (List.cons.inj h).2
      rw [Function.update_of_ne hne, Function.update_of_ne hpar, ← hfam p' n]
      by_cases hself : n :: p' = p
      · rw [hself, Function.update_self, hk]
        rfl
      · rw [Function.update_of_ne hself]

/-- **EVERY ACTION KEEPS THE FAMILIES.** -/
theorem Family.change (hfam : t.Family) {failed : Bool} (h : Change P t failed t') :
    t'.Family := by
  cases h with
  | move failed p q st stdin hp hst => rwa [Family, forks_set_same hp]
  | noChild p q next hp hst hnone => rwa [Family, forks_set_same hp]
  | fork p q next answer hp hst hanswer => exact hfam.fork hp
  | reap p q next n c hp hst hc hzombie =>
      have hc' : t.set p ⟨.running next, q.stdin, q.forks⟩ (n :: p) = some c := by
        rw [set_ne (child_ne n p), hc]
      rwa [Family, forks_set_same hc', forks_set_same hp]

/-- At first there is one process. -/
theorem start_root (l : L) (stdin : List UInt8) :
    (System.start l stdin : System L C).process [] = some ⟨.running (.goto l), stdin, 0⟩ := rfl

theorem start_of_ne {p : Pid} (hp : p ≠ []) (l : L) (stdin : List UInt8) :
    (System.start l stdin : System L C).process p = none := if_neg hp

theorem Family.start (l : L) (stdin : List UInt8) :
    (System.start l stdin : System L C).process.Family := by
  intro p n
  rw [forks, start_of_ne (List.cons_ne_nil n p)]
  constructor
  · intro h
    exact absurd h Bool.false_ne_true
  · rintro ⟨k, hk, hlt⟩
    by_cases hp : p = []
    · rw [hp, forks_eq (start_root l stdin)] at hk
      cases hk
      exact absurd hlt (Nat.not_lt_zero n)
    · rw [forks, start_of_ne hp] at hk
      cases hk

/-! ## §4. The children that are left. -/

/-- The children of `p` that have not been waited for. -/
def left (t : Table L C) (p : Pid) : Finset Nat :=
  {n ∈ Finset.range ((t.forks p).getD 0) | t.reaped (n :: p) = false}

theorem mem_left {p : Pid} {n : Nat} :
    n ∈ t.left p ↔ n < (t.forks p).getD 0 ∧ t.reaped (n :: p) = false := by
  rw [left, Finset.mem_filter, Finset.mem_range]

theorem left_congr_at {p : Pid} (hforks : t'.forks p = t.forks p)
    (hreaped : ∀ n, t'.reaped (n :: p) = t.reaped (n :: p)) : t'.left p = t.left p := by
  ext n
  rw [mem_left, mem_left, hforks, hreaped]

theorem left_congr (hforks : t'.forks = t.forks) (hreaped : t'.reaped = t.reaped) (p : Pid) :
    t'.left p = t.left p := by
  rw [left, left, hforks, hreaped]

/-- A process that forks has one child more. -/
theorem left_fork {p : Pid} {q : Process L C} (hp : t p = some q)
    {st st' : Status L C} (hst : st.isReaped = q.status.isReaped) (hst' : st'.isReaped = false)
    {stdin stdin' : List UInt8} :
    (((t.set p ⟨st, stdin, q.forks + 1⟩).set (q.forks :: p) ⟨st', stdin', 0⟩).left p).card
      = (t.left p).card + 1 := by
  have hnot : q.forks ∉ t.left p := by
    rw [mem_left, forks_eq hp]
    exact fun h => Nat.lt_irrefl _ h.1
  rw [← Finset.card_insert_of_notMem hnot]
  congr 1
  ext n
  rw [mem_left, Finset.mem_insert, mem_left, forks_set, reaped_set, reaped_set_same hp hst,
    Function.update_of_ne (child_ne _ p).symm, forks_set, Function.update_self, forks_eq hp]
  show n < q.forks + 1 ∧ Function.update t.reaped (q.forks :: p) st'.isReaped (n :: p) = false ↔
    n = q.forks ∨ n < q.forks ∧ t.reaped (n :: p) = false
  by_cases hn : n = q.forks
  · subst hn
    rw [Function.update_self, hst']
    simp
  · have hne : n :: p ≠ q.forks :: p := fun h => hn (List.cons.inj h).1
    rw [Function.update_of_ne hne]
    constructor
    · rintro ⟨hlt, hreaped⟩
      exact Or.inr ⟨by omega, hreaped⟩
    · rintro (h | ⟨hlt, hreaped⟩)
      · exact absurd h hn
      · exact ⟨by omega, hreaped⟩

/-- The other processes have the children they had. -/
theorem left_fork_ne {p p' : Pid} {q : Process L C} (hfam : t.Family) (hp : t p = some q)
    {st st' : Status L C} (hst : st.isReaped = q.status.isReaped) {stdin stdin' : List UInt8}
    (hne : p' ≠ p) :
    ((t.set p ⟨st, stdin, q.forks + 1⟩).set (q.forks :: p) ⟨st', stdin', 0⟩).left p'
      = t.left p' := by
  ext n
  have hchild : n :: p' ≠ q.forks :: p := fun h => hne (List.cons.inj h).2
  rw [mem_left, mem_left, forks_set, reaped_set, reaped_set_same hp hst,
    Function.update_of_ne hchild, forks_set]
  by_cases hnew : p' = q.forks :: p
  · rw [hnew, Function.update_self, forks, hfam.next_free hp]
    rfl
  · rw [Function.update_of_ne hnew, Function.update_of_ne hne]

/-- A process that has waited has one child less. -/
theorem left_reap {p : Pid} {n : Nat} {q c : Process L C} (hfam : t.Family) (hp : t p = some q)
    (hc : t (n :: p) = some c) (hleft : c.status.isReaped = false) {st : Status L C}
    (hst : st.isReaped = q.status.isReaped) {stdin stdin' : List UInt8} :
    (((t.set p ⟨st, stdin, q.forks⟩).set (n :: p) ⟨.reaped, stdin', c.forks⟩).left p).card
      = (t.left p).card - 1 := by
  have hmem : n ∈ t.left p := by
    rw [mem_left, forks_eq hp, reaped_eq hc]
    exact ⟨hfam.lt hp hc, hleft⟩
  have hc' : t.set p ⟨st, stdin, q.forks⟩ (n :: p) = some c := by
    rw [set_ne (child_ne n p), hc]
  rw [← Finset.card_erase_of_mem hmem]
  congr 1
  ext m
  rw [mem_left, Finset.mem_erase, mem_left, forks_set_same hc', forks_set_same hp, reaped_set,
    reaped_set_same hp hst]
  by_cases hm : m = n
  · subst hm
    rw [Function.update_self]
    simp [Status.isReaped]
  · have hne : m :: p ≠ n :: p := fun h => hm (List.cons.inj h).1
    rw [Function.update_of_ne hne]
    exact ⟨fun h => ⟨hm, h⟩, fun h => h.2⟩

theorem left_reap_ne {p p' : Pid} {n : Nat} {q c : Process L C} (hp : t p = some q)
    (hc : t (n :: p) = some c) {st : Status L C} (hst : st.isReaped = q.status.isReaped)
    {stdin stdin' : List UInt8} (hne : p' ≠ p) :
    ((t.set p ⟨st, stdin, q.forks⟩).set (n :: p) ⟨.reaped, stdin', c.forks⟩).left p'
      = t.left p' := by
  have hc' : t.set p ⟨st, stdin, q.forks⟩ (n :: p) = some c := by
    rw [set_ne (child_ne n p), hc]
  ext m
  have hchild : m :: p' ≠ n :: p := fun h => hne (List.cons.inj h).2
  rw [mem_left, mem_left, forks_set_same hc', forks_set_same hp, reaped_set,
    reaped_set_same hp hst, Function.update_of_ne hchild]

/-- No child is left where none was forked. -/
theorem left_of_forks_zero {p : Pid} {q : Process L C} (hp : t p = some q) (h : q.forks = 0) :
    t.left p = ∅ := by
  rw [Finset.eq_empty_iff_forall_notMem]
  intro n hn
  rw [mem_left, forks_eq hp, h] at hn
  exact Nat.not_lt_zero n hn.1

/-- No child is left when `wait` says so. -/
theorem left_of_childless {p : Pid} {q : Process L C} (hp : t p = some q)
    (h : t.childless p q = true) : t.left p = ∅ := by
  rw [Finset.eq_empty_iff_forall_notMem]
  intro n hn
  rw [mem_left, forks_eq hp] at hn
  have hreaped := List.all_eq_true.mp h n (List.mem_range.mpr hn.1)
  rw [hn.2] at hreaped
  exact Bool.false_ne_true hreaped

end Table

end machine

end ConcurrencyCrypto.Library
