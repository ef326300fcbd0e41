/-
  ConcurrencyCrypto.Letters.Machine
  ─────────────────────────────────
  `Semaphores.c`: three threads that print `A`, `B`, `C`, `C`, `A`, … by
  handing a turn round through three semaphores.

  A step is one `sem_wait`, one `printf`, one `sem_post`, or one call of
  `main`.  What a thread does to its own variables goes with the step in
  front.

  The threads have pointers into the array `ch` of `main`, and they run until
  the process ends, which is not when `main` returns: between the two a
  thread that prints reads what has become of the array.
-/
import ConcurrencyCrypto.Library.Repetition
import ConcurrencyCrypto.Library.Text
import ConcurrencyCrypto.Library.Transition

namespace ConcurrencyCrypto.Letters

open ConcurrencyCrypto.Library

/-! ## §1. The program. -/

/-- The thread functions. -/
inductive Thread where
  | A
  | B
  | C
  deriving DecidableEq, Repr

/-- Thread `i` of `main` runs function `i % 3`. -/
def Thread.index : Thread → Nat
  | .A => 0
  | .B => 1
  | .C => 2

/-- `ch[i]`, the argument `main` gives to thread `i`. -/
def Thread.ch : Thread → Char
  | .A => 'A'
  | .B => 'B'
  | .C => 'C'

/-- Where `A` is. -/
inductive APc where
  | wait
  | print
  | post
  deriving DecidableEq, Repr

/-- Where `B` is: it posts twice. -/
inductive BPc where
  | wait
  | print
  | post1
  | post2
  deriving DecidableEq, Repr

/-- Where `C` is; behind its `printf` it tests `flag`. -/
inductive CPc where
  | wait
  | print
  | test
  deriving DecidableEq, Repr

/-- Where `main` is. -/
inductive MainPc where
  /-- `pthread_create` of thread `i`. -/
  | create (i : Nat)
  /-- `perror` and `exit(EXIT_FAILURE)`, called by `main` with `i` threads
  created. -/
  | fails (i : Nat)
  /-- `sleep(5)`. -/
  | sleep
  /-- `main` has returned 0, and its array is no more; the process is about to
  end. -/
  | returned
  /-- The process has ended, and its threads with it. -/
  | exited (status : Int)
  deriving DecidableEq, Repr

structure State where
  s1 : Nat
  s2 : Nat
  s3 : Nat
  a : APc
  b : BPc
  c : CPc
  /-- The local variable of `C`, 32 bits wide. -/
  flag : Int
  main : MainPc
  /-- What has been printed so far, with the thread that has printed it. -/
  out : List (Thread × Char)
  deriving DecidableEq

/-- `main` has initialised the semaphores. -/
def State.start : State where
  s1 := 1
  s2 := 0
  s3 := 0
  a := .wait
  b := .wait
  c := .wait
  flag := 0
  main := .create 0
  out := []

/-- Who steps; `created` is how a `pthread_create` of `main` ends, and `found`
what a thread would find in the place of its letter when the array is no
more. -/
inductive Action where
  | thread (t : Thread) (found : Char)
  | main (created : Bool)
  deriving DecidableEq, Repr

/-- The thread has been created and the process has not ended. -/
def State.runs (s : State) (t : Thread) : Bool :=
  match s.main with
  | .create i => t.index < i
  | .fails i => t.index < i
  | .sleep => true
  | .returned => true
  | .exited _ => false

/-- `*(char*)ch`. -/
def State.read (s : State) (t : Thread) (found : Char) : Char :=
  if s.main = .returned then found else t.ch

/-- `printf("%c\n", *(char*)ch)`. -/
def State.print (s : State) (t : Thread) (found : Char) : State :=
  { s with out := s.out ++ [(t, s.read t found)] }

/-- One step of a thread function. -/
def threadStep (s : State) (found : Char) : Thread → Option State
  | .A =>
      match s.a with
      -- sem_wait blocks at zero
      | .wait => if s.s1 = 0 then none else some { s with s1 := s.s1 - 1, a := .print }
      | .print => some { s.print .A found with a := .post }
      | .post => some { s with s2 := s.s2 + 1, a := .wait }
  | .B =>
      match s.b with
      | .wait => if s.s2 = 0 then none else some { s with s2 := s.s2 - 1, b := .print }
      | .print => some { s.print .B found with b := .post1 }
      | .post1 => some { s with s3 := s.s3 + 1, b := .post2 }
      | .post2 => some { s with s3 := s.s3 + 1, b := .wait }
  | .C =>
      match s.c with
      | .wait =>
          if s.s3 = 0 then none
          -- flag++
          else some { s with s3 := s.s3 - 1, flag := toInt (s.flag + 1), c := .print }
      | .print => some { s.print .C found with c := .test }
      | .test =>
          -- if (flag%2 == 0) sem_post(&s1);
          if s.flag.tmod 2 = 0 then some { s with s1 := s.s1 + 1, c := .wait }
          else some { s with c := .wait }

/-- One step of `main`. -/
def mainStep (s : State) (created : Bool) : Option State :=
  match s.main with
  | .create i =>
      if created = false then some { s with main := .fails i }
      else if i + 1 < 3 then some { s with main := .create (i + 1) }
      else some { s with main := .sleep }
  | .fails _ => some { s with main := .exited 1 }
  | .sleep => some { s with main := .returned }
  | .returned => some { s with main := .exited 0 }
  | .exited _ => none

def step (s : State) : Action → Option State
  | .thread t found => if s.runs t then threadStep s found t else none
  | .main created => mainStep s created

/-- A state of some interleaving. -/
def Reachable (s : State) : Prop := Reaches step State.start s

/-- The letters printed so far. -/
def State.letters (s : State) : List Char := s.out.map Prod.snd

/-- The thread is about to print. -/
def State.prints (s : State) : Thread → Bool
  | .A => s.a == .print
  | .B => s.b == .print
  | .C => s.c == .print

/-- The thread stands at its `sem_wait` and the semaphore is zero. -/
def State.Blocked (s : State) : Thread → Prop
  | .A => s.a = .wait ∧ s.s1 = 0
  | .B => s.b = .wait ∧ s.s2 = 0
  | .C => s.c = .wait ∧ s.s3 = 0

/-! ## §2. What a step does. -/

/-- The ways in which a thread steps. -/
inductive ThreadEffect (s s' : State) (found : Char) : Thread → Prop where
  | waitA (ha : s.a = .wait) (hpos : s.s1 ≠ 0)
      (hs' : s' = { s with s1 := s.s1 - 1, a := .print }) : ThreadEffect s s' found .A
  | printA (ha : s.a = .print)
      (hs' : s' = { s.print .A found with a := .post }) : ThreadEffect s s' found .A
  | postA (ha : s.a = .post)
      (hs' : s' = { s with s2 := s.s2 + 1, a := .wait }) : ThreadEffect s s' found .A
  | waitB (hb : s.b = .wait) (hpos : s.s2 ≠ 0)
      (hs' : s' = { s with s2 := s.s2 - 1, b := .print }) : ThreadEffect s s' found .B
  | printB (hb : s.b = .print)
      (hs' : s' = { s.print .B found with b := .post1 }) : ThreadEffect s s' found .B
  | post1B (hb : s.b = .post1)
      (hs' : s' = { s with s3 := s.s3 + 1, b := .post2 }) : ThreadEffect s s' found .B
  | post2B (hb : s.b = .post2)
      (hs' : s' = { s with s3 := s.s3 + 1, b := .wait }) : ThreadEffect s s' found .B
  | waitC (hc : s.c = .wait) (hpos : s.s3 ≠ 0)
      (hs' : s' = { s with s3 := s.s3 - 1, flag := toInt (s.flag + 1), c := .print }) :
      ThreadEffect s s' found .C
  | printC (hc : s.c = .print)
      (hs' : s' = { s.print .C found with c := .test }) : ThreadEffect s s' found .C
  | postC (hc : s.c = .test) (heven : s.flag.tmod 2 = 0)
      (hs' : s' = { s with s1 := s.s1 + 1, c := .wait }) : ThreadEffect s s' found .C
  | passC (hc : s.c = .test) (hodd : s.flag.tmod 2 ≠ 0)
      (hs' : s' = { s with c := .wait }) : ThreadEffect s s' found .C

/-- The ways in which `main` steps. -/
inductive MainEffect (s s' : State) : Prop where
  | fails (i : Nat) (hmain : s.main = .create i) (hs' : s' = { s with main := .fails i })
  | creates (i : Nat) (hmain : s.main = .create i) (hlt : i + 1 < 3)
      (hs' : s' = { s with main := .create (i + 1) })
  | sleeps (i : Nat) (hmain : s.main = .create i) (hs' : s' = { s with main := .sleep })
  | exits (i : Nat) (hmain : s.main = .fails i) (hs' : s' = { s with main := .exited 1 })
  | returns (hmain : s.main = .sleep) (hs' : s' = { s with main := .returned })
  | ends (hmain : s.main = .returned) (hs' : s' = { s with main := .exited 0 })

section steps
variable {s s' : State} {t : Thread} {found : Char} {created : Bool}

theorem threadStep_effect (hstep : threadStep s found t = some s') :
    ThreadEffect s s' found t := by
  unfold threadStep at hstep
  split at hstep
  · -- A
    split at hstep
    next ha =>
      split at hstep
      next => cases hstep
      next hpos =>
        injection hstep with hstep
        exact .waitA ha hpos hstep.symm
    next ha =>
      injection hstep with hstep
      exact .printA ha hstep.symm
    next ha =>
      injection hstep with hstep
      exact .postA ha hstep.symm
  · -- B
    split at hstep
    next hb =>
      split at hstep
      next => cases hstep
      next hpos =>
        injection hstep with hstep
        exact .waitB hb hpos hstep.symm
    next hb =>
      injection hstep with hstep
      exact .printB hb hstep.symm
    next hb =>
      injection hstep with hstep
      exact .post1B hb hstep.symm
    next hb =>
      injection hstep with hstep
      exact .post2B hb hstep.symm
  · -- C
    split at hstep
    next hc =>
      split at hstep
      next => cases hstep
      next hpos =>
        injection hstep with hstep
        exact .waitC hc hpos hstep.symm
    next hc =>
      injection hstep with hstep
      exact .printC hc hstep.symm
    next hc =>
      split at hstep
      next heven =>
        injection hstep with hstep
        exact .postC hc heven hstep.symm
      next hodd =>
        injection hstep with hstep
        exact .passC hc hodd hstep.symm

theorem mainStep_effect (hstep : mainStep s created = some s') : MainEffect s s' := by
  unfold mainStep at hstep
  split at hstep
  next i hmain =>
    split at hstep
    next =>
      injection hstep with hstep
      exact .fails i hmain hstep.symm
    next =>
      split at hstep
      next hlt =>
        injection hstep with hstep
        exact .creates i hmain hlt hstep.symm
      next =>
        injection hstep with hstep
        exact .sleeps i hmain hstep.symm
  next i hmain =>
    injection hstep with hstep
    exact .exits i hmain hstep.symm
  next hmain =>
    injection hstep with hstep
    exact .returns hmain hstep.symm
  next hmain =>
    injection hstep with hstep
    exact .ends hmain hstep.symm
  next => cases hstep

/-- `main` touches nothing the threads use. -/
theorem mainStep_frame (hstep : mainStep s created = some s') : ∃ m, s' = { s with main := m } := by
  cases mainStep_effect hstep with
  | fails i hmain hs' => exact ⟨_, hs'⟩
  | creates i hmain hlt hs' => exact ⟨_, hs'⟩
  | sleeps i hmain hs' => exact ⟨_, hs'⟩
  | exits i hmain hs' => exact ⟨_, hs'⟩
  | returns hmain hs' => exact ⟨_, hs'⟩
  | ends hmain hs' => exact ⟨_, hs'⟩

end steps

end ConcurrencyCrypto.Letters
