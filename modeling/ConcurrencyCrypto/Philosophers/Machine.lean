/-
  ConcurrencyCrypto.Philosophers.Machine
  ──────────────────────────────────────
  `dining-philosophers.c`: `N` philosophers in a ring, each running its loop
  under its own index.

  A step is one semaphore operation, one section between `sem_wait(mutex)`
  and `sem_post(mutex)`, or one of `think` and `eat`.  What the state array
  holds at the start is a parameter: main's initialisation is the subject of
  a later file.
-/
import ConcurrencyCrypto.Library.Conflicts
import ConcurrencyCrypto.Library.Tokens
import ConcurrencyCrypto.Library.Transition

namespace ConcurrencyCrypto.Philosophers

open ConcurrencyCrypto.Library

/-! ## §1. The ring and the state array. -/

/-- `THINKING`. -/
def THINKING : Int32 := 0
/-- `HUNGRY`. -/
def HUNGRY : Int32 := 1
/-- `EATING`. -/
def EATING : Int32 := 2

variable {N : Nat}

/-- `LEFT(i,N)`. -/
def LEFT (i : Fin N) : Fin N := ⟨(i.val + N - 1) % N, Nat.mod_lt _ i.pos⟩

/-- `RIGHT(i,N)`. -/
def RIGHT (i : Fin N) : Fin N := ⟨(i.val + 1) % N, Nat.mod_lt _ i.pos⟩

/-- What the mutex protects: `state`, and the semaphores posted under it. -/
structure Table (N : Nat) where
  state : Fin N → Int32
  eaters : Fin N → Nat

/-- `state[i] = x`. -/
def Table.setState (t : Table N) (i : Fin N) (x : Int32) : Table N :=
  { t with state := Function.update t.state i x }

/-- `test(i)`. -/
def test (t : Table N) (i : Fin N) : Table N :=
  if t.state i = HUNGRY then
    if ¬ t.state (LEFT i) = EATING ∧ ¬ t.state (RIGHT i) = EATING then
      { state := Function.update t.state i EATING
        eaters := Function.update t.eaters i (t.eaters i + 1) }
    else t
  else t

/-- The section of `take_sticks(i)`. -/
def takeSection (t : Table N) (i : Fin N) : Table N := test (t.setState i HUNGRY) i

/-- The section of `put_sticks(i)`. -/
def putSection (t : Table N) (i : Fin N) : Table N :=
  test (test (t.setState i THINKING) (LEFT i)) (RIGHT i)

/-! ## §2. The philosophers. -/

/-- Where a philosopher is in its loop. -/
inductive Pc where
  | think
  /-- `take_sticks`: `sem_wait(mutex)`. -/
  | takeLock
  | takeSection
  /-- `sem_post(mutex)`. -/
  | takeUnlock
  /-- `sem_wait(&eaters[i])`. -/
  | takeWait
  | eat
  /-- `put_sticks`: `sem_wait(mutex)`. -/
  | putLock
  | putSection
  /-- `sem_post(mutex)`. -/
  | putUnlock
  deriving DecidableEq, Repr

structure State (N : Nat) where
  mutex : Nat
  table : Table N
  pc : Fin N → Pc

/-- All philosophers at the head of their loops. -/
def State.quiet (t : Table N) : State N :=
  { mutex := 1, table := t, pc := fun _ => .think }

/-- The semaphores are initialised, the state array holds `state`. -/
def State.start (state : Fin N → Int32) : State N :=
  State.quiet { state := state, eaters := fun _ => 0 }

def State.goto (s : State N) (i : Fin N) (pc : Pc) : State N :=
  { s with pc := Function.update s.pc i pc }

/-- One step of philosopher `i`. -/
def step (s : State N) (i : Fin N) : Option (State N) :=
  match s.pc i with
  | .think => some (s.goto i .takeLock)
  | .takeLock =>
      -- sem_wait blocks at zero
      if s.mutex = 0 then none
      else some ({ s with mutex := s.mutex - 1 }.goto i .takeSection)
  | .takeSection => some ({ s with table := takeSection s.table i }.goto i .takeUnlock)
  | .takeUnlock => some ({ s with mutex := s.mutex + 1 }.goto i .takeWait)
  | .takeWait =>
      if s.table.eaters i = 0 then none
      else
        let eaters := Function.update s.table.eaters i (s.table.eaters i - 1)
        some ({ s with table := { s.table with eaters := eaters } }.goto i .eat)
  | .eat => some (s.goto i .putLock)
  | .putLock =>
      if s.mutex = 0 then none
      else some ({ s with mutex := s.mutex - 1 }.goto i .putSection)
  | .putSection => some ({ s with table := putSection s.table i }.goto i .putUnlock)
  | .putUnlock => some ({ s with mutex := s.mutex + 1 }.goto i .think)

/-! ## §3. What the labels mean. -/

/-- The philosopher has passed its `sem_wait(&eaters[i])` and not yet put the
sticks down. -/
def Pc.holding (pc : Pc) : Bool := pc ∈ [.eat, .putLock, .putSection]

/-- A call of `take_sticks` is in progress. -/
def Pc.taking (pc : Pc) : Bool := pc ∈ [.takeLock, .takeSection, .takeUnlock, .takeWait]

/-- The philosopher has the mutex. -/
def Pc.inside (pc : Pc) : Bool := pc ∈ [.takeSection, .takeUnlock, .putSection, .putUnlock]

/-- Between the two sections: hungry or eating. -/
def Pc.engaged (pc : Pc) : Bool := pc ∈ [.takeUnlock, .takeWait, .eat, .putLock, .putSection]

/-- The philosopher cannot pass its `sem_wait(&eaters[i])`. -/
def State.Starved (s : State N) (i : Fin N) : Prop :=
  s.pc i = .takeWait ∧ s.table.eaters i = 0

/-- The two sit next to each other. -/
def Neighbours (i j : Fin N) : Prop := j = LEFT i ∨ j = RIGHT i

/-! ## §4. The ring. -/

theorem RIGHT_LEFT (i : Fin N) : RIGHT (LEFT i) = i := by
  apply Fin.ext
  show ((i.val + N - 1) % N + 1) % N = i.val
  have hi := i.isLt
  rw [Nat.mod_add_mod, show i.val + N - 1 + 1 = i.val + N by omega, Nat.add_mod_right,
    Nat.mod_eq_of_lt hi]

theorem LEFT_RIGHT (i : Fin N) : LEFT (RIGHT i) = i := by
  apply Fin.ext
  show ((i.val + 1) % N + N - 1) % N = i.val
  have hi := i.isLt
  by_cases hlast : i.val + 1 = N
  · rw [hlast, Nat.mod_self, Nat.zero_add, Nat.mod_eq_of_lt (by omega)]
    omega
  · rw [Nat.mod_eq_of_lt (show i.val + 1 < N by omega),
      show i.val + 1 + N - 1 = i.val + N by omega, Nat.add_mod_right, Nat.mod_eq_of_lt hi]

theorem Neighbours.symm {i j : Fin N} (h : Neighbours i j) : Neighbours j i := by
  rcases h with h | h
  · right
    rw [h, RIGHT_LEFT]
  · left
    rw [h, LEFT_RIGHT]

/-- With two philosophers or more nobody is its own neighbour. -/
theorem RIGHT_ne (hN : 2 ≤ N) (i : Fin N) : RIGHT i ≠ i := by
  intro h
  have h : (i.val + 1) % N = i.val := congrArg Fin.val h
  have hi := i.isLt
  by_cases hlast : i.val + 1 = N
  · rw [hlast, Nat.mod_self] at h
    omega
  · rw [Nat.mod_eq_of_lt (by omega)] at h
    omega

theorem Neighbours.ne (hN : 2 ≤ N) {i j : Fin N} (h : Neighbours i j) : i ≠ j := by
  rcases h with h | h
  · intro hij
    subst hij
    have hright := RIGHT_LEFT i
    rw [← h] at hright
    exact RIGHT_ne hN i hright
  · rw [h]
    exact (RIGHT_ne hN i).symm

end ConcurrencyCrypto.Philosophers
