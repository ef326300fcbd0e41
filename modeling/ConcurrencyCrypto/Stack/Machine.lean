/-
  ConcurrencyCrypto.Stack.Machine
  ───────────────────────────────
  `Threads-safe_stack.c`: threads that push and pop at random on one array,
  between two counting semaphores and under a mutex.

  A step is one semaphore or mutex operation, or one section under the
  mutex.  `stk` is the memory around the array: an access outside `0 … N-1`
  would hit it, so staying inside is a theorem and not built in.  `log` is a
  history variable: the sections completed so far, with the thread of each.

  Main has nothing that the threads use, and takes no step: it creates them,
  sleeps and returns.  A run is what they do until the process ends, whether
  that is before or after its return.
-/
import ConcurrencyCrypto.Library.Lifo
import ConcurrencyCrypto.Library.Tokens
import ConcurrencyCrypto.Library.Transition

namespace ConcurrencyCrypto.Stack

open ConcurrencyCrypto.Library

/-- Where a thread is; the calls carry their local variable. -/
inductive Pc where
  /-- In the loop of `tFunc`. -/
  | idle
  /-- `stkPush`: `sem_wait(&isEmpty)`. -/
  | pushWait (num : Int)
  | pushLock (num : Int)
  | pushSection (num : Int)
  | pushUnlock
  /-- `sem_post(&isFull)`. -/
  | pushPost
  /-- `stkPop`: `sem_wait(&isFull)`. -/
  | popWait
  | popLock
  | popSection
  | popUnlock (val : Int)
  /-- `sem_post(&isEmpty)`; then it returns `val`. -/
  | popPost (val : Int)
  deriving DecidableEq, Repr

/-- What `tFunc` calls next. -/
inductive Call where
  | stkPush (num : Int)
  | stkPop

/-- Who steps: a thread in its loop decides what to call. -/
inductive Action (T : Type) where
  | call (t : T) (c : Call)
  | step (t : T)

structure State (T : Type) where
  isFull : Nat
  isEmpty : Nat
  mutex : Option T
  stk : Int → Int
  idx : Int
  pc : T → Pc
  log : List (T × Lifo.Event Int)

/-- `main` has initialised the semaphores; `stk` is what the memory holds. -/
def State.start {T : Type} (N : Nat) (stk : Int → Int) : State T where
  isFull := 0
  isEmpty := N
  mutex := none
  stk := stk
  idx := 0
  pc _ := .idle
  log := []

variable {T : Type} [DecidableEq T]

def State.goto (s : State T) (t : T) (pc : Pc) : State T :=
  { s with pc := Function.update s.pc t pc }

/-- `stk[idx++] = num`. -/
def State.pushSection (s : State T) (t : T) (num : Int) : State T :=
  { s with
    stk := Function.update s.stk s.idx num
    idx := s.idx + 1
    log := s.log ++ [(t, .push num)] }

/-- `int val = stk[--idx]`. -/
def State.popSection (s : State T) (t : T) : State T :=
  { s with
    idx := s.idx - 1
    log := s.log ++ [(t, .pop (s.stk (s.idx - 1)))] }

/-- One step of thread `t`. -/
def threadStep (s : State T) (t : T) : Option (State T) :=
  match s.pc t with
  | .idle => none
  | .pushWait num =>
      -- sem_wait blocks at zero
      if s.isEmpty = 0 then none
      else some ({ s with isEmpty := s.isEmpty - 1 }.goto t (.pushLock num))
  | .pushLock num =>
      if s.mutex = none then some ({ s with mutex := some t }.goto t (.pushSection num))
      else none
  | .pushSection num => some ((s.pushSection t num).goto t .pushUnlock)
  | .pushUnlock => some ({ s with mutex := none }.goto t .pushPost)
  | .pushPost => some ({ s with isFull := s.isFull + 1 }.goto t .idle)
  | .popWait =>
      if s.isFull = 0 then none
      else some ({ s with isFull := s.isFull - 1 }.goto t .popLock)
  | .popLock =>
      if s.mutex = none then some ({ s with mutex := some t }.goto t .popSection)
      else none
  | .popSection => some ((s.popSection t).goto t (.popUnlock (s.stk (s.idx - 1))))
  | .popUnlock val => some ({ s with mutex := none }.goto t (.popPost val))
  | .popPost _ => some ({ s with isEmpty := s.isEmpty + 1 }.goto t .idle)

def step (s : State T) : Action T → Option (State T)
  | .call t (.stkPush num) => if s.pc t = .idle then some (s.goto t (.pushWait num)) else none
  | .call t .stkPop => if s.pc t = .idle then some (s.goto t .popWait) else none
  | .step t => threadStep s t

/-- A state of some run with capacity `N`. -/
def Reachable (N : Nat) (s : State T) : Prop := ∃ stk, Reaches step (State.start N stk) s

/-! ## What the labels mean. -/

/-- A free slot the thread has taken and not yet filled, or has made and not
yet posted. -/
def Pc.slot : Pc → Nat
  | .pushLock _ | .pushSection _ | .popUnlock _ | .popPost _ => 1
  | _ => 0

/-- An item the thread has taken and not yet removed, or has stored and not
yet posted. -/
def Pc.item : Pc → Nat
  | .popLock | .popSection | .pushUnlock | .pushPost => 1
  | _ => 0

/-- Between its `sem_wait` and its `sem_post`. -/
def Pc.inFlight : Pc → Nat
  | .idle | .pushWait _ | .popWait => 0
  | _ => 1

/-- The value the thread has popped and not yet returned. -/
def Pc.val : Pc → Option Int
  | .popUnlock val | .popPost val => some val
  | _ => none

/-- The argument of a `stkPush` whose section is still to come. -/
def Pc.num : Pc → Option Int
  | .pushWait num | .pushLock num | .pushSection num => some num
  | _ => none

/-- What thread `t` calls `stkPush` with, if that is the action. -/
def Action.num (t : T) : Action T → Option Int
  | .call u (.stkPush num) => if u = t then some num else none
  | _ => none

/-- What thread `t` has stored, if that is the section. -/
def storedBy (t : T) : T × Lifo.Event Int → Option Int
  | (u, .push num) => if u = t then some num else none
  | (_, .pop _) => none

/-- The stored values, top first. -/
def State.contents (s : State T) : List Int :=
  ((List.range s.idx.toNat).map fun k : Nat => s.stk k).reverse

end ConcurrencyCrypto.Stack
