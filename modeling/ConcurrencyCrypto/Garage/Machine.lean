/-
  ConcurrencyCrypto.Garage.Machine
  ────────────────────────────────
  `main.c` and `threads.c` as one system: main, creator, manager, monitor and
  `K_CARS` car threads over shared semaphores and the priority queue.

  One step is one semaphore operation, one section under a mutex, one sleep,
  or one statement on data no other thread can see yet.  What `car_thread`
  does is a listing: `CarPc.code` gives the operation at each label and the
  label behind it.  Any `pthread_create` may fail.  The process and all its
  threads end in the step in which main returns: what a thread may still do
  between the two, when the cars and the queue of main's frame are gone, is
  not part of this model.

  `admissions` and `dones` are history variables: how often a car's semaphore
  was posted, and how often `done_sem` was posted for it.  No code reads them.
-/
import ConcurrencyCrypto.Garage.Queue
import ConcurrencyCrypto.Library.Transition

namespace ConcurrencyCrypto.Garage

open ConcurrencyCrypto.Library

/-! ## §1. Configuration and semaphores. -/

/-- The constants of `garage.h`. -/
structure Config where
  K_CARS : Nat
  N_CAPACITY : Nat
  MECHANIC : Nat
  DIAGNOSTIC_TABLETS : Nat
  TORQUE_WRENCH : Nat
  TESTER : Nat
  POLLUTION_QUEUE : Nat
  POLLUTION_WORKERS : Nat
  PAYMENT_BOX : Nat

/-- The semaphores that stand for something a car uses. -/
inductive Resource where
  | slots_sem
  | mechanic_sem
  | diagnostic_sem
  | torque_sem
  | pollution_queue_sem
  | pollution_worker_sem
  | payment_box
  deriving DecidableEq, Repr

/-- Their initial values. -/
def Config.units (cfg : Config) : Resource → Nat
  | .slots_sem => cfg.N_CAPACITY
  | .mechanic_sem => cfg.MECHANIC
  | .diagnostic_sem => cfg.DIAGNOSTIC_TABLETS
  | .torque_sem => cfg.TORQUE_WRENCH
  | .pollution_queue_sem => cfg.POLLUTION_QUEUE
  | .pollution_worker_sem => cfg.POLLUTION_WORKERS
  | .payment_box => cfg.PAYMENT_BOX

/-! ## §2. The car thread as a listing. -/

/-- Where a car's thread is. -/
inductive CarPc where
  /-- Not created yet. -/
  | unborn
  /-- `pthread_create` failed. -/
  | failed
  | insert
  | waitAdmission
  | printArrived
  | waitMechanic
  | claimMechanic
  | reportNoMechanic
  | noMechanicPostMechanic
  | noMechanicPostSlots
  | noMechanicPostDone
  | waitDiagnostic
  | waitTorque
  | printWorking
  | work
  | postTorque
  | postDiagnostic
  | printFinished
  | waitPollutionQueue
  | freeMechanic
  | postMechanic
  | printMoved
  | waitPollutionWorker
  | postPollutionQueue
  | claimTester
  | reportNoTester
  | noTesterPostWorker
  | noTesterPostSlots
  | noTesterPostDone
  | printStarting
  | test
  | freeTester
  | postPollutionWorker
  | waitPayment
  | printDone
  | postPayment
  | postSlots
  | postDone
  /-- The thread has returned. -/
  | finished
  deriving DecidableEq, Repr

/-- What a car's thread does at a label. -/
inductive CarOp where
  /-- `pq_insert(car->pq, car)`. -/
  | pq_insert
  /-- `sem_wait(&car->sem)`. -/
  | admission
  | wait (r : Resource)
  | post (r : Resource)
  /-- `sem_post(&done_sem)`. -/
  | post_done
  /-- The scan of `mechanic_available`, and where to go when it finds none. -/
  | claim_mechanic (none_free : CarPc)
  /-- The scan of `tester_available`. -/
  | claim_tester (none_free : CarPc)
  /-- `mechanic_available[my_mechanic - 1] = 1`. -/
  | free_mechanic
  /-- `tester_available[my_tester - 1] = 1`. -/
  | free_tester
  /-- A print or a sleep. -/
  | pause
  deriving DecidableEq, Repr

/-- The listing of `car_thread`. -/
def CarPc.code : CarPc → Option (CarOp × CarPc)
  | .unborn => none
  | .failed => none
  | .insert => some (.pq_insert, .waitAdmission)
  | .waitAdmission => some (.admission, .printArrived)
  | .printArrived => some (.pause, .waitMechanic)
  -- station 1
  | .waitMechanic => some (.wait .mechanic_sem, .claimMechanic)
  | .claimMechanic => some (.claim_mechanic .reportNoMechanic, .waitDiagnostic)
  | .reportNoMechanic => some (.pause, .noMechanicPostMechanic)
  | .noMechanicPostMechanic => some (.post .mechanic_sem, .noMechanicPostSlots)
  | .noMechanicPostSlots => some (.post .slots_sem, .noMechanicPostDone)
  | .noMechanicPostDone => some (.post_done, .finished)
  | .waitDiagnostic => some (.wait .diagnostic_sem, .waitTorque)
  | .waitTorque => some (.wait .torque_sem, .printWorking)
  | .printWorking => some (.pause, .work)
  | .work => some (.pause, .postTorque)
  | .postTorque => some (.post .torque_sem, .postDiagnostic)
  | .postDiagnostic => some (.post .diagnostic_sem, .printFinished)
  | .printFinished => some (.pause, .waitPollutionQueue)
  | .waitPollutionQueue => some (.wait .pollution_queue_sem, .freeMechanic)
  | .freeMechanic => some (.free_mechanic, .postMechanic)
  | .postMechanic => some (.post .mechanic_sem, .printMoved)
  | .printMoved => some (.pause, .waitPollutionWorker)
  -- station 2
  | .waitPollutionWorker => some (.wait .pollution_worker_sem, .postPollutionQueue)
  | .postPollutionQueue => some (.post .pollution_queue_sem, .claimTester)
  | .claimTester => some (.claim_tester .reportNoTester, .printStarting)
  | .reportNoTester => some (.pause, .noTesterPostWorker)
  | .noTesterPostWorker => some (.post .pollution_worker_sem, .noTesterPostSlots)
  | .noTesterPostSlots => some (.post .slots_sem, .noTesterPostDone)
  | .noTesterPostDone => some (.post_done, .finished)
  | .printStarting => some (.pause, .test)
  | .test => some (.pause, .freeTester)
  | .freeTester => some (.free_tester, .postPollutionWorker)
  | .postPollutionWorker => some (.post .pollution_worker_sem, .waitPayment)
  -- station 3 and the exit
  | .waitPayment => some (.wait .payment_box, .printDone)
  | .printDone => some (.pause, .postPayment)
  | .postPayment => some (.post .payment_box, .postSlots)
  | .postSlots => some (.post .slots_sem, .postDone)
  | .postDone => some (.post_done, .finished)
  | .finished => none

/-! ## §3. The other threads, and the state. -/

/-- `car_creator_thread`, in iteration `i` of its loop. -/
inductive CreatorPc (K : Nat) where
  | unborn
  | prepare (i : Fin K)
  | create (i : Fin K)
  | post_done (i : Fin K)
  | sleep (i : Fin K)
  | finished
  deriving DecidableEq

/-- The head of its loop. -/
def CreatorPc.loop {K : Nat} (i : Nat) : CreatorPc K :=
  if h : i < K then .prepare ⟨i, h⟩ else .finished

inductive ManagerPc (K : Nat) where
  | unborn
  | wait_queue
  | wait_slots
  | pop
  | post_car (car : Fin K)
  | return_slot
  deriving DecidableEq

inductive MonitorPc where
  | unborn
  | sleep
  | pass
  deriving DecidableEq

/-- `main`; `wait_done n` has passed `n` waits. -/
inductive MainPc where
  | create_creator
  | create_monitor
  | create_manager
  | wait_done (n : Nat)
  | close
  | returned (code : Int)
  deriving DecidableEq

/-- The head of the loop of main. -/
def MainPc.loop (K n : Nat) : MainPc := if n < K then .wait_done n else .close

/-- What all threads share, their locals, and where they are. -/
structure State (cfg : Config) where
  resource : Resource → Nat
  queue_sem : Nat
  done_sem : Nat
  /-- `cars[i].sem`. -/
  sem : Fin cfg.K_CARS → Nat
  /-- The other fields of `cars[i]`. -/
  cars : Heap (Fin cfg.K_CARS)
  pq : PriorityQueue (Fin cfg.K_CARS) cfg.K_CARS
  mechanic_available : Vector Bool cfg.MECHANIC
  tester_available : Vector Bool cfg.TESTER
  pc : Fin cfg.K_CARS → CarPc
  my_mechanic : Fin cfg.K_CARS → Option (Fin cfg.MECHANIC)
  my_tester : Fin cfg.K_CARS → Option (Fin cfg.TESTER)
  creator : CreatorPc cfg.K_CARS
  manager : ManagerPc cfg.K_CARS
  monitor : MonitorPc
  main : MainPc
  admissions : Fin cfg.K_CARS → Nat
  dones : Fin cfg.K_CARS → Nat

/-- Main has initialised the semaphores.  The car structs and the queue's
array are on its stack and hold anything; a `sem` counts as 0 until the
creator initialises it. -/
def State.start {cfg : Config} (cars : Heap (Fin cfg.K_CARS))
    (array : Vector (Fin cfg.K_CARS) cfg.K_CARS) : State cfg where
  resource := cfg.units
  queue_sem := 0
  done_sem := 0
  sem _ := 0
  cars := cars
  pq := PriorityQueue.empty array
  mechanic_available := Vector.ofFn fun i => decide (i.val < 3)
  tester_available := Vector.ofFn fun i => decide (i.val < 2)
  pc _ := .unborn
  my_mechanic _ := none
  my_tester _ := none
  creator := .unborn
  manager := .unborn
  monitor := .unborn
  main := .create_creator
  admissions _ := 0
  dones _ := 0

section step
variable {cfg : Config}

/-- Who steps, with what the outside decides: whether `pthread_create`
succeeds, what `is_vip` and `time(NULL)` return. -/
inductive Action (K : Nat) where
  | main (created : Bool)
  | creator (vip : Bool) (now : Int) (created : Bool)
  | manager
  | monitor (now : Int)
  | car (i : Fin K)

/-! ## §4. One step of each thread. -/

def mainStep (s : State cfg) (created : Bool) : Option (State cfg) :=
  match s.main with
  | .create_creator =>
      if created then some { s with creator := .loop 0, main := .create_monitor }
      else some { s with main := .returned 1 }
  | .create_monitor =>
      if created then some { s with monitor := .sleep, main := .create_manager }
      else some { s with main := .returned 1 }
  | .create_manager =>
      if created then some { s with manager := .wait_queue, main := .loop cfg.K_CARS 0 }
      else some { s with main := .returned 1 }
  | .wait_done n =>
      -- sem_wait blocks at zero
      if s.done_sem = 0 then none
      else some { s with done_sem := s.done_sem - 1, main := .loop cfg.K_CARS (n + 1) }
  | .close => some { s with main := .returned 0 }
  | .returned _ => none

def creatorStep (s : State cfg) (vip : Bool) (now : Int) (created : Bool) :
    Option (State cfg) :=
  match s.creator with
  | .unborn => none
  | .prepare i =>
      -- nobody else sees the car struct yet
      some { s with
        cars := Function.update s.cars i
          { car_id := i.val + 1, priority := if vip then 1 else 0, enter_time := now }
        sem := Function.update s.sem i 0
        creator := .create i }
  | .create i =>
      if created then
        some { s with pc := Function.update s.pc i .insert, creator := .sleep i }
      else
        -- no thread will post done_sem for this car: the creator does
        some { s with pc := Function.update s.pc i .failed, creator := .post_done i }
  | .post_done i =>
      some { s with
        done_sem := s.done_sem + 1
        dones := Function.update s.dones i (s.dones i + 1)
        creator := .sleep i }
  | .sleep i => some { s with creator := .loop (i.val + 1) }
  | .finished => none

def managerStep (s : State cfg) : Option (State cfg) :=
  match s.manager with
  | .unborn => none
  | .wait_queue =>
      if s.queue_sem = 0 then none
      else some { s with queue_sem := s.queue_sem - 1, manager := .wait_slots }
  | .wait_slots =>
      if s.resource .slots_sem = 0 then none
      else some { s with
        resource := Function.update s.resource .slots_sem (s.resource .slots_sem - 1)
        manager := .pop }
  | .pop =>
      match pq_pop s.pq with
      | (some car, pq) => some { s with pq := pq, manager := .post_car car }
      -- "return slot if pop failed (shouldn't happen)"
      | (none, pq) => some { s with pq := pq, manager := .return_slot }
  | .post_car car =>
      some { s with
        sem := Function.update s.sem car (s.sem car + 1)
        admissions := Function.update s.admissions car (s.admissions car + 1)
        manager := .wait_queue }
  | .return_slot =>
      some { s with
        resource := Function.update s.resource .slots_sem (s.resource .slots_sem + 1)
        manager := .wait_queue }

def monitorStep (s : State cfg) (now : Int) : Option (State cfg) :=
  match s.monitor with
  | .unborn => none
  | .sleep => some { s with monitor := .pass }
  | .pass =>
      some { s with
        pq := (monitorPass now s.pq s.cars).1
        cars := (monitorPass now s.pq s.cars).2
        monitor := .sleep }

/-- `for (i = 0; i < n; i++) if (available[i]) …`: the first free worker. -/
def firstFree {n : Nat} (available : Vector Bool n) : Option (Fin n) :=
  (List.finRange n).find? fun i => available.get i

def carStep (s : State cfg) (i : Fin cfg.K_CARS) : Option (State cfg) :=
  match (s.pc i).code with
  | none => none
  | some (.pq_insert, next) =>
      match pq_insert s.cars s.pq i with
      | .ok pq => some { s with
          pq := pq, queue_sem := s.queue_sem + 1, pc := Function.update s.pc i next }
      -- the overflow branch posts nothing
      | .error _ => some { s with pc := Function.update s.pc i next }
  | some (.admission, next) =>
      if s.sem i = 0 then none
      else some { s with
        sem := Function.update s.sem i (s.sem i - 1), pc := Function.update s.pc i next }
  | some (.wait r, next) =>
      if s.resource r = 0 then none
      else some { s with
        resource := Function.update s.resource r (s.resource r - 1)
        pc := Function.update s.pc i next }
  | some (.post r, next) =>
      some { s with
        resource := Function.update s.resource r (s.resource r + 1)
        pc := Function.update s.pc i next }
  | some (.post_done, next) =>
      some { s with
        done_sem := s.done_sem + 1
        dones := Function.update s.dones i (s.dones i + 1)
        pc := Function.update s.pc i next }
  | some (.claim_mechanic none_free, next) =>
      match firstFree s.mechanic_available with
      | some m => some { s with
          mechanic_available := s.mechanic_available.set m false
          my_mechanic := Function.update s.my_mechanic i (some m)
          pc := Function.update s.pc i next }
      | none => some { s with
          my_mechanic := Function.update s.my_mechanic i none
          pc := Function.update s.pc i none_free }
  | some (.claim_tester none_free, next) =>
      match firstFree s.tester_available with
      | some t => some { s with
          tester_available := s.tester_available.set t false
          my_tester := Function.update s.my_tester i (some t)
          pc := Function.update s.pc i next }
      | none => some { s with
          my_tester := Function.update s.my_tester i none
          pc := Function.update s.pc i none_free }
  | some (.free_mechanic, next) =>
      some { s with
        mechanic_available := match s.my_mechanic i with
          | some m => s.mechanic_available.set m true
          | none => s.mechanic_available
        pc := Function.update s.pc i next }
  | some (.free_tester, next) =>
      some { s with
        tester_available := match s.my_tester i with
          | some t => s.tester_available.set t true
          | none => s.tester_available
        pc := Function.update s.pc i next }
  | some (.pause, next) => some { s with pc := Function.update s.pc i next }

/-- One step of the whole program. -/
def step (s : State cfg) (a : Action cfg.K_CARS) : Option (State cfg) :=
  match s.main with
  | .returned _ => none
  | _ =>
    match a with
    | .main created => mainStep s created
    | .creator vip now created => creatorStep s vip now created
    | .manager => managerStep s
    | .monitor now => monitorStep s now
    | .car i => carStep s i

/-- A state of some run of the program. -/
def Reachable (s : State cfg) : Prop :=
  ∃ cars array, Reaches step (State.start cars array) s

end step

end ConcurrencyCrypto.Garage
