/-
  ConcurrencyCrypto.Garage.Workers
  ────────────────────────────────
  The program of `Garage.Machine` with the scans of `mechanic_available` and
  `tester_available` taken apart: lock, one read after the other, the store
  that claims, unlock.  The stores that release are outside the mutex and
  were steps of their own before.  A release may overtake a scan, so what the
  scan finds need not be the first worker that is free.

  A pool of `Library.WorkerPool` says what both arrays are for.
-/
import ConcurrencyCrypto.Garage.ServiceThreads
import ConcurrencyCrypto.Library.WorkerPool

namespace ConcurrencyCrypto.Garage

open ConcurrencyCrypto.Library

/-! ## §1. A scan. -/

/-- Where a car is in its scan. -/
inductive ScanPc (n : Nat) where
  /-- `int my_worker = -1; pthread_mutex_lock(&mutex);` -/
  | lock
  /-- The head of the loop: `i < n`, and the read of `available[i]`. -/
  | look (i : Nat)
  /-- `available[i] = 0; my_worker = i + 1; break;` -/
  | take (i : Fin n)
  /-- `pthread_mutex_unlock(&mutex);` -/
  | unlock
  | done
  deriving DecidableEq

/-- The mutex with who holds it, the array, and the locals of the scanning
thread. -/
structure Scan (T : Type) (n : Nat) where
  mutex : Option T
  available : Vector Bool n
  my : Option (Fin n)
  pc : ScanPc n

namespace Scan
variable {T : Type} {n : Nat}

/-- One step of the scan of thread `t`. -/
def step (t : T) (c : Scan T n) : Option (Scan T n) :=
  match c.pc with
  | .lock =>
      match c.mutex with
      | none => some { c with mutex := some t, my := none, pc := .look 0 }
      | some _ => none
  | .look i =>
      if h : i < n then
        if c.available.get ⟨i, h⟩ then some { c with pc := .take ⟨i, h⟩ }
        else some { c with pc := .look (i + 1) }
      else some { c with pc := .unlock }
  | .take i => some { c with
      available := c.available.set i.val false i.isLt, my := some i, pc := .unlock }
  | .unlock => some { c with mutex := none, pc := .done }
  | .done => none

/-- The label of the car: `here` during the scan, then by its result. -/
def label (c : Scan T n) (here none_free next : CarPc) : CarPc :=
  match c.pc, c.my with
  | .done, some _ => next
  | .done, none => none_free
  | _, _ => here

end Scan

/-- A car scans once; behind the scan its place in it counts no more. -/
def ScanPc.rest {n : Nat} : ScanPc n → ScanPc n
  | .done => .lock
  | pc => pc

/-! ## §2. The program. -/

/-- The state, with both mutexes and the scans. -/
structure Fine (cfg : Config) where
  base : State cfg
  mechanic_mutex : Option (Fin cfg.K_CARS)
  mechanic_scan : Fin cfg.K_CARS → ScanPc cfg.MECHANIC
  tester_mutex : Option (Fin cfg.K_CARS)
  tester_scan : Fin cfg.K_CARS → ScanPc cfg.TESTER

namespace Fine
variable {cfg : Config}

def start (cars : Heap (Fin cfg.K_CARS)) (array : Vector (Fin cfg.K_CARS) cfg.K_CARS) :
    Fine cfg :=
  ⟨State.start cars array, none, fun _ => .lock, none, fun _ => .lock⟩

/-- The scan of `mechanic_available` in which car `i` is. -/
def mechanicScan (s : Fine cfg) (i : Fin cfg.K_CARS) : Scan (Fin cfg.K_CARS) cfg.MECHANIC :=
  ⟨s.mechanic_mutex, s.base.mechanic_available, s.base.my_mechanic i, s.mechanic_scan i⟩

/-- That of `tester_available`. -/
def testerScan (s : Fine cfg) (i : Fin cfg.K_CARS) : Scan (Fin cfg.K_CARS) cfg.TESTER :=
  ⟨s.tester_mutex, s.base.tester_available, s.base.my_tester i, s.tester_scan i⟩

/-- Car `i` owns mechanic `m`: from the store that claims him, in the scan, to
the store that releases him. -/
def ownsMechanic (s : Fine cfg) (i : Fin cfg.K_CARS) (m : Fin cfg.MECHANIC) : Prop :=
  s.base.my_mechanic i = some m ∧
    (s.base.pc i = .claimMechanic ∧ s.mechanic_scan i = .unlock ∨
      s.base.pc i ∈ [.waitDiagnostic, .waitTorque, .printWorking, .work, .postTorque,
        .postDiagnostic, .printFinished, .waitPollutionQueue, .freeMechanic])

/-- Car `i` owns tester `m`. -/
def ownsTester (s : Fine cfg) (i : Fin cfg.K_CARS) (m : Fin cfg.TESTER) : Prop :=
  s.base.my_tester i = some m ∧
    (s.base.pc i = .claimTester ∧ s.tester_scan i = .unlock ∨
      s.base.pc i ∈ [.printStarting, .test, .freeTester])

/-- The state with this scan of car `i`. -/
def withMechanicScan (s : Fine cfg) (i : Fin cfg.K_CARS) (none_free next : CarPc)
    (c : Scan (Fin cfg.K_CARS) cfg.MECHANIC) : Fine cfg :=
  { s with
    mechanic_mutex := c.mutex
    mechanic_scan := Function.update s.mechanic_scan i c.pc.rest
    base := { s.base with
      mechanic_available := c.available
      my_mechanic := Function.update s.base.my_mechanic i c.my
      pc := Function.update s.base.pc i (c.label (s.base.pc i) none_free next) } }

def withTesterScan (s : Fine cfg) (i : Fin cfg.K_CARS) (none_free next : CarPc)
    (c : Scan (Fin cfg.K_CARS) cfg.TESTER) : Fine cfg :=
  { s with
    tester_mutex := c.mutex
    tester_scan := Function.update s.tester_scan i c.pc.rest
    base := { s.base with
      tester_available := c.available
      my_tester := Function.update s.base.my_tester i c.my
      pc := Function.update s.base.pc i (c.label (s.base.pc i) none_free next) } }

end Fine

section step
variable {cfg : Config}

/-- A step of the program of `Garage.Machine`. -/
def baseStep (s : Fine cfg) (a : Action cfg.K_CARS) : Option (Fine cfg) :=
  (step s.base a).map fun base => { s with base := base }

/-- A step of car `i`. -/
def fineCarStep (s : Fine cfg) (i : Fin cfg.K_CARS) : Option (Fine cfg) :=
  match (s.base.pc i).code with
  | some (.claim_mechanic none_free, next) =>
      ((s.mechanicScan i).step i).map (s.withMechanicScan i none_free next)
  | some (.claim_tester none_free, next) =>
      ((s.testerScan i).step i).map (s.withTesterScan i none_free next)
  | _ => baseStep s (.car i)

/-- One step of the whole program. -/
def fineStep (s : Fine cfg) (a : Action cfg.K_CARS) : Option (Fine cfg) :=
  match s.base.main with
  | .returned _ => none
  | _ =>
    match a with
    | .car i => fineCarStep s i
    | a => baseStep s a

/-- A state of some run. -/
def Fine.Reachable (s : Fine cfg) : Prop :=
  ∃ cars array, Reaches fineStep (Fine.start cars array) s

end step

/-! ## §3. What either array is for. -/

/-- Where a car is with respect to the mechanics, or to the testers. -/
inductive Station where
  | outside
  /-- It has a unit of the semaphore. -/
  | arrived
  | scanning
  | served
  /-- In the error branch. -/
  | lost
  /-- It has freed its worker, and not yet posted the semaphore. -/
  | leaving
  deriving DecidableEq

def mechanicStation : CarPc → Station
  | .claimMechanic => .scanning
  | .waitDiagnostic | .waitTorque | .printWorking | .work | .postTorque | .postDiagnostic
  | .printFinished | .waitPollutionQueue | .freeMechanic => .served
  | .reportNoMechanic | .noMechanicPostMechanic => .lost
  | .postMechanic => .leaving
  | _ => .outside

def testerStation : CarPc → Station
  | .postPollutionQueue => .arrived
  | .claimTester => .scanning
  | .printStarting | .test | .freeTester => .served
  | .reportNoTester | .noTesterPostWorker => .lost
  | .postPollutionWorker => .leaving
  | _ => .outside

/-- Its phase in the pool. -/
def phaseOf {n : Nat} (st : Station) (scan : ScanPc n) (my : Option (Fin n)) : WorkerPhase n :=
  match st with
  | .outside => .idle
  | .arrived => .waiting
  | .scanning =>
      match scan with
      | .lock => .waiting
      | .look i => .looking i
      | .take i => .taking i
      | .unlock | .done => .unlocking my
  | .served =>
      match my with
      | some m => .owning m
      | none => .released
  | .lost => .missed
  | .leaving => .released

namespace Fine
variable {cfg : Config}

/-- The pool of mechanics. -/
def mechanics (s : Fine cfg) : WorkerPool (Fin cfg.K_CARS) cfg.MECHANIC where
  available := s.base.mechanic_available
  mutex := s.mechanic_mutex
  phase i := phaseOf (mechanicStation (s.base.pc i)) (s.mechanic_scan i) (s.base.my_mechanic i)

/-- The pool of testers. -/
def testers (s : Fine cfg) : WorkerPool (Fin cfg.K_CARS) cfg.TESTER where
  available := s.base.tester_available
  mutex := s.tester_mutex
  phase i := phaseOf (testerStation (s.base.pc i)) (s.tester_scan i) (s.base.my_tester i)

end Fine

/-! ## §4. A step of a scan is a step of the pool. -/

section scan
variable {T : Type} [DecidableEq T] {n : Nat}

/-- The phase behind a step of the scan. -/
def Scan.after (c : Scan T n) : WorkerPhase n :=
  match c.pc with
  | .done => .ofFound c.my
  | pc => phaseOf .scanning pc c.my

/-- During the loop nothing has been found yet. -/
def Scan.Fresh (c : Scan T n) : Prop := ∀ i, c.pc = .look i → c.my = none

omit [DecidableEq T] in
theorem Scan.Fresh.step {c c' : Scan T n} {t : T} (h : c.Fresh) (hstep : c.step t = some c') :
    c'.Fresh := by
  obtain ⟨mutex, available, my, pc⟩ := c
  cases pc with
  | lock =>
      cases mutex with
      | some u => cases hstep
      | none =>
          injection hstep with hstep
          subst hstep
          exact fun _ _ => rfl
  | look i =>
      have hmy : my = none := h i rfl
      unfold Scan.step at hstep
      dsimp only at hstep
      split at hstep
      next =>
        split at hstep
        next =>
          injection hstep with hstep
          subst hstep
          exact fun _ _ => hmy
        next =>
          injection hstep with hstep
          subst hstep
          exact fun _ _ => hmy
      next =>
        injection hstep with hstep
        subst hstep
        exact fun _ _ => hmy
  | take i =>
      injection hstep with hstep
      subst hstep
      exact fun _ hc => nomatch hc
  | unlock =>
      injection hstep with hstep
      subst hstep
      exact fun _ hc => nomatch hc
  | done => cases hstep

/-- **A step of a scan is a step of the pool.** -/
theorem Scan.step_next {c c' : Scan T n} {t : T} (phase : T → WorkerPhase n)
    (hstep : c.step t = some c') (hfresh : c.Fresh)
    (hphase : phase t = phaseOf .scanning c.pc c.my) :
    WorkerPool.Next ⟨c.available, c.mutex, phase⟩ t
      ⟨c'.available, c'.mutex, Function.update phase t c'.after⟩ := by
  obtain ⟨mutex, available, my, pc⟩ := c
  cases pc with
  | lock =>
      cases mutex with
      | some u => cases hstep
      | none =>
          injection hstep with hstep
          subst hstep
          exact .lock hphase rfl
  | look i =>
      unfold Scan.step at hstep
      dsimp only at hstep
      split at hstep
      next hi =>
        split at hstep
        next hfree =>
          injection hstep with hstep
          subst hstep
          exact .free ⟨i, hi⟩ hphase hfree
        next hbusy =>
          injection hstep with hstep
          subst hstep
          exact .busy ⟨i, hi⟩ hphase (Bool.eq_false_of_not_eq_true hbusy)
      next hi =>
        have hmy : my = none := hfresh i rfl
        injection hstep with hstep
        subst hstep hmy
        exact .exhausted i (Nat.le_of_not_lt hi) hphase
  | take i =>
      injection hstep with hstep
      subst hstep
      exact .claim i hphase
  | unlock =>
      injection hstep with hstep
      subst hstep
      exact .unlock my hphase
  | done => cases hstep

end scan

/-! ## §5. Every other step of a car. -/

/-- The flags after the release store; nothing is stored without a worker. -/
def giveBack {n : Nat} (frees : Bool) (my : Option (Fin n)) (available : Vector Bool n) :
    Vector Bool n :=
  match frees, my with
  | true, some m => available.set m.val true m.isLt
  | _, _ => available

/-- How a station changes outside the scan; `frees` says whether the release
store is what happens. -/
inductive Station.Move : Station → Station → Bool → Prop where
  | stay (st : Station) : Move st st false
  | arrive : Move .outside .arrived false
  | arriveScan : Move .outside .scanning false
  | queue : Move .arrived .scanning false
  | release : Move .served .leaving true
  | leave : Move .leaving .outside false
  | giveUp : Move .lost .outside false

theorem Station.Move.next {T : Type} [DecidableEq T] {n : Nat} {st st' : Station} {frees : Bool}
    (h : Move st st' frees) {p : WorkerPool T n} {t : T} {my : Option (Fin n)}
    (hphase : p.phase t = phaseOf st .lock my) :
    let p' : WorkerPool T n := ⟨giveBack frees my p.available, p.mutex,
      Function.update p.phase t (phaseOf st' .lock my)⟩
    p' = p ∨ WorkerPool.Next p t p' := by
  obtain ⟨available, mutex, phase⟩ := p
  have hsame : ∀ {ph : WorkerPhase n}, phase t = ph →
      (⟨available, mutex, Function.update phase t ph⟩ : WorkerPool T n)
        = ⟨available, mutex, phase⟩ := by
    intro ph hph
    rw [← hph, Function.update_eq_self]
  cases h with
  | stay => exact Or.inl (hsame hphase)
  | arrive => exact Or.inr (.unit (Or.inl hphase) (Or.inr rfl))
  | arriveScan => exact Or.inr (.unit (Or.inl hphase) (Or.inr rfl))
  | queue => exact Or.inl (hsame hphase)
  | release =>
      cases my with
      | none => exact Or.inl (hsame hphase)
      | some m => exact Or.inr (.release m hphase)
  | leave => exact Or.inr (.unit (Or.inr (Or.inr hphase)) (Or.inl rfl))
  | giveUp => exact Or.inr (.unit (Or.inr (Or.inl hphase)) (Or.inl rfl))

/-- The operation is one of the two scans. -/
def CarOp.scans : CarOp → Bool
  | .claim_mechanic _ | .claim_tester _ => true
  | _ => false

/-- **The stations of the listing.** -/
theorem code_stations {pc next : CarPc} {op : CarOp} (h : pc.code = some (op, next))
    (hop : op.scans = false) :
    Station.Move (mechanicStation pc) (mechanicStation next) (decide (op = .free_mechanic)) ∧
      Station.Move (testerStation pc) (testerStation next) (decide (op = .free_tester)) := by
  cases pc <;> cases h <;> first
    | exact absurd hop Bool.noConfusion
    | exact ⟨by constructor, by constructor⟩

section frames
variable {cfg : Config} {s s' : State cfg}

/-- What a step of car `i` outside the scans does to the workers. -/
structure CarFrame (s s' : State cfg) (i : Fin cfg.K_CARS) (op : CarOp) (next : CarPc) :
    Prop where
  pc : s'.pc = Function.update s.pc i next
  my_mechanic : s'.my_mechanic = s.my_mechanic
  my_tester : s'.my_tester = s.my_tester
  mechanics : s'.mechanic_available
    = giveBack (decide (op = .free_mechanic)) (s.my_mechanic i) s.mechanic_available
  testers : s'.tester_available
    = giveBack (decide (op = .free_tester)) (s.my_tester i) s.tester_available
  wait : ∀ r, op = .wait r → s.resource r ≠ 0

theorem carStep_frame {i : Fin cfg.K_CARS} {op : CarOp} {next : CarPc}
    (hstep : carStep s i = some s') (hcode : (s.pc i).code = some (op, next))
    (hop : op.scans = false) : CarFrame s s' i op next := by
  unfold carStep at hstep
  rw [hcode] at hstep
  cases op with
  | pq_insert =>
      dsimp only at hstep
      split at hstep
      next =>
        injection hstep with hstep
        subst hstep
        exact ⟨rfl, rfl, rfl, rfl, rfl, nofun⟩
      next =>
        injection hstep with hstep
        subst hstep
        exact ⟨rfl, rfl, rfl, rfl, rfl, nofun⟩
  | admission =>
      dsimp only at hstep
      split at hstep
      next => cases hstep
      next =>
        injection hstep with hstep
        subst hstep
        exact ⟨rfl, rfl, rfl, rfl, rfl, nofun⟩
  | wait r =>
      dsimp only at hstep
      split at hstep
      next => cases hstep
      next hr =>
        injection hstep with hstep
        subst hstep
        refine ⟨rfl, rfl, rfl, rfl, rfl, ?_⟩
        intro q hq
        injection hq with hq
        rw [← hq]
        exact hr
  | claim_mechanic e => cases hop
  | claim_tester e => cases hop
  | free_mechanic =>
      injection hstep with hstep
      subst hstep
      refine ⟨rfl, rfl, rfl, ?_, rfl, nofun⟩
      dsimp only
      cases s.my_mechanic i <;> rfl
  | free_tester =>
      injection hstep with hstep
      subst hstep
      refine ⟨rfl, rfl, rfl, rfl, ?_, nofun⟩
      dsimp only
      cases s.my_tester i <;> rfl
  | _ =>
      injection hstep with hstep
      subst hstep
      exact ⟨rfl, rfl, rfl, rfl, rfl, nofun⟩

/-- What the other threads do to them: a car may be created. -/
structure ServiceFrame (s s' : State cfg) : Prop where
  pc : ∀ j, s'.pc j = s.pc j ∨
    (s.pc j = .unborn ∧ (s'.pc j = .insert ∨ s'.pc j = .failed))
  my_mechanic : s'.my_mechanic = s.my_mechanic
  my_tester : s'.my_tester = s.my_tester
  mechanics : s'.mechanic_available = s.mechanic_available
  testers : s'.tester_available = s.tester_available

theorem creatorStep_frame (h : Invariant s) {vip : Bool} {now : Int} {created : Bool}
    (hstep : creatorStep s vip now created = some s') : ServiceFrame s s' := by
  unfold creatorStep at hstep
  cases hc : s.creator with
  | create i =>
      have hborn : s.pc i = .unborn := (h.born i).mpr (by rw [hc]; exact Nat.le_refl _)
      rw [hc] at hstep
      dsimp only at hstep
      split at hstep
      · injection hstep with hstep
        subst hstep
        refine ⟨?_, rfl, rfl, rfl, rfl⟩
        intro j
        by_cases hj : j = i
        · subst hj
          exact Or.inr ⟨hborn, Or.inl (Function.update_self _ _ _)⟩
        · exact Or.inl (Function.update_of_ne hj _ _)
      · injection hstep with hstep
        subst hstep
        refine ⟨?_, rfl, rfl, rfl, rfl⟩
        intro j
        by_cases hj : j = i
        · subst hj
          exact Or.inr ⟨hborn, Or.inr (Function.update_self _ _ _)⟩
        · exact Or.inl (Function.update_of_ne hj _ _)
  | unborn =>
      rw [hc] at hstep
      cases hstep
  | finished =>
      rw [hc] at hstep
      cases hstep
  | _ =>
      rw [hc] at hstep
      injection hstep with hstep
      subst hstep
      exact ⟨fun j => Or.inl rfl, rfl, rfl, rfl, rfl⟩

theorem step_frame (h : Invariant s) {a : Action cfg.K_CARS} (ha : ∀ i, a ≠ .car i)
    (hstep : step s a = some s') : ServiceFrame s s' := by
  unfold step at hstep
  split at hstep
  next => cases hstep
  next =>
    cases a with
    | main created =>
        unfold mainStep at hstep
        dsimp only at hstep
        repeat' split at hstep
        all_goals cases hstep
        all_goals exact ⟨fun j => Or.inl rfl, rfl, rfl, rfl, rfl⟩
    | creator vip now created => exact creatorStep_frame h hstep
    | manager =>
        unfold managerStep at hstep
        dsimp only at hstep
        repeat' split at hstep
        all_goals cases hstep
        all_goals exact ⟨fun j => Or.inl rfl, rfl, rfl, rfl, rfl⟩
    | monitor now =>
        unfold monitorStep at hstep
        dsimp only at hstep
        repeat' split at hstep
        all_goals cases hstep
        all_goals exact ⟨fun j => Or.inl rfl, rfl, rfl, rfl, rfl⟩
    | car i => exact absurd rfl (ha i)

end frames

end ConcurrencyCrypto.Garage
