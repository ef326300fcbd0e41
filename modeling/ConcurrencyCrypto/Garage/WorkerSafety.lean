/-
  ConcurrencyCrypto.Garage.WorkerSafety
  ─────────────────────────────────────
  **WHO IS WHICH WORKER, IN EVERY RUN.**

  The pools of mechanics and testers take a step with every step of the
  program, or none; so both are `Safe` in every run, and `Enough` where the
  initialisers `{1, 1, 1}` and `{1, 1}` of the arrays provide for all cars
  that the semaphores let in at once.

    • `worker_identities`       — no two cars own one worker, and the error
      branches are not reached, under that condition;
    • `fourth_mechanic_missing` — with four mechanics the fourth car finds
      none.
-/
import ConcurrencyCrypto.Garage.Safety
import ConcurrencyCrypto.Garage.WorkerPools

namespace ConcurrencyCrypto.Garage

open ConcurrencyCrypto.Library

variable {cfg : Config}

/-! ## §1. Ownership in every run. -/

section ownership
variable {s : Fine cfg}

/-- The flags that the initialisers set. -/
def mechanicLive (cfg : Config) (m : Fin cfg.MECHANIC) : Bool := decide (m.val < 3)

def testerLive (cfg : Config) (m : Fin cfg.TESTER) : Bool := decide (m.val < 2)

theorem PoolStep.safe {T : Type} [DecidableEq T] {n : Nat} {live : Fin n → Bool}
    {p p' : WorkerPool T n} (h : p.Safe live) (hstep : PoolStep p p') : p'.Safe live := by
  rcases hstep with hsame | ⟨t, hnext⟩
  · rw [hsame]
    exact h
  · exact h.next hnext

/-- The invariant with the two pools in order. -/
structure Owned (s : Fine cfg) : Prop where
  inv : FineInvariant s
  mechanics : s.mechanics.Safe (mechanicLive cfg)
  testers : s.testers.Safe (testerLive cfg)

theorem Owned.next {s' : Fine cfg} {a : Action cfg.K_CARS} (h : Owned s)
    (hstep : fineStep s a = some s') : Owned s' := by
  obtain ⟨hmechanics, htesters⟩ := fineStep_pools h.inv hstep
  exact ⟨h.inv.next hstep, hmechanics.safe h.mechanics, htesters.safe h.testers⟩

theorem owned_start (cars : Heap (Fin cfg.K_CARS))
    (array : Vector (Fin cfg.K_CARS) cfg.K_CARS) : Owned (Fine.start cars array : Fine cfg) :=
  ⟨fineInvariant_start cars array, WorkerPool.safe_start _, WorkerPool.safe_start _⟩

theorem Fine.Reachable.owned (h : s.Reachable) : Owned s := by
  obtain ⟨cars, array, hreaches⟩ := h
  exact hreaches.invariant (owned_start cars array) fun _ _ _ hs hstep => hs.next hstep

/-- Who owns a mechanic owns him in the pool. -/
theorem worker_of_ownsMechanic {i : Fin cfg.K_CARS} {m : Fin cfg.MECHANIC}
    (h : s.ownsMechanic i m) : (s.mechanics.phase i).worker = some m := by
  show (phaseOf (mechanicStation (s.base.pc i)) (s.mechanic_scan i)
    (s.base.my_mechanic i)).worker = some m
  obtain ⟨hmy, ⟨hpc, hscan⟩ | hpc⟩ := h
  · rw [hmy, hpc, hscan]
    rfl
  · have hst : mechanicStation (s.base.pc i) = .served := by
      revert hpc
      cases s.base.pc i <;> first | exact fun _ => rfl | exact fun hc => absurd hc (by decide)
    rw [hmy, hst]
    rfl

theorem worker_of_ownsTester {i : Fin cfg.K_CARS} {m : Fin cfg.TESTER}
    (h : s.ownsTester i m) : (s.testers.phase i).worker = some m := by
  show (phaseOf (testerStation (s.base.pc i)) (s.tester_scan i)
    (s.base.my_tester i)).worker = some m
  obtain ⟨hmy, ⟨hpc, hscan⟩ | hpc⟩ := h
  · rw [hmy, hpc, hscan]
    rfl
  · have hst : testerStation (s.base.pc i) = .served := by
      revert hpc
      cases s.base.pc i <;> first | exact fun _ => rfl | exact fun hc => absurd hc (by decide)
    rw [hmy, hst]
    rfl

end ownership

/-! ## §2. How many cars have a unit. -/

section bounds
variable {s : Fine cfg}

theorem hasUnit_phaseOf {n : Nat} (st : Station) (scan : ScanPc n) (my : Option (Fin n)) :
    (phaseOf st scan my).hasUnit = decide (st ≠ .outside) := by
  cases st with
  | scanning => cases scan <;> rfl
  | served => cases my <;> rfl
  | _ => rfl

theorem holds_mechanic (pc : CarPc) :
    pc.holds .mechanic_sem = decide (mechanicStation pc ≠ .outside) := by
  cases pc <;> rfl

theorem holds_tester (pc : CarPc) :
    pc.holds .pollution_worker_sem = decide (testerStation pc ≠ .outside) := by
  cases pc <;> rfl

/-- A car at a station is inside. -/
theorem holds_slots {pc : CarPc} {r : Resource} (h : pc.holds r = true) :
    pc.holds .slots_sem = true := by
  cases r <;> cases pc <;> first | rfl | exact absurd h (by decide)

/-- **What the semaphores let in**: no more holders of `r` than it has units,
than the institute has slots, and than there are cars. -/
theorem Invariant.card_holders_le {b : State cfg} (h : Invariant b) (r : Resource) :
    (Finset.univ.filter fun i => (b.pc i).holds r = true).card ≤ cfg.units r ∧
      (Finset.univ.filter fun i => (b.pc i).holds r = true).card ≤ cfg.N_CAPACITY ∧
      (Finset.univ.filter fun i => (b.pc i).holds r = true).card ≤ cfg.K_CARS := by
  have hunits : ∀ q, (Finset.univ.filter fun i => (b.pc i).holds q = true).card ≤ cfg.units q := by
    intro q
    refine (h.units q).card_holders_le ?_
    intro i hi
    unfold State.carHolds CarPc.units
    rw [hi, Bool.toNat_true]
    omega
  refine ⟨hunits r, ?_, ?_⟩
  · have hsub : (Finset.univ.filter fun i => (b.pc i).holds r = true)
        ⊆ Finset.univ.filter fun i => (b.pc i).holds .slots_sem = true :=
      Finset.monotone_filter_right _ fun i _ hi => holds_slots hi
    exact Nat.le_trans (Finset.card_le_card hsub) (hunits .slots_sem)
  · have hcard := Finset.card_le_univ (Finset.univ.filter fun i => (b.pc i).holds r = true)
    rwa [Fintype.card_fin] at hcard

theorem mechanic_units (s : Fine cfg) :
    (Finset.univ.filter fun i => (s.mechanics.phase i).hasUnit = true)
      = Finset.univ.filter fun i => (s.base.pc i).holds .mechanic_sem = true := by
  refine Finset.filter_congr fun i _ => ?_
  rw [holds_mechanic, ← hasUnit_phaseOf]
  rfl

theorem tester_units (s : Fine cfg) :
    (Finset.univ.filter fun i => (s.testers.phase i).hasUnit = true)
      = Finset.univ.filter fun i => (s.base.pc i).holds .pollution_worker_sem = true := by
  refine Finset.filter_congr fun i _ => ?_
  rw [holds_tester, ← hasUnit_phaseOf]
  rfl

theorem card_live (n m : Nat) :
    (Finset.univ.filter fun i : Fin n => decide (i.val < m) = true).card = min n m := by
  simp only [decide_eq_true_eq]
  exact Fin.card_filter_val_lt

end bounds

/-! ## §3. A station that lets nobody in. -/

section shut

/-- How many of the five waits of the two stations the thread has passed on
its way to a tester; 0 where it does not go there any more. -/
def CarPc.stage : CarPc → Nat
  | .claimMechanic | .waitDiagnostic => 1
  | .waitTorque => 2
  | .printWorking | .work | .postTorque | .postDiagnostic | .printFinished
  | .waitPollutionQueue => 3
  | .freeMechanic | .postMechanic | .printMoved | .waitPollutionWorker => 4
  | .postPollutionQueue | .claimTester | .reportNoTester | .noTesterPostWorker
  | .printStarting | .test | .freeTester | .postPollutionWorker => 5
  | _ => 0

/-- The wait for `r` among them. -/
def Resource.stage : Resource → Nat
  | .mechanic_sem => 1
  | .diagnostic_sem => 2
  | .torque_sem => 3
  | .pollution_queue_sem => 4
  | .pollution_worker_sem => 5
  | _ => 0

/-- The only way past a wait is the wait. -/
theorem code_stage {pc next : CarPc} {op : CarOp} (h : pc.code = some (op, next)) (r : Resource)
    (hbefore : pc.stage < r.stage) (hpast : r.stage ≤ next.stage) : op = .wait r := by
  cases pc <;> cases h <;> cases r <;> first
    | rfl
    | exact absurd hbefore (by decide)
    | exact absurd hpast (by decide)

variable {s : Fine cfg}

/-- Without a unit of `r` every car stays before it. -/
theorem FineInvariant.shut_next {s' : Fine cfg} {a : Action cfg.K_CARS} (h : FineInvariant s)
    {r : Resource} (hr : 0 < r.stage) (hzero : cfg.units r = 0)
    (hshut : ∀ i, (s.base.pc i).stage < r.stage) (hstep : fineStep s a = some s') :
    ∀ j, (s'.base.pc j).stage < r.stage := by
  have hupdate : ∀ (i : Fin cfg.K_CARS) (pc' : CarPc), pc'.stage < r.stage →
      ∀ j, (Function.update s.base.pc i pc' j).stage < r.stage := fun i pc' hpc' =>
    (Function.forall_update_iff s.base.pc fun _ pc => pc.stage < r.stage).mpr
      ⟨hpc', fun j _ => hshut j⟩
  cases fineStep_effect hstep with
  | service a b ha hb hs' =>
      subst hs'
      intro j
      show (b.pc j).stage < r.stage
      rcases (step_frame h.base ha hb).pc j with hj | ⟨-, hj | hj⟩ <;> rw [hj]
      · exact hshut j
      · exact hr
      · exact hr
  | car i op next b hcode hop hb hs' =>
      subst hs'
      have hframe := carStep_frame hb hcode hop
      have hnext : next.stage < r.stage := by
        by_contra hpast
        have hwait := code_stage hcode r (hshut i) (Nat.le_of_not_lt hpast)
        -- the semaphore has no unit to give
        have hunits := h.base.units r
        unfold Conserved at hunits
        exact hframe.wait r hwait (by omega)
      intro j
      show (b.pc j).stage < r.stage
      rw [hframe.pc]
      exact hupdate i next hnext j
  | mechanic i e next c hcode hc hs' =>
      subst hs'
      obtain ⟨hpc, rfl, rfl⟩ := code_claim_mechanic hcode
      have hhere := hshut i
      rw [hpc] at hhere
      refine hupdate i _ ?_
      rw [hpc]
      rcases c.label_cases .claimMechanic .reportNoMechanic .waitDiagnostic with hl | hl | hl <;>
        rw [hl]
      · exact hhere
      · exact hr
      · exact hhere
  | tester i e next c hcode hc hs' =>
      subst hs'
      obtain ⟨hpc, rfl, rfl⟩ := code_claim_tester hcode
      have hhere := hshut i
      rw [hpc] at hhere
      refine hupdate i _ ?_
      rw [hpc]
      rcases c.label_cases .claimTester .reportNoTester .printStarting with hl | hl | hl <;>
        rw [hl] <;> exact hhere

theorem Fine.Reachable.shut (h : s.Reachable) {r : Resource} (hr : 0 < r.stage)
    (hzero : cfg.units r = 0) (i : Fin cfg.K_CARS) : (s.base.pc i).stage < r.stage := by
  obtain ⟨cars, array, hreaches⟩ := h
  have hstart : FineInvariant (Fine.start cars array : Fine cfg) ∧
      ∀ i, ((Fine.start cars array : Fine cfg).base.pc i).stage < r.stage :=
    ⟨fineInvariant_start cars array, fun _ => hr⟩
  have hboth := hreaches.invariant
    (I := fun t => FineInvariant t ∧ ∀ i, (t.base.pc i).stage < r.stage) hstart
    fun _ _ _ hs hstep => ⟨hs.1.next hstep, hs.1.shut_next hr hzero hs.2 hstep⟩
  exact hboth.2 i

/-- Nobody is at station 2 then. -/
theorem Fine.Reachable.no_tester_unit (h : s.Reachable) {r : Resource} (hr : 0 < r.stage)
    (hzero : cfg.units r = 0) (i : Fin cfg.K_CARS) :
    (s.base.pc i).holds .pollution_worker_sem = false := by
  have hbefore := h.shut hr hzero i
  revert hbefore
  cases s.base.pc i <;> cases r <;> first
    | exact fun _ => rfl
    | exact fun hc => absurd hc (by decide)

end shut

/-! ## §4. The error branches. -/

section enough
variable {s : Fine cfg}

/-- The initialisers provide a worker for every car that can be at either
station at once. -/
structure Config.Provided (cfg : Config) : Prop where
  mechanics : cfg.MECHANIC ≤ 3 ∨ cfg.N_CAPACITY ≤ 3 ∨ cfg.K_CARS ≤ 3
  testers : cfg.POLLUTION_WORKERS ≤ 2 ∨ cfg.N_CAPACITY ≤ 2 ∨ cfg.K_CARS ≤ 2 ∨
    cfg.MECHANIC = 0 ∨ cfg.DIAGNOSTIC_TABLETS = 0 ∨ cfg.TORQUE_WRENCH = 0 ∨
    cfg.POLLUTION_QUEUE = 0

theorem Fine.Reachable.mechanics_bound (h : s.Reachable) (hprovided : cfg.Provided) :
    (Finset.univ.filter fun i => (s.mechanics.phase i).hasUnit = true).card
      ≤ (Finset.univ.filter fun m => mechanicLive cfg m = true).card := by
  obtain ⟨hunits, hslots, hcars⟩ := h.owned.inv.base.card_holders_le .mechanic_sem
  have hlive : (Finset.univ.filter fun m => mechanicLive cfg m = true).card
      = min cfg.MECHANIC 3 := card_live _ _
  have hmechanic : cfg.units .mechanic_sem = cfg.MECHANIC := rfl
  rw [mechanic_units, hlive]
  rcases hprovided.mechanics with hp | hp | hp <;> omega

theorem Fine.Reachable.testers_bound (h : s.Reachable) (hprovided : cfg.Provided)
    (hworkers : cfg.POLLUTION_WORKERS ≤ cfg.TESTER) :
    (Finset.univ.filter fun i => (s.testers.phase i).hasUnit = true).card
      ≤ (Finset.univ.filter fun m => testerLive cfg m = true).card := by
  obtain ⟨hunits, hslots, hcars⟩ := h.owned.inv.base.card_holders_le .pollution_worker_sem
  have hlive : (Finset.univ.filter fun m => testerLive cfg m = true).card
      = min cfg.TESTER 2 := card_live _ _
  have hworker : cfg.units .pollution_worker_sem = cfg.POLLUTION_WORKERS := rfl
  have hnobody : ∀ r : Resource, 0 < r.stage → cfg.units r = 0 →
      (Finset.univ.filter fun i =>
        (s.base.pc i).holds .pollution_worker_sem = true).card = 0 := by
    intro r hr hzero
    rw [Finset.card_eq_zero, Finset.filter_eq_empty_iff]
    intro i _
    rw [h.no_tester_unit hr hzero i]
    exact Bool.false_ne_true
  rw [tester_units, hlive]
  rcases hprovided.testers with hp | hp | hp | hp | hp | hp | hp
  · omega
  · omega
  · omega
  · have := hnobody .mechanic_sem (by decide) hp
    omega
  · have := hnobody .diagnostic_sem (by decide) hp
    omega
  · have := hnobody .torque_sem (by decide) hp
    omega
  · have := hnobody .pollution_queue_sem (by decide) hp
    omega

theorem PoolStep.enough {T : Type} [DecidableEq T] [Fintype T] {n : Nat} {live : Fin n → Bool}
    {p p' : WorkerPool T n} (h : p.Enough) (hsafe : p.Safe live)
    (hbound : (Finset.univ.filter fun u => (p.phase u).hasUnit = true).card
      ≤ (Finset.univ.filter fun m => live m = true).card)
    (hstep : PoolStep p p') : p'.Enough := by
  rcases hstep with hsame | ⟨t, hnext⟩
  · rw [hsame]
    exact h
  · exact h.next hsafe hbound hnext

/-- **Every scan finds a worker**, where the initialisers provide enough. -/
theorem Fine.Reachable.enough (h : s.Reachable) (hprovided : cfg.Provided)
    (hworkers : cfg.POLLUTION_WORKERS ≤ cfg.TESTER) :
    s.mechanics.Enough ∧ s.testers.Enough := by
  obtain ⟨cars, array, hreaches⟩ := h
  induction hreaches with
  | refl => exact ⟨WorkerPool.enough_start _, WorkerPool.enough_start _⟩
  | tail hreaches hlast ih =>
      obtain ⟨a, hstep⟩ := hlast
      have hreachable : Fine.Reachable _ := ⟨cars, array, hreaches⟩
      have howned := hreachable.owned
      obtain ⟨hpool, hpool'⟩ := fineStep_pools howned.inv hstep
      exact ⟨
        hpool.enough ih.1 howned.mechanics (hreachable.mechanics_bound hprovided),
        hpool'.enough ih.2 howned.testers (hreachable.testers_bound hprovided hworkers)⟩

/-- **Nobody shares a worker**, however many there are. -/
theorem Fine.Reachable.exclusive (h : s.Reachable) :
    (∀ i j m, s.ownsMechanic i m → s.ownsMechanic j m → i = j) ∧
      ∀ i j m, s.ownsTester i m → s.ownsTester j m → i = j := by
  have howned := h.owned
  constructor
  · intro i j m hi hj
    exact howned.mechanics.unique i j m (worker_of_ownsMechanic hi) (worker_of_ownsMechanic hj)
  · intro i j m hi hj
    exact howned.testers.unique i j m (worker_of_ownsTester hi) (worker_of_ownsTester hj)

/-- **EXCLUSIVE WORKERS, AND NO ERROR BRANCH.**  In every reachable state of a
garage whose initialisers provide enough workers, no two cars own one
mechanic or one tester, and no scan has failed. -/
theorem worker_identities (h : s.Reachable) (hworkers : cfg.POLLUTION_WORKERS ≤ cfg.TESTER)
    (hprovided : cfg.Provided) :
    (∀ i j m, s.ownsMechanic i m → s.ownsMechanic j m → i = j) ∧
      (∀ i j m, s.ownsTester i m → s.ownsTester j m → i = j) ∧
      ∀ i, s.base.pc i ≠ .reportNoMechanic ∧ s.base.pc i ≠ .reportNoTester := by
  obtain ⟨hmechanics, htesters⟩ := h.enough hprovided hworkers
  refine ⟨h.exclusive.1, h.exclusive.2, ?_⟩
  intro i
  constructor
  · intro hpc
    have hmissed : s.mechanics.phase i = .missed := by
      show phaseOf (mechanicStation (s.base.pc i)) _ _ = _
      rw [hpc]
      rfl
    exact (hmechanics.found i).2 hmissed
  · intro hpc
    have hmissed : s.testers.phase i = .missed := by
      show phaseOf (testerStation (s.base.pc i)) _ _ = _
      rw [hpc]
      rfl
    exact (htesters.found i).2 hmissed

/-- The two cars of `smallStart` are with a mechanic each. -/
theorem worker_identities_two_cars :
    ∃ s : Fine smallConfig, s.ownsMechanic smallCar (0 : Fin 2) ∧
      s.ownsMechanic vipCar (1 : Fin 2) ∧
      (∀ i j m, s.ownsMechanic i m → s.ownsMechanic j m → i = j) ∧
      (∀ i j m, s.ownsTester i m → s.ownsTester j m → i = j) ∧
      ∀ i, s.base.pc i ≠ .reportNoMechanic ∧ s.base.pc i ≠ .reportNoTester := by
  have hrun : ∃ s, Reaches fineStep (Fine.start (fun _ => ⟨0, 0, 0⟩) #v[smallCar, smallCar]) s ∧
      (s.base.pc smallCar, s.base.my_mechanic smallCar, s.base.pc vipCar,
          s.base.my_mechanic vipCar)
        = (.waitDiagnostic, some (0 : Fin 2), .waitDiagnostic, some (1 : Fin 2)) :=
    exists_reaches
      (smallArrival ++ List.replicate 8 .manager ++
        (List.replicate 3 [.car smallCar, .car vipCar]).flatten ++
        List.replicate 4 (.car smallCar) ++ List.replicate 5 (.car vipCar))
      (fun s : Fine smallConfig => (s.base.pc smallCar, s.base.my_mechanic smallCar,
        s.base.pc vipCar, s.base.my_mechanic vipCar)) (by decide +kernel)
  obtain ⟨s, hs, hwhere⟩ := hrun
  obtain ⟨hpc, hwhere⟩ := Prod.mk.inj hwhere
  obtain ⟨hmy, hwhere⟩ := Prod.mk.inj hwhere
  obtain ⟨hpc', hmy'⟩ := Prod.mk.inj hwhere
  refine ⟨s, ⟨hmy, Or.inr ?_⟩, ⟨hmy', Or.inr ?_⟩, worker_identities ⟨_, _, hs⟩ (by decide)
    ⟨Or.inl (by decide), Or.inl (by decide)⟩⟩
  · rw [hpc]
    exact List.mem_cons_self
  · rw [hpc']
    exact List.mem_cons_self

/-- Four mechanics, four cars, and room for all. -/
def fourMechanics : Config := ⟨4, 4, 4, 1, 1, 1, 1, 1, 1⟩

/-- All cars are admitted and pass `mechanic_sem`; then one scans after the
other. -/
def fourScans : List (Action fourMechanics.K_CARS) :=
  List.flatten [List.replicate 3 (Action.main true),
    List.replicate 12 (Action.creator false 100 true),
    (List.finRange 4).map Action.car,
    List.replicate 16 Action.manager,
    (List.finRange 4).flatMap fun i => List.replicate 3 (Action.car i),
    (List.finRange 4).flatMap fun i => List.replicate (4 + i.val) (Action.car i)]

def fourStart : Fine fourMechanics :=
  Fine.start (fun _ => ⟨0, 0, 0⟩) (Vector.ofFn id)

/-- **A FOURTH MECHANIC IS MISSING**: his flag is 0 from the start, so the
last car finds none. -/
theorem fourth_mechanic_missing :
    fourMechanics.POLLUTION_WORKERS ≤ fourMechanics.TESTER ∧
      ∃ s : Fine fourMechanics, s.Reachable ∧ s.base.pc (Fin.last 3) = .reportNoMechanic := by
  refine ⟨Nat.le_refl 1, ?_⟩
  have hrun : ∃ s, Reaches fineStep fourStart s ∧ s.base.pc (Fin.last 3) = .reportNoMechanic :=
    exists_reaches fourScans (fun s : Fine fourMechanics => s.base.pc (Fin.last 3))
      (by decide +kernel)
  obtain ⟨s, hs, hpc⟩ := hrun
  exact ⟨s, ⟨_, _, hs⟩, hpc⟩

end enough

end ConcurrencyCrypto.Garage
