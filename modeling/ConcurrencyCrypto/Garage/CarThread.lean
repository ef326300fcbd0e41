/-
  ConcurrencyCrypto.Garage.CarThread
  ──────────────────────────────────
  **WHAT A STEP OF A CAR CAN DO.**

  Everything about `car_thread` is read off its listing.  A label says which
  units the thread has there, and `code_units` says that an operation takes
  and gives exactly what the next label has more or less.  `carStep_effect`
  then leaves five kinds of steps: into the queue, past the admission, on
  inside, out, and the overflow that will turn out not to happen.
-/
import ConcurrencyCrypto.Garage.Machine

namespace ConcurrencyCrypto.Garage

open ConcurrencyCrypto.Library

/-! ## §1. The labels. -/

/-- The thread at this label has a unit of the semaphore. -/
def CarPc.holds (pc : CarPc) : Resource → Bool
  | .slots_sem => pc ∉ [.unborn, .failed, .insert, .waitAdmission, .noMechanicPostDone,
      .noTesterPostDone, .postDone, .finished]
  | .mechanic_sem => pc ∈ [.claimMechanic, .reportNoMechanic, .noMechanicPostMechanic,
      .waitDiagnostic, .waitTorque, .printWorking, .work, .postTorque, .postDiagnostic,
      .printFinished, .waitPollutionQueue, .freeMechanic, .postMechanic]
  | .diagnostic_sem => pc ∈ [.waitTorque, .printWorking, .work, .postTorque, .postDiagnostic]
  | .torque_sem => pc ∈ [.printWorking, .work, .postTorque]
  | .pollution_queue_sem => pc ∈ [.freeMechanic, .postMechanic, .printMoved,
      .waitPollutionWorker, .postPollutionQueue]
  | .pollution_worker_sem => pc ∈ [.postPollutionQueue, .claimTester, .reportNoTester,
      .noTesterPostWorker, .printStarting, .test, .freeTester, .postPollutionWorker]
  | .payment_box => pc ∈ [.printDone, .postPayment]

/-- How many. -/
def CarPc.units (pc : CarPc) (r : Resource) : Nat := (pc.holds r).toNat

/-- The car has called `pq_insert`. -/
def CarPc.inserted (pc : CarPc) : Bool := pc ∉ [.unborn, .failed, .insert]

/-- The car has passed the wait on its own semaphore. -/
def CarPc.admitted (pc : CarPc) : Bool := pc ∉ [.unborn, .failed, .insert, .waitAdmission]

/-- There is no thread any more. -/
def CarPc.ended (pc : CarPc) : Bool := pc ∈ [.failed, .finished]

/-- Between the car's admission and its last statement. -/
def CarPc.inside (pc : CarPc) : Bool :=
  pc ∉ [.unborn, .failed, .insert, .waitAdmission, .finished]

def CarOp.takes : CarOp → Resource → Nat
  | .wait r', r => if r = r' then 1 else 0
  | _, _ => 0

def CarOp.gives : CarOp → Resource → Nat
  | .post r', r => if r = r' then 1 else 0
  | _, _ => 0

/-- The operations of a car that is inside. -/
def CarOp.ofInside : CarOp → Bool
  | .pq_insert | .admission | .post_done => false
  | _ => true

/-- **The ledger of the listing.** -/
theorem code_units {pc next : CarPc} {op : CarOp} (h : pc.code = some (op, next))
    (hop : op.ofInside = true) (r : Resource) :
    next.units r + op.gives r = pc.units r + op.takes r := by
  cases pc <;> cases h <;> first | exact absurd hop Bool.false_ne_true | (cases r <;> rfl)

/-- An error exit takes nothing and gives nothing. -/
theorem code_none_free {pc next e : CarPc}
    (h : pc.code = some (.claim_mechanic e, next) ∨ pc.code = some (.claim_tester e, next))
    (r : Resource) : e.units r = pc.units r ∧ e.inside = true := by
  cases pc <;> rcases h with h | h <;> cases h <;> cases r <;> exact ⟨rfl, rfl⟩

theorem code_inside {pc next : CarPc} {op : CarOp} (h : pc.code = some (op, next))
    (hop : op.ofInside = true) : pc.inside = true ∧ next.inside = true := by
  cases pc <;> cases h <;> first | exact absurd hop Bool.false_ne_true | exact ⟨rfl, rfl⟩

theorem code_post_done {pc next : CarPc} (h : pc.code = some (.post_done, next)) :
    next = .finished ∧ pc.inside = true ∧ ∀ r, pc.units r = 0 := by
  cases pc <;> cases h <;> exact ⟨rfl, rfl, fun r => by cases r <;> rfl⟩

theorem code_pq_insert {pc next : CarPc} (h : pc.code = some (.pq_insert, next)) :
    pc = .insert ∧ next = .waitAdmission := by
  cases pc <;> cases h
  exact ⟨rfl, rfl⟩

theorem code_admission {pc next : CarPc} (h : pc.code = some (.admission, next)) :
    pc = .waitAdmission ∧ next = .printArrived := by
  cases pc <;> cases h
  exact ⟨rfl, rfl⟩

/-- What the labels inside have in common. -/
theorem CarPc.inside_labels {pc : CarPc} (h : pc.inside = true) :
    pc.inserted = true ∧ pc.admitted = true ∧ pc.ended = false ∧ pc ≠ .unborn := by
  cases pc <;> first | exact absurd h Bool.false_ne_true | exact ⟨rfl, rfl, rfl, nofun⟩

/-! ## §2. The effect of a step. -/

section car
variable {cfg : Config}

/-- The ways from `s` to `s'` in one step of car `i`. -/
inductive CarEffect (s s' : State cfg) (i : Fin cfg.K_CARS) : Prop where
  /-- It enters the queue. -/
  | inserted (pq' : PriorityQueue (Fin cfg.K_CARS) cfg.K_CARS) (hpc : s.pc i = .insert)
      (hpq : pq_insert s.cars s.pq i = .ok pq')
      (hs' : s' = { s with
        pq := pq', queue_sem := s.queue_sem + 1
        pc := Function.update s.pc i .waitAdmission })
  /-- It finds the queue full. -/
  | overflow (msg : String) (hpc : s.pc i = .insert)
      (hpq : pq_insert s.cars s.pq i = .error msg)
  /-- It passes the wait on its own semaphore. -/
  | admitted (hpc : s.pc i = .waitAdmission) (hsem : 0 < s.sem i)
      (hs' : s' = { s with
        sem := Function.update s.sem i (s.sem i - 1)
        pc := Function.update s.pc i .printArrived })
  /-- It goes on inside, taking and giving what the labels say. -/
  | served (resource' : Resource → Nat) (pc' : CarPc)
      (ma : Vector Bool cfg.MECHANIC) (mm : Fin cfg.K_CARS → Option (Fin cfg.MECHANIC))
      (ta : Vector Bool cfg.TESTER) (mt : Fin cfg.K_CARS → Option (Fin cfg.TESTER))
      (hin : (s.pc i).inside = true) (hin' : pc'.inside = true)
      (hunits : ∀ r, resource' r + pc'.units r = s.resource r + (s.pc i).units r)
      (hs' : s' = { s with
        resource := resource', mechanic_available := ma, my_mechanic := mm
        tester_available := ta, my_tester := mt, pc := Function.update s.pc i pc' })
  /-- It posts `done_sem` and ends. -/
  | done (hin : (s.pc i).inside = true) (hunits : ∀ r, (s.pc i).units r = 0)
      (hs' : s' = { s with
        done_sem := s.done_sem + 1
        dones := Function.update s.dones i (s.dones i + 1)
        pc := Function.update s.pc i .finished })

/-- **Inversion of a car's step.** -/
theorem carStep_effect {s s' : State cfg} {i : Fin cfg.K_CARS}
    (h : carStep s i = some s') : CarEffect s s' i := by
  -- inside, the ledger of the listing is the ledger of the step
  have hinside : ∀ {op : CarOp} {pc' : CarPc} (resource' : Resource → Nat)
      (ma : Vector Bool cfg.MECHANIC) (mm : Fin cfg.K_CARS → Option (Fin cfg.MECHANIC))
      (ta : Vector Bool cfg.TESTER) (mt : Fin cfg.K_CARS → Option (Fin cfg.TESTER)),
      (s.pc i).code = some (op, pc') → op.ofInside = true →
      (∀ r, resource' r + op.takes r = s.resource r + op.gives r) →
      s' = { s with
        resource := resource', mechanic_available := ma, my_mechanic := mm
        tester_available := ta, my_tester := mt, pc := Function.update s.pc i pc' } →
      CarEffect s s' i := by
    intro op pc' resource' ma mm ta mt hcode hop hres hs'
    obtain ⟨hin, hin'⟩ := code_inside hcode hop
    refine .served resource' pc' ma mm ta mt hin hin' ?_ hs'
    intro r
    have hunits := code_units hcode hop r
    have := hres r
    omega
  unfold carStep at h
  split at h
  next => cases h
  next pc' hcode =>
    obtain ⟨hpc, rfl⟩ := code_pq_insert hcode
    split at h
    next pq' hpq =>
      injection h with h
      exact .inserted pq' hpc hpq h.symm
    next msg hpq => exact .overflow msg hpc hpq
  next pc' hcode =>
    obtain ⟨hpc, rfl⟩ := code_admission hcode
    split at h
    · cases h
    · injection h with h
      exact .admitted hpc (by omega) h.symm
  next r pc' hcode =>
    -- a wait: the unit goes from the semaphore to the car
    split at h
    · cases h
    · injection h with h
      refine hinside _ _ _ _ _ hcode rfl ?_ h.symm
      intro q
      by_cases hq : q = r
      · subst hq
        simp [CarOp.takes, CarOp.gives]
        omega
      · simp [CarOp.takes, CarOp.gives, hq]
  next r pc' hcode =>
    -- a post: it goes back
    injection h with h
    refine hinside _ _ _ _ _ hcode rfl ?_ h.symm
    intro q
    by_cases hq : q = r
    · subst hq
      simp [CarOp.takes, CarOp.gives]
    · simp [CarOp.takes, CarOp.gives, hq]
  next pc' hcode =>
    obtain ⟨rfl, hin, hunits⟩ := code_post_done hcode
    injection h with h
    exact .done hin hunits h.symm
  next e pc' hcode =>
    split at h
    next m hm =>
      injection h with h
      exact hinside _ _ _ _ _ hcode rfl (fun q => rfl) h.symm
    next hm =>
      -- the error exit of station 1 keeps all units
      injection h with h
      have hnone := code_none_free (Or.inl hcode)
      refine .served s.resource e _ _ _ _ (code_inside hcode rfl).1
        (hnone .slots_sem).2 ?_ h.symm
      intro r
      rw [(hnone r).1]
  next e pc' hcode =>
    split at h
    next t ht =>
      injection h with h
      exact hinside _ _ _ _ _ hcode rfl (fun q => rfl) h.symm
    next ht =>
      -- that of station 2 as well
      injection h with h
      have hnone := code_none_free (Or.inr hcode)
      refine .served s.resource e _ _ _ _ (code_inside hcode rfl).1
        (hnone .slots_sem).2 ?_ h.symm
      intro r
      rw [(hnone r).1]
  next pc' hcode =>
    injection h with h
    exact hinside _ _ _ _ _ hcode rfl (fun q => rfl) h.symm
  next pc' hcode =>
    injection h with h
    exact hinside _ _ _ _ _ hcode rfl (fun q => rfl) h.symm
  next pc' hcode =>
    injection h with h
    exact hinside _ _ _ _ _ hcode rfl (fun q => rfl) h.symm

end car

end ConcurrencyCrypto.Garage
