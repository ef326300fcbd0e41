/-
  ConcurrencyCrypto.Garage.Progress
  ─────────────────────────────────
  **THE SERVICE CENTER DOES NOT DEADLOCK.**

  A car holds a slot, then a mechanic, a tablet and a wrench, then a place in
  the pollution queue while it still has the mechanic.  The semaphores are
  ranked so that whoever holds a unit waits only for semaphores of smaller
  rank; by the counts of the invariant every missing unit is in somebody's
  hands, so nobody waits in a circle.
-/
import ConcurrencyCrypto.Garage.Safety

namespace ConcurrencyCrypto.Garage

open ConcurrencyCrypto.Library

variable {cfg : Config} {s : State cfg}

/-! ## §1. The ranks. -/

/-- Who holds a unit waits for smaller ranks only. -/
def Resource.rank : Resource → Nat
  | .torque_sem | .pollution_worker_sem | .payment_box => 0
  | .diagnostic_sem | .pollution_queue_sem => 1
  | .mechanic_sem => 2
  | .slots_sem => 3

/-- The semaphore an operation waits for. -/
def CarOp.awaits : CarOp → Option Resource
  | .wait r => some r
  | _ => none

/-- **The ranks fit the listing.**  A car that holds a unit is past its
admission, and has a next operation. -/
theorem code_rank {pc : CarPc} {r : Resource} (h : pc.holds r = true) :
    ∃ op next, pc.code = some (op, next) ∧ op ≠ .admission ∧
      ∀ r', op.awaits = some r' → r'.rank < r.rank := by
  cases pc <;> cases r <;>
    first
    | exact absurd h Bool.false_ne_true
    | exact ⟨_, _, rfl, nofun, fun r' hr' => by cases hr' <;> decide⟩

theorem CarPc.holds_of_units {pc : CarPc} {r : Resource} (h : 0 < pc.units r) :
    pc.holds r = true := by
  unfold CarPc.units at h
  cases hcase : pc.holds r with
  | true => rfl
  | false =>
      rw [hcase] at h
      cases h

/-- A label without an operation is not reached yet or is the end. -/
theorem code_none {pc : CarPc} (h : pc.code = none) : pc = .unborn ∨ pc.ended = true := by
  cases pc <;> first | exact Or.inl rfl | exact Or.inr rfl | cases h

/-! ## §2. Threads that cannot step. -/

/-- The creator, the manager or a car can step. -/
def State.Progress (s : State cfg) : Prop :=
  (∃ vip now created, Enabled step s (.creator vip now created)) ∨
    Enabled step s .manager ∨ ∃ i, Enabled step s (.car i)

/-- Main is still there. -/
def State.Running (s : State cfg) : Prop := ∀ code, s.main ≠ .returned code

theorem step_of_running (hrun : s.Running) (a : Action cfg.K_CARS) :
    step s a = match a with
      | .main created => mainStep s created
      | .creator vip now created => creatorStep s vip now created
      | .manager => managerStep s
      | .monitor now => monitorStep s now
      | .car i => carStep s i := by
  unfold step
  split
  next code hcode => exact absurd hcode (hrun code)
  next => rfl

/-- **What stops a car**: a semaphore at zero. -/
theorem carStep_none {i : Fin cfg.K_CARS} {op : CarOp} {next : CarPc}
    (h : carStep s i = none) (hcode : (s.pc i).code = some (op, next)) :
    (∃ r, op = .wait r ∧ s.resource r = 0) ∨ (op = .admission ∧ s.sem i = 0) := by
  unfold carStep at h
  rw [hcode] at h
  cases op with
  | wait r =>
      by_cases hzero : s.resource r = 0
      · exact Or.inl ⟨r, rfl, hzero⟩
      · simp [hzero] at h
  | admission =>
      by_cases hzero : s.sem i = 0
      · exact Or.inr ⟨rfl, hzero⟩
      · simp [hzero] at h
  | pq_insert =>
      simp only at h
      split at h <;> cases h
  | claim_mechanic e =>
      simp only at h
      split at h <;> cases h
  | claim_tester e =>
      simp only at h
      split at h <;> cases h
  | _ => cases h

/-- What stops the manager. -/
theorem managerStep_none (h : managerStep s = none) :
    s.manager = .unborn ∨ (s.manager = .wait_queue ∧ s.queue_sem = 0) ∨
      (s.manager = .wait_slots ∧ s.resource .slots_sem = 0) := by
  unfold managerStep at h
  cases hm : s.manager with
  | unborn => exact Or.inl rfl
  | wait_queue =>
      by_cases hzero : s.queue_sem = 0
      · exact Or.inr (Or.inl ⟨rfl, hzero⟩)
      · simp [hm, hzero] at h
  | wait_slots =>
      by_cases hzero : s.resource .slots_sem = 0
      · exact Or.inr (Or.inr ⟨rfl, hzero⟩)
      · simp [hm, hzero] at h
  | pop =>
      rw [hm] at h
      simp only at h
      split at h <;> cases h
  | post_car car =>
      rw [hm] at h
      cases h
  | return_slot =>
      rw [hm] at h
      cases h

/-- What stops the creator. -/
theorem creatorStep_none {vip created : Bool} {now : Int}
    (h : creatorStep s vip now created = none) :
    s.creator = .unborn ∨ s.creator = .finished := by
  unfold creatorStep at h
  cases hc : s.creator with
  | unborn => exact Or.inl rfl
  | finished => exact Or.inr rfl
  | create i =>
      rw [hc] at h
      cases created <;> cases h
  | _ =>
      rw [hc] at h
      cases h

/-! ## §3. Nobody waits in a circle. -/

/-- No step of the creator, the manager or a car. -/
structure Stuck (s : State cfg) : Prop where
  creator : ∀ vip now created, creatorStep s vip now created = none
  manager : managerStep s = none
  car : ∀ i, carStep s i = none

theorem stuck_of_not_progress (hrun : s.Running) (h : ¬ s.Progress) : Stuck s where
  creator vip now created := by
    refine (step_of_running hrun (.creator vip now created)).symm.trans ?_
    rw [← not_enabled_iff]
    exact fun he => h (Or.inl ⟨vip, now, created, he⟩)
  manager := by
    refine (step_of_running hrun .manager).symm.trans ?_
    rw [← not_enabled_iff]
    exact fun he => h (Or.inr (Or.inl he))
  car i := by
    refine (step_of_running hrun (.car i)).symm.trans ?_
    rw [← not_enabled_iff]
    exact fun he => h (Or.inr (Or.inr ⟨i, he⟩))

/-- A thread stands at a wait for this semaphore, which is at zero. -/
def State.Awaited (s : State cfg) (r : Resource) : Prop :=
  s.resource r = 0 ∧
    ((∃ i next, (s.pc i).code = some (.wait r, next)) ∨
      (r = .slots_sem ∧ s.manager = .wait_slots))

theorem Stuck.manager_slots (h : Stuck s) : s.manager.slots = 0 := by
  rcases managerStep_none h.manager with hm | ⟨hm, -⟩ | ⟨hm, -⟩ <;> rw [hm] <;> rfl

/-- An admitted car would go on. -/
theorem Stuck.sem_eq (h : Stuck s) (hinv : Invariant s) (i : Fin cfg.K_CARS) :
    s.sem i = 0 := by
  by_contra hsem
  have hle := hinv.admissions_le i
  have hadm := hinv.admission i
  -- inserted and not past its admission
  have hpc : s.pc i = .waitAdmission := by
    have hins := Bool.toNat_le (s.pc i).inserted
    cases hp : s.pc i <;> rw [hp] at hle hadm hins <;>
      simp [CarPc.inserted, CarPc.admitted] at hle hadm hins ⊢ <;> omega
  rcases carStep_none (h.car i) (by rw [hpc]; rfl) with ⟨r, hr, -⟩ | ⟨-, hzero⟩
  · cases hr
  · exact hsem hzero

/-- **Behind every wait is a wait of smaller rank.** -/
theorem Stuck.awaited_smaller (h : Stuck s) (hinv : Invariant s)
    (hpos : ∀ r, 0 < cfg.units r) (r : Resource) (hr : s.Awaited r) :
    ∃ r', s.Awaited r' ∧ r'.rank < r.rank := by
  have hunits := hinv.units r
  rw [hr.1, h.manager_slots] at hunits
  have hzero : 0 + slotsOnly 0 r = 0 := by cases r <;> rfl
  rw [hzero] at hunits
  -- the missing units are with some car, at its label
  obtain ⟨i, hi⟩ := hunits.exists_holder (hpos r)
  have hholds : (s.pc i).holds r = true := by
    unfold State.carHolds at hi
    rw [h.sem_eq hinv i] at hi
    have hsem : slotsOnly 0 r = 0 := by cases r <;> rfl
    rw [hsem] at hi
    exact CarPc.holds_of_units hi
  obtain ⟨op, next, hcode, hop, hrank⟩ := code_rank hholds
  rcases carStep_none (h.car i) hcode with ⟨r', rfl, hzero'⟩ | ⟨hadm, -⟩
  · exact ⟨r', ⟨hzero', Or.inl ⟨i, next, hcode⟩⟩, hrank r' rfl⟩
  · exact absurd hadm hop

theorem Stuck.not_awaited (h : Stuck s) (hinv : Invariant s)
    (hpos : ∀ r, 0 < cfg.units r) (r : Resource) : ¬ s.Awaited r :=
  no_circular_wait Resource.rank s.Awaited (h.awaited_smaller hinv hpos) r

/-- A stuck car stands at its admission. -/
theorem Stuck.car_label (h : Stuck s) (hinv : Invariant s) (hpos : ∀ r, 0 < cfg.units r)
    (i : Fin cfg.K_CARS) :
    s.pc i = .unborn ∨ (s.pc i).ended = true ∨ s.pc i = .waitAdmission := by
  cases hcode : (s.pc i).code with
  | none =>
      rcases code_none hcode with hpc | hend
      · exact Or.inl hpc
      · exact Or.inr (Or.inl hend)
  | some entry =>
      obtain ⟨op, next⟩ := entry
      rcases carStep_none (h.car i) hcode with ⟨r, rfl, hzero⟩ | ⟨rfl, -⟩
      · exact absurd ⟨hzero, Or.inl ⟨i, next, hcode⟩⟩ (h.not_awaited hinv hpos r)
      · exact Or.inr (Or.inr (code_admission hcode).1)

/-- A car at its admission is queued, so without a step there is no manager. -/
theorem Stuck.manager_unborn (h : Stuck s) (hinv : Invariant s)
    (hpos : ∀ r, 0 < cfg.units r) {i : Fin cfg.K_CARS} (hpc : s.pc i = .waitAdmission) :
    s.manager = .unborn := by
  rcases managerStep_none h.manager with hm | ⟨hm, hzero⟩ | ⟨hm, hzero⟩
  · exact hm
  · -- the car is in the queue, so `queue_sem` is not at zero
    have hqueue := hinv.queue
    have hplace := hinv.place i
    have hadm := hinv.admission i
    rw [hm, hzero] at hqueue
    rw [hm, hpc] at hplace
    rw [hpc, h.sem_eq hinv i] at hadm
    have hnil : s.pq.live = [] := List.length_eq_zero_iff.mp hqueue.symm
    rw [hnil, hadm] at hplace
    cases hplace
  · exact absurd ⟨hzero, Or.inr ⟨rfl, hm⟩⟩ (h.not_awaited hinv hpos .slots_sem)

/-- A car that is not created yet has no creator. -/
theorem Stuck.creator_unborn (h : Stuck s) (hinv : Invariant s) {i : Fin cfg.K_CARS}
    (hpc : s.pc i = .unborn) : s.creator = .unborn := by
  rcases creatorStep_none (h.creator false 0 false) with hc | hc
  · exact hc
  · -- a creator that has finished has tried all cars
    have hborn := (hinv.born i).mp hpc
    rw [hc] at hborn
    exact absurd i.isLt (Nat.not_lt_of_le hborn)

theorem MainPc.early_of_first {m : MainPc} (h : m.first = true) : m.early = true := by
  cases m <;> first | exact h | rfl

/-- **While a car is not done, main has yet to create a thread.** -/
theorem Stuck.main_early (h : Stuck s) (hinv : Invariant s) (hpos : ∀ r, 0 < cfg.units r)
    {i : Fin cfg.K_CARS} (hi : (s.pc i).ended = false) : s.main.early = true := by
  rcases h.car_label hinv hpos i with hpc | hend | hpc
  · exact MainPc.early_of_first (hinv.creator_unborn (h.creator_unborn hinv hpc))
  · rw [hi] at hend
    cases hend
  · exact hinv.manager_early.mp (h.manager_unborn hinv hpos hpc)

/-- Until main has created its threads it can step. -/
theorem mainStep_early (hrun : s.Running) (hearly : s.main.early = true) (created : Bool) :
    Enabled step s (.main created) := by
  unfold Enabled
  rw [step_of_running hrun]
  show ∃ s', mainStep s created = some s'
  unfold mainStep
  cases hm : s.main with
  | returned code => exact absurd hm (hrun code)
  | wait_done n =>
      rw [hm] at hearly
      cases hearly
  | close =>
      rw [hm] at hearly
      cases hearly
  | _ => cases created <;> exact ⟨_, rfl⟩

/-- **NO DEADLOCK.**  With a unit of every semaphore to begin with: while some
car is neither finished nor failed, the creator, the manager or a car can
step; or main has yet to create one of its three threads, and can; or main
has returned an error because it could not. -/
theorem no_deadlock (h : Reachable s) (hpos : ∀ r, 0 < cfg.units r) (i : Fin cfg.K_CARS)
    (hi : s.pc i ≠ .failed ∧ s.pc i ≠ .finished) :
    s.Progress ∨
      (s.main ∈ [.create_creator, .create_monitor, .create_manager] ∧
        ∀ created, Enabled step s (.main created)) ∨
      ∃ code, s.main = .returned code ∧ code ≠ 0 := by
  have hinv := h.invariant
  have hend : (s.pc i).ended = false := by
    cases hcase : (s.pc i).ended with
    | false => rfl
    | true => exact absurd (CarPc.ended_labels hcase).1 (not_or.mpr hi)
  by_cases hrun : s.Running
  · by_cases hprogress : s.Progress
    · exact Or.inl hprogress
    · have hearly := (stuck_of_not_progress hrun hprogress).main_early hinv hpos hend
      refine Or.inr (Or.inl ⟨?_, mainStep_early hrun hearly⟩)
      cases hm : s.main with
      | returned code => exact absurd hm (hrun code)
      | wait_done n =>
          rw [hm] at hearly
          cases hearly
      | close =>
          rw [hm] at hearly
          cases hearly
      | _ => simp
  · -- main closes only behind the last car
    obtain ⟨code, hcode⟩ := not_forall_not.mp hrun
    refine Or.inr (Or.inr ⟨code, hcode, ?_⟩)
    intro hzero
    have := hinv.all_ended (Or.inr (by rw [hcode, hzero])) i
    rw [hend] at this
    cases this

theorem smallConfig_units (r : Resource) : 0 < smallConfig.units r := by
  cases r <;> exact Nat.succ_pos _

/-- Both cars have entered the queue and wait for their admission. -/
theorem no_deadlock_small_arrival :
    ∃ s : State smallConfig, s.pc smallCar = .waitAdmission ∧
      (s.Progress ∨
        (s.main ∈ [.create_creator, .create_monitor, .create_manager] ∧
          ∀ created, Enabled step s (.main created)) ∨
        ∃ code, s.main = .returned code ∧ code ≠ 0) :=
  have hrun : ∃ s, Reaches step smallStart s ∧ s.pc smallCar = .waitAdmission :=
    exists_reaches smallArrival (fun s : State smallConfig => s.pc smallCar) (by decide +kernel)
  hrun.elim fun s hs =>
    ⟨s, hs.2, no_deadlock ⟨_, _, hs.1⟩ smallConfig_units smallCar
      (by rw [hs.2]; exact ⟨nofun, nofun⟩)⟩

/-- The creator is through before main has created the monitor. -/
def smallOverture : List (Action smallConfig.K_CARS) :=
  [.main true] ++ List.replicate 3 (.creator false 100 true) ++
    List.replicate 3 (.creator true 101 true) ++ [.car smallCar, .car vipCar]

theorem not_progress (hcreator : ∀ vip now created, step s (.creator vip now created) = none)
    (hmanager : step s .manager = none) (hcar : ∀ i, step s (.car i) = none) :
    ¬ s.Progress := by
  intro hprogress
  rcases hprogress with ⟨vip, now, created, he⟩ | he | ⟨i, he⟩
  · exact not_enabled_iff.mpr (hcreator vip now created) he
  · exact not_enabled_iff.mpr hmanager he
  · exact not_enabled_iff.mpr (hcar i) he

/-- **Both exceptions are met.**  The cars wait for a manager that main has yet
to create; and, when a creation then fails, for a manager that never comes. -/
theorem waits_for_no_manager :
    (∀ r, 0 < smallConfig.units r) ∧ smallConfig.POLLUTION_WORKERS ≤ smallConfig.TESTER ∧
    (∃ s : State smallConfig, Reachable s ∧ s.pc smallCar = .waitAdmission ∧
      s.main = .create_monitor ∧ ¬ s.Progress) ∧
    ∃ s : State smallConfig, Reachable s ∧ s.pc smallCar = .waitAdmission ∧
      s.main = .returned 1 ∧ ¬ s.Progress := by
  have hrun : ∃ s, runActions step smallStart smallOverture = some s ∧
      s.pc smallCar = .waitAdmission ∧ s.main = .create_monitor ∧
      (∀ vip now created, step s (.creator vip now created) = none) ∧
      step s .manager = none ∧ ∀ i : Fin 2, step s (.car i) = none :=
    ⟨_, rfl, rfl, rfl, fun _ _ _ => rfl, rfl, fun i => match i with
      | ⟨0, _⟩ => rfl
      | ⟨1, _⟩ => rfl⟩
  have hrun' : ∃ s, runActions step smallStart (smallOverture ++ [.main false]) = some s ∧
      s.pc smallCar = .waitAdmission ∧ s.main = .returned 1 ∧
      (∀ vip now created, step s (.creator vip now created) = none) ∧
      step s .manager = none ∧ ∀ i : Fin 2, step s (.car i) = none :=
    ⟨_, rfl, rfl, rfl, fun _ _ _ => rfl, rfl, fun _ => rfl⟩
  obtain ⟨s, hs, hpc, hmain, hcreator, hmanager, hcar⟩ := hrun
  obtain ⟨s', hs', hpc', hmain', hcreator', hmanager', hcar'⟩ := hrun'
  refine ⟨smallConfig_units, Nat.le_refl 1, ⟨s, ?_, hpc, hmain, ?_⟩, s', ?_, hpc', hmain', ?_⟩
  · exact ⟨_, _, reaches_of_run _ hs⟩
  · exact not_progress hcreator hmanager hcar
  · exact ⟨_, _, reaches_of_run _ hs'⟩
  · exact not_progress hcreator' hmanager' hcar'

end ConcurrencyCrypto.Garage
