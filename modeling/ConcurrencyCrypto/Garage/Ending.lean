/-
  ConcurrencyCrypto.Garage.Ending
  ───────────────────────────────
  **THE SERVICE CENTER CLOSES.**

  Every thread but the monitor has a bounded amount to do: the listing of a
  car has no way back, the manager takes four steps for each car in the queue,
  the creator at most four for each car, and main waits `K_CARS` times.  So a
  run can only go on for ever if the monitor alone keeps waking up; and since
  some other thread can always go on, a fair scheduler does not allow that.

    • `work_bounded`        — at most `37 * K_CARS + 4` steps of the others;
    • `service_center_ends` — under a fair scheduler main returns.
-/
import ConcurrencyCrypto.Garage.Progress
import ConcurrencyCrypto.Library.Fairness

namespace ConcurrencyCrypto.Garage

open ConcurrencyCrypto.Library

variable {cfg : Config} {s s' : State cfg}

/-! ## §1. What each thread has left to do. -/

/-- The steps a car's thread has left, the manager's four for it included
until it is in the queue. -/
def CarPc.left : CarPc → Nat
  | .unborn | .insert => 32
  | .waitAdmission => 27
  | .printArrived => 26
  | .waitMechanic => 25
  | .claimMechanic => 24
  | .waitDiagnostic => 23
  | .waitTorque => 22
  | .printWorking => 21
  | .work => 20
  | .postTorque => 19
  | .postDiagnostic => 18
  | .printFinished => 17
  | .waitPollutionQueue => 16
  | .freeMechanic => 15
  | .postMechanic => 14
  | .printMoved => 13
  | .waitPollutionWorker => 12
  | .postPollutionQueue => 11
  | .claimTester => 10
  | .printStarting => 9
  | .test => 8
  | .freeTester => 7
  | .postPollutionWorker => 6
  | .waitPayment => 5
  | .printDone | .reportNoMechanic | .reportNoTester => 4
  | .postPayment | .noMechanicPostMechanic | .noTesterPostWorker => 3
  | .postSlots | .noMechanicPostSlots | .noTesterPostSlots => 2
  | .postDone | .noMechanicPostDone | .noTesterPostDone => 1
  | .failed | .finished => 0

/-- Four steps for each car, the last of which is the sleep. -/
def CreatorPc.left {K : Nat} : CreatorPc K → Nat
  | .unborn => 4 * K
  | .prepare i => 4 * (K - i.val)
  | .create i => 4 * (K - i.val) - 1
  | .post_done i => 4 * (K - i.val) - 2
  | .sleep i => 4 * (K - i.val) - 3
  | .finished => 0

def ManagerPc.left {K : Nat} : ManagerPc K → Nat
  | .unborn | .wait_queue => 0
  | .wait_slots => 3
  | .pop => 2
  | .post_car _ | .return_slot => 1

def MainPc.left (K : Nat) : MainPc → Nat
  | .create_creator => K + 4
  | .create_monitor => K + 3
  | .create_manager => K + 2
  | .wait_done n => K - n + 1
  | .close => 1
  | .returned _ => 0

/-- All of it; a token of `queue_sem` is worth a round of the manager. -/
def State.left (s : State cfg) : Nat :=
  s.main.left cfg.K_CARS + s.creator.left + (s.manager.left + 4 * s.queue_sem)
    + ∑ i, (s.pc i).left

theorem left_start (cars : Heap (Fin cfg.K_CARS))
    (array : Vector (Fin cfg.K_CARS) cfg.K_CARS) :
    (State.start cars array : State cfg).left = 37 * cfg.K_CARS + 4 := by
  show cfg.K_CARS + 4 + 4 * cfg.K_CARS + (0 + 4 * 0) + ∑ _i : Fin cfg.K_CARS, 32 = _
  rw [Finset.sum_const, Finset.card_univ, Fintype.card_fin, smul_eq_mul]
  omega

/-- **The listing has no way back.** -/
theorem code_left {pc next : CarPc} {op : CarOp} (h : pc.code = some (op, next)) :
    next.left < pc.left ∧ (op = .pq_insert → next.left + 5 ≤ pc.left) ∧
      ∀ e, op = .claim_mechanic e ∨ op = .claim_tester e → e.left < pc.left := by
  cases pc <;> cases h <;>
    exact ⟨by decide, fun hop => by cases hop <;> decide,
      fun e he => by rcases he with he | he <;> cases he <;> decide⟩

theorem CreatorPc.left_loop {K : Nat} (i : Fin K) :
    (CreatorPc.loop (i.val + 1) : CreatorPc K).left < (CreatorPc.sleep i).left := by
  have hi := i.isLt
  unfold CreatorPc.loop
  split
  · show 4 * (K - (i.val + 1)) < 4 * (K - i.val) - 3
    omega
  · show 0 < 4 * (K - i.val) - 3
    omega

theorem CreatorPc.left_loop_zero (K : Nat) : (CreatorPc.loop 0 : CreatorPc K).left ≤ 4 * K := by
  unfold CreatorPc.loop
  split
  · exact Nat.le_refl _
  · exact Nat.zero_le _

theorem MainPc.left_loop (K n : Nat) : (MainPc.loop K n).left K ≤ K - n + 1 := by
  unfold MainPc.loop
  split
  · exact Nat.le_refl _
  · show 1 ≤ K - n + 1
    omega

/-! ## §2. Every step but the monitor's is one less. -/

theorem sum_left_update (pc : Fin cfg.K_CARS → CarPc) (i : Fin cfg.K_CARS) (pc' : CarPc) :
    ∑ j, (Function.update pc i pc' j).left + (pc i).left = ∑ j, (pc j).left + pc'.left := by
  have hrest : ∑ j ∈ Finset.univ.erase i, (Function.update pc i pc' j).left
      = ∑ j ∈ Finset.univ.erase i, (pc j).left :=
    Finset.sum_congr rfl fun j hj => by rw [Function.update_of_ne (Finset.ne_of_mem_erase hj)]
  rw [← Finset.add_sum_erase _ _ (Finset.mem_univ i), Function.update_self, hrest,
    ← Finset.add_sum_erase Finset.univ (fun j => (pc j).left) (Finset.mem_univ i)]
  omega

/-- What a step of a car does to the others' work: it may hand one car to the
manager, and then its label falls by five. -/
structure CarMoves (s s' : State cfg) (i : Fin cfg.K_CARS) (pc' : CarPc) : Prop where
  main : s'.main = s.main
  creator : s'.creator = s.creator
  manager : s'.manager = s.manager
  pc : s'.pc = Function.update s.pc i pc'
  left : 4 * s'.queue_sem + pc'.left < 4 * s.queue_sem + (s.pc i).left

theorem carStep_moves {i : Fin cfg.K_CARS} (h : carStep s i = some s') :
    ∃ pc', CarMoves s s' i pc' := by
  -- all operations but `pq_insert` leave `queue_sem` alone
  have hmoved : ∀ {t : State cfg} {pc' : CarPc}, some t = some s' → t.main = s.main →
      t.creator = s.creator → t.manager = s.manager → t.pc = Function.update s.pc i pc' →
      t.queue_sem = s.queue_sem → pc'.left < (s.pc i).left → ∃ pc', CarMoves s s' i pc' := by
    intro t pc' ht hmain hcreator hmanager hpc hqueue hleft
    injection ht with ht
    subst ht
    exact ⟨pc', hmain, hcreator, hmanager, hpc, by rw [hqueue]; omega⟩
  unfold carStep at h
  split at h
  next => cases h
  next pc' hcode =>
    have hleft := code_left hcode
    split at h
    · injection h with h
      rw [← h]
      have hfive := hleft.2.1 rfl
      exact ⟨pc', rfl, rfl, rfl, rfl, by show 4 * (s.queue_sem + 1) + _ < _; omega⟩
    · exact hmoved h rfl rfl rfl rfl rfl hleft.1
  next pc' hcode =>
    split at h
    · cases h
    · exact hmoved h rfl rfl rfl rfl rfl (code_left hcode).1
  next r pc' hcode =>
    split at h
    · cases h
    · exact hmoved h rfl rfl rfl rfl rfl (code_left hcode).1
  next r pc' hcode => exact hmoved h rfl rfl rfl rfl rfl (code_left hcode).1
  next pc' hcode => exact hmoved h rfl rfl rfl rfl rfl (code_left hcode).1
  next e pc' hcode =>
    split at h
    · exact hmoved h rfl rfl rfl rfl rfl (code_left hcode).1
    · exact hmoved h rfl rfl rfl rfl rfl ((code_left hcode).2.2 e (Or.inl rfl))
  next e pc' hcode =>
    split at h
    · exact hmoved h rfl rfl rfl rfl rfl (code_left hcode).1
    · exact hmoved h rfl rfl rfl rfl rfl ((code_left hcode).2.2 e (Or.inr rfl))
  next pc' hcode => exact hmoved h rfl rfl rfl rfl rfl (code_left hcode).1
  next pc' hcode => exact hmoved h rfl rfl rfl rfl rfl (code_left hcode).1
  next pc' hcode => exact hmoved h rfl rfl rfl rfl rfl (code_left hcode).1

theorem left_car {i : Fin cfg.K_CARS} (h : carStep s i = some s') : s'.left < s.left := by
  obtain ⟨pc', hmoves⟩ := carStep_moves h
  have hsum := sum_left_update s.pc i pc'
  have hleft := hmoves.left
  unfold State.left
  rw [hmoves.main, hmoves.creator, hmoves.manager, hmoves.pc]
  omega

theorem left_manager (hinv : Invariant s) (h : managerStep s = some s') : s'.left < s.left := by
  unfold managerStep at h
  unfold State.left
  cases hm : s.manager with
  | unborn =>
      rw [hm] at h
      cases h
  | wait_queue =>
      rw [hm] at h
      simp only at h
      split at h
      · cases h
      · injection h with h
        rw [← h]
        simp only [ManagerPc.left]
        omega
  | wait_slots =>
      rw [hm] at h
      simp only at h
      split at h
      · cases h
      · injection h with h
        rw [← h]
        simp only [ManagerPc.left]
        omega
  | pop =>
      obtain ⟨car, pq', hpop, -⟩ := hinv.pop_some hm
      simp only [hm, hpop] at h
      injection h with h
      rw [← h]
      simp only [ManagerPc.left]
      omega
  | post_car car =>
      rw [hm] at h
      injection h with h
      rw [← h]
      simp only [ManagerPc.left]
      omega
  | return_slot => exact absurd hm hinv.no_return

theorem left_creator (hinv : Invariant s) {vip created : Bool} {now : Int}
    (h : creatorStep s vip now created = some s') : s'.left < s.left := by
  unfold creatorStep at h
  unfold State.left
  cases hc : s.creator with
  | unborn =>
      rw [hc] at h
      cases h
  | prepare i =>
      rw [hc] at h
      injection h with h
      rw [← h]
      have hi := i.isLt
      simp only [CreatorPc.left]
      omega
  | create i =>
      have hpc : s.pc i = .unborn := hinv.creator_turn (by rw [hc]; rfl)
      have hi := i.isLt
      rw [hc] at h
      cases created with
      | true =>
          injection h with h
          rw [← h]
          have hsum := sum_left_update s.pc i .insert
          rw [hpc] at hsum
          have hsame : CarPc.unborn.left = CarPc.insert.left := rfl
          simp only [CreatorPc.left]
          omega
      | false =>
          injection h with h
          rw [← h]
          have hsum := sum_left_update s.pc i .failed
          rw [hpc] at hsum
          have hless : CarPc.failed.left ≤ CarPc.unborn.left := Nat.zero_le _
          simp only [CreatorPc.left]
          omega
  | post_done i =>
      rw [hc] at h
      injection h with h
      rw [← h]
      have hi := i.isLt
      simp only [CreatorPc.left]
      omega
  | sleep i =>
      rw [hc] at h
      injection h with h
      rw [← h]
      have hloop := CreatorPc.left_loop i
      dsimp only
      omega
  | finished =>
      rw [hc] at h
      cases h

theorem left_main (hinv : Invariant s) {created : Bool} (h : mainStep s created = some s') :
    s'.left < s.left := by
  unfold mainStep at h
  unfold State.left
  cases hm : s.main with
  | create_creator =>
      have hcreator : s.creator.left = 4 * cfg.K_CARS := by rw [hinv.creator_first hm]; rfl
      rw [hm] at h
      cases created with
      | true =>
          injection h with h
          rw [← h]
          have hloop := CreatorPc.left_loop_zero cfg.K_CARS
          simp only [MainPc.left]
          omega
      | false =>
          injection h with h
          rw [← h]
          simp only [MainPc.left]
          omega
  | create_monitor =>
      rw [hm] at h
      cases created with
      | true =>
          injection h with h
          rw [← h]
          simp only [MainPc.left]
          omega
      | false =>
          injection h with h
          rw [← h]
          simp only [MainPc.left]
          omega
  | create_manager =>
      rw [hm] at h
      cases created with
      | true =>
          injection h with h
          rw [← h]
          have hloop := MainPc.left_loop cfg.K_CARS 0
          have hold : MainPc.create_manager.left cfg.K_CARS = cfg.K_CARS + 2 := rfl
          have hnew : (ManagerPc.wait_queue : ManagerPc cfg.K_CARS).left = 0 := rfl
          dsimp only
          omega
      | false =>
          injection h with h
          rw [← h]
          simp only [MainPc.left]
          omega
  | wait_done n =>
      have hn := hinv.waits_lt n hm
      rw [hm] at h
      simp only at h
      split at h
      · cases h
      · injection h with h
        rw [← h]
        have hloop := MainPc.left_loop cfg.K_CARS (n + 1)
        have hold : (MainPc.wait_done n).left cfg.K_CARS = cfg.K_CARS - n + 1 := rfl
        dsimp only
        omega
  | close =>
      rw [hm] at h
      injection h with h
      rw [← h]
      simp only [MainPc.left]
      omega
  | returned code =>
      rw [hm] at h
      cases h

/-- Who takes a step. -/
inductive Thread (K : Nat) where
  | main
  | creator
  | manager
  | monitor
  | car (i : Fin K)
  deriving DecidableEq

def Action.thread {K : Nat} : Action K → Thread K
  | .main _ => .main
  | .creator _ _ _ => .creator
  | .manager => .manager
  | .monitor _ => .monitor
  | .car i => .car i

/-- All threads but the monitor work towards the end. -/
def Thread.works {K : Nat} (t : Thread K) : Bool := decide (t ≠ .monitor)

/-- What a step of the monitor leaves alone. -/
structure OnlyQueue (s s' : State cfg) : Prop where
  main : s'.main = s.main
  creator : s'.creator = s.creator
  manager : s'.manager = s.manager
  pc : s'.pc = s.pc
  sem : s'.sem = s.sem
  resource : s'.resource = s.resource
  queue_sem : s'.queue_sem = s.queue_sem
  done_sem : s'.done_sem = s.done_sem

theorem monitorStep_onlyQueue {now : Int} (h : monitorStep s now = some s') :
    OnlyQueue s s' := by
  unfold monitorStep at h
  split at h
  · cases h
  · injection h with h
    rw [← h]
    exact ⟨rfl, rfl, rfl, rfl, rfl, rfl, rfl, rfl⟩
  · injection h with h
    rw [← h]
    exact ⟨rfl, rfl, rfl, rfl, rfl, rfl, rfl, rfl⟩

theorem running_of_step {a : Action cfg.K_CARS} (h : step s a = some s') : s.Running := by
  intro code hcode
  unfold step at h
  rw [hcode] at h
  cases h

/-- **Work is never undone.** -/
theorem left_step (hinv : Invariant s) {a : Action cfg.K_CARS} (h : step s a = some s') :
    s'.left + a.thread.works.toNat ≤ s.left := by
  rw [step_of_running (running_of_step h)] at h
  cases a with
  | main created => exact left_main hinv h
  | creator vip now created => exact left_creator hinv h
  | manager => exact left_manager hinv h
  | car i => exact left_car h
  | monitor now =>
      have hframe := monitorStep_onlyQueue h
      show s'.left ≤ s.left
      unfold State.left
      rw [hframe.main, hframe.creator, hframe.manager, hframe.queue_sem, hframe.pc]

/-- **THE WORK IS BOUNDED.**  Whatever the interleaving, the threads other than
the monitor take at most `37 * K_CARS + 4` steps together. -/
theorem work_bounded (cars : Heap (Fin cfg.K_CARS)) (array : Vector (Fin cfg.K_CARS) cfg.K_CARS)
    (as : List (Action cfg.K_CARS)) (h : runActions step (State.start cars array) as = some s) :
    as.countP (fun a => a.thread.works) ≤ 37 * cfg.K_CARS + 4 := by
  have hle := work_le_of_measure (fun a : Action cfg.K_CARS => a.thread.works) Invariant
    State.left (fun _ _ _ hinv hstep => hinv.step hstep)
    (fun _ _ _ hinv hstep => left_step hinv hstep) as (invariant_start cars array) h
  rw [left_start] at hle
  omega

/-- A whole day of two cars. -/
theorem work_bounded_small_day :
    ∃ s : State smallConfig, s.main = .close ∧
      smallDay.countP (fun a => a.thread.works) ≤ 37 * smallConfig.K_CARS + 4 :=
  have hday : (runActions step smallStart smallDay).map State.main = some .close := by
    decide +kernel
  (Option.map_eq_some_iff.mp hday).elim fun s hs => ⟨s, hs.2, work_bounded _ _ smallDay hs.1⟩

/-! ## §3. Somebody can always work. -/

/-- The attempts at creation are over, so every car that has ended has given
its post. -/
theorem Invariant.dones_eq_one (hinv : Invariant s)
    (hc : s.creator = .unborn ∨ s.creator = .finished) {i : Fin cfg.K_CARS}
    (hi : (s.pc i).ended = true) : s.dones i = 1 := by
  have hended := hinv.ended i
  have howes : s.creator.owes i = 0 := by
    rcases hc with hc | hc <;> rw [hc] <;> rfl
  rw [hi, howes, Bool.toNat_true] at hended
  exact hended

/-- **Behind the last car main goes on.** -/
theorem mainStep_of_all_ended (hinv : Invariant s) (hrun : s.Running)
    (hc : s.creator = .unborn ∨ s.creator = .finished) (hend : ∀ i, (s.pc i).ended = true) :
    Enabled step s (.main true) := by
  have hposts : ∑ i, s.dones i = cfg.K_CARS := by
    rw [Finset.sum_congr rfl fun i _ => hinv.dones_eq_one hc (hend i), Finset.sum_const,
      Finset.card_univ, Fintype.card_fin, smul_eq_mul, mul_one]
  have hdone := hinv.done
  unfold Enabled
  rw [step_of_running hrun]
  show ∃ s', mainStep s true = some s'
  unfold mainStep
  cases hm : s.main with
  | returned code => exact absurd hm (hrun code)
  | wait_done n =>
      -- fewer than `K_CARS` posts were taken
      have hn := hinv.waits_lt n hm
      have hwaits : s.main.waits cfg.K_CARS = n := by rw [hm]; rfl
      have hpos : s.done_sem ≠ 0 := by omega
      exact ⟨_, if_neg hpos⟩
  | _ => exact ⟨_, rfl⟩

/-- **Until main has returned, a thread other than the monitor can step.** -/
theorem exists_working (hinv : Invariant s) (hrun : s.Running) (hpos : ∀ r, 0 < cfg.units r) :
    ∃ t : Thread cfg.K_CARS, t.works = true ∧ ThreadEnabled Action.thread step s t := by
  by_cases hprogress : s.Progress
  · rcases hprogress with ⟨vip, now, created, he⟩ | he | ⟨i, he⟩
    · exact ⟨.creator, rfl, _, rfl, he⟩
    · exact ⟨.manager, rfl, _, rfl, he⟩
    · exact ⟨.car i, rfl, _, rfl, he⟩
  · have hstuck := stuck_of_not_progress hrun hprogress
    refine ⟨.main, rfl, .main true, rfl, ?_⟩
    by_cases hend : ∀ i, (s.pc i).ended = true
    · exact mainStep_of_all_ended hinv hrun (creatorStep_none (hstuck.creator false 0 false)) hend
    · obtain ⟨i, hi⟩ := not_forall.mp hend
      exact mainStep_early hrun (hstuck.main_early hinv hpos (Bool.eq_false_iff.mpr hi)) true

/-! ## §4. The monitor stops nobody. -/

theorem carStep_wait_zero {i : Fin cfg.K_CARS} {r : Resource} {next : CarPc}
    (hcode : (s.pc i).code = some (.wait r, next)) (hzero : s.resource r = 0) :
    carStep s i = none := by
  unfold carStep
  rw [hcode]
  exact if_pos hzero

theorem carStep_admission_zero {i : Fin cfg.K_CARS} {next : CarPc}
    (hcode : (s.pc i).code = some (.admission, next)) (hzero : s.sem i = 0) :
    carStep s i = none := by
  unfold carStep
  rw [hcode]
  exact if_pos hzero

theorem carStep_of_no_code {i : Fin cfg.K_CARS} (hcode : (s.pc i).code = none) :
    carStep s i = none := by
  unfold carStep
  rw [hcode]

namespace OnlyQueue
variable (h : OnlyQueue s s')
include h

theorem car_none {i : Fin cfg.K_CARS} (hnone : carStep s' i = none) : carStep s i = none := by
  cases hcode : (s'.pc i).code with
  | none => exact carStep_of_no_code (by rw [← h.pc]; exact hcode)
  | some entry =>
      obtain ⟨op, next⟩ := entry
      have hcode' : (s.pc i).code = some (op, next) := by
        rw [← h.pc]
        exact hcode
      rcases carStep_none hnone hcode with ⟨r, rfl, hzero⟩ | ⟨rfl, hzero⟩
      · exact carStep_wait_zero hcode' (by rw [← h.resource]; exact hzero)
      · exact carStep_admission_zero hcode' (by rw [← h.sem]; exact hzero)

theorem manager_none (hnone : managerStep s' = none) : managerStep s = none := by
  have hcases := managerStep_none hnone
  rw [h.manager, h.queue_sem, h.resource] at hcases
  unfold managerStep
  rcases hcases with hm | ⟨hm, hzero⟩ | ⟨hm, hzero⟩
  · rw [hm]
  · rw [hm]
    exact if_pos hzero
  · rw [hm]
    exact if_pos hzero

theorem creator_none {vip created : Bool} {now : Int}
    (hnone : creatorStep s' vip now created = none) : creatorStep s vip now created = none := by
  have hcases := creatorStep_none hnone
  rw [h.creator] at hcases
  unfold creatorStep
  rcases hcases with hc | hc <;> rw [hc]

theorem main_none {created : Bool} (hnone : mainStep s' created = none) :
    mainStep s created = none := by
  unfold mainStep at hnone ⊢
  rw [h.main, h.done_sem] at hnone
  cases hm : s.main with
  | wait_done n =>
      rw [hm] at hnone
      by_cases hzero : s.done_sem = 0
      · exact if_pos hzero
      · simp [hzero] at hnone
  | returned code => rfl
  | close =>
      rw [hm] at hnone
      cases hnone
  | _ =>
      rw [hm] at hnone
      cases created <;> cases hnone

/-- **What the others can do, they still can** behind a step of the monitor. -/
theorem enabled (hrun : s.Running) {a : Action cfg.K_CARS} (ha : a.thread ≠ .monitor)
    (he : Enabled step s a) : Enabled step s' a := by
  have hrun' : s'.Running := by
    intro code hcode
    exact hrun code (by rw [← h.main]; exact hcode)
  by_contra hnot
  have hnone := not_enabled_iff.mp hnot
  refine not_enabled_iff.mpr ?_ he
  rw [step_of_running hrun'] at hnone
  rw [step_of_running hrun]
  cases a with
  | main created => exact h.main_none hnone
  | creator vip now created => exact h.creator_none hnone
  | manager => exact h.manager_none hnone
  | car i => exact h.car_none hnone
  | monitor now => exact absurd rfl ha

end OnlyQueue

/-! ## §5. Fair runs. -/

/-- **THE SERVICE CENTER CLOSES.**  With a unit of every semaphore to begin
with: a run without end starves some thread other than the monitor, and a run
that cannot go on has come to the return of main, where all cars have ended
unless main returns an error. -/
theorem service_center_ends (hpos : ∀ r, 0 < cfg.units r) (cars : Heap (Fin cfg.K_CARS))
    (array : Vector (Fin cfg.K_CARS) cfg.K_CARS) :
    (∀ r : Endless (@step cfg), r.state 0 = State.start cars array →
        ∃ t : Thread cfg.K_CARS, t ≠ .monitor ∧ ¬ r.Fair Action.thread t) ∧
      ∀ s : State cfg, Reaches step (State.start cars array) s → (∀ a, ¬ Enabled step s a) →
        ∃ code, s.main = .returned code ∧
          (code = 0 → ∀ i, s.pc i = .failed ∨ s.pc i = .finished) := by
  refine ⟨?_, ?_⟩
  · intro r h0
    obtain ⟨t, hworks, hfair⟩ := r.not_fair Action.thread Thread.works (I := Invariant)
      State.left (by rw [h0]; exact invariant_start cars array)
      (fun _ _ _ hinv hstep => hinv.step hstep) (fun _ _ _ hinv hstep => left_step hinv hstep)
      (fun _ _ hinv he => he.elim fun _ hstep =>
        exists_working hinv (running_of_step hstep) hpos) (by
        intro s a s' t _ hstep hidle hworks he
        -- only the monitor does not work
        obtain ⟨b, rfl, he⟩ := he
        have hmonitor : a.thread = .monitor := of_decide_eq_false hidle |> not_not.mp
        have hrun := running_of_step hstep
        cases a with
        | monitor now =>
            rw [step_of_running hrun] at hstep
            exact ⟨b, rfl, (monitorStep_onlyQueue hstep).enabled hrun
              (of_decide_eq_true hworks) he⟩
        | _ => cases hmonitor)
    exact ⟨t, of_decide_eq_true hworks, hfair⟩
  · intro s hs hstuck
    have hinv := Reachable.invariant ⟨cars, array, hs⟩
    by_cases hrun : s.Running
    · obtain ⟨t, -, a, -, he⟩ := exists_working hinv hrun hpos
      exact absurd he (hstuck a)
    · obtain ⟨code, hcode⟩ := not_forall_not.mp hrun
      refine ⟨code, hcode, ?_⟩
      intro hzero i
      exact (CarPc.ended_labels (hinv.all_ended (Or.inr (by rw [hcode, hzero])) i)).1

/-- Two cars. -/
theorem service_center_ends_small :
    (∀ r : Endless (@step smallConfig), r.state 0 = smallStart →
        ∃ t : Thread smallConfig.K_CARS, t ≠ .monitor ∧ ¬ r.Fair Action.thread t) ∧
      ∀ s : State smallConfig, Reaches step smallStart s → (∀ a, ¬ Enabled step s a) →
        ∃ code, s.main = .returned code ∧
          (code = 0 → ∀ i, s.pc i = .failed ∨ s.pc i = .finished) :=
  service_center_ends smallConfig_units _ _

end ConcurrencyCrypto.Garage
