/-
  ConcurrencyCrypto.Garage.ServiceThreads
  ───────────────────────────────────────
  **THE INVARIANT IN EVERY RUN.**

  Manager, monitor, creator and main keep the invariant as the cars do.  The
  manager moves a slot and a car at a time, the monitor permutes the queue,
  and creator and main only go forward.
-/
import ConcurrencyCrypto.Garage.Invariant

namespace ConcurrencyCrypto.Garage

open ConcurrencyCrypto.Library

variable {cfg : Config}

/-! ## §1. Steps of the manager and the monitor. -/

section manager
variable {s s' : State cfg}

/-- Once it runs, the manager is not unborn again. -/
theorem Invariant.manager_alive (h : Invariant s) {m : ManagerPc cfg.K_CARS}
    (hne : s.manager ≠ .unborn) (hm : m ≠ .unborn) : m = .unborn ↔ s.main.early = true := by
  rw [← h.manager_early]
  exact ⟨fun hc => absurd hc hm, fun hc => absurd hc hne⟩

theorem Invariant.manager_wait_queue (h : Invariant s) (hm : s.manager = .wait_queue)
    (hpos : 0 < s.queue_sem) :
    Invariant { s with queue_sem := s.queue_sem - 1, manager := .wait_slots } := by
  have hunits := h.units
  have hqueue := h.queue
  have hplace := h.place
  rw [hm] at hunits hqueue hplace
  refine { h with
    units := hunits, queue := ?_, place := hplace
    manager_early := h.manager_alive (by rw [hm]; exact nofun) nofun, no_return := nofun }
  show s.queue_sem - 1 + 1 = _
  rw [Nat.sub_add_cancel hpos]
  exact hqueue

theorem Invariant.manager_wait_slots (h : Invariant s) (hm : s.manager = .wait_slots)
    (hpos : 0 < s.resource .slots_sem) :
    Invariant { s with
      resource := Function.update s.resource .slots_sem (s.resource .slots_sem - 1)
      manager := .pop } := by
  have hunits := h.units
  have hqueue := h.queue
  have hplace := h.place
  rw [hm] at hunits hqueue hplace
  refine { h with
    units := ?_, queue := hqueue, place := hplace
    manager_early := h.manager_alive (by rw [hm]; exact nofun) nofun, no_return := nofun }
  intro r
  have hr := hunits r
  cases r with
  | slots_sem =>
      -- one unit less in the semaphore, one more in the manager's hand
      show Conserved (Function.update s.resource .slots_sem (s.resource .slots_sem - 1)
        .slots_sem + 1) _ _
      rw [Function.update_self, Nat.sub_add_cancel hpos]
      exact hr
  | _ => exact hr

theorem Invariant.manager_pop (h : Invariant s) (hm : s.manager = .pop)
    {car : Fin cfg.K_CARS} {pq' : PriorityQueue (Fin cfg.K_CARS) cfg.K_CARS}
    (hlive : s.pq.live = car :: pq'.live) :
    Invariant { s with pq := pq', manager := .post_car car } := by
  have hunits := h.units
  have hqueue := h.queue
  have hplace := h.place
  rw [hm, hlive] at hqueue hplace
  rw [hm] at hunits
  refine { h with
    units := hunits, queue := ?_, place := ?_
    manager_early := h.manager_alive (by rw [hm]; exact nofun) nofun, no_return := nofun }
  · show s.queue_sem + 0 = pq'.live.length
    have : s.queue_sem + 1 = pq'.live.length + 1 := hqueue
    omega
  · intro j
    have hj := hplace j
    show pq'.live.count j + (if car = j then 1 else 0) + s.admissions j = _
    rw [List.count_cons] at hj
    simp only [beq_iff_eq] at hj
    exact hj

theorem Invariant.manager_post_car (h : Invariant s) {car : Fin cfg.K_CARS}
    (hm : s.manager = .post_car car) :
    Invariant { s with
      sem := Function.update s.sem car (s.sem car + 1)
      admissions := Function.update s.admissions car (s.admissions car + 1)
      manager := .wait_queue } := by
  have hunits := h.units
  have hqueue := h.queue
  have hplace := h.place
  rw [hm] at hunits hqueue hplace
  refine { h with
    units := ?_, queue := hqueue, place := ?_, admission := ?_
    manager_early := h.manager_alive (by rw [hm]; exact nofun) nofun, no_return := nofun }
  · intro r
    -- the slot goes from the manager to the car
    refine (hunits r).move car ?_ ?_
    · intro j hj
      simp [State.carHolds, hj]
    · simp only [State.carHolds, Function.update_self]
      cases r with
      | slots_sem =>
          show s.resource .slots_sem + 0 + (_ + (s.sem car + 1))
            = s.resource .slots_sem + 1 + (_ + s.sem car)
          omega
      | _ => rfl
  · intro j
    have hj : s.pq.live.count j + (if car = j then 1 else 0) + s.admissions j
        = (s.pc j).inserted.toNat := hplace j
    show s.pq.live.count j + 0 + Function.update s.admissions car (s.admissions car + 1) j
      = (s.pc j).inserted.toNat
    rw [← hj]
    by_cases hcar : j = car
    · subst hcar
      rw [Function.update_self, if_pos rfl]
      omega
    · rw [Function.update_of_ne hcar, if_neg (fun hc => hcar hc.symm)]
  · intro j
    have hj := h.admission j
    show Function.update s.admissions car (s.admissions car + 1) j
      = Function.update s.sem car (s.sem car + 1) j + (s.pc j).admitted.toNat
    by_cases hcar : j = car
    · subst hcar
      rw [Function.update_self, Function.update_self, hj]
      omega
    · rw [Function.update_of_ne hcar, Function.update_of_ne hcar]
      exact hj

/-- **The manager pops a car**: its token stands for one. -/
theorem Invariant.pop_some (h : Invariant s) (hm : s.manager = .pop) :
    ∃ car pq', pq_pop s.pq = (some car, pq') ∧ s.pq.live = car :: pq'.live := by
  rcases pq_pop_live s.pq with ⟨hnil, -⟩ | hcar
  · -- the token the manager took counts a queued car
    have hqueue := h.queue
    rw [hm, hnil] at hqueue
    cases hqueue
  · exact hcar

/-- **Every step of the manager keeps the invariant.** -/
theorem Invariant.manager (h : Invariant s) (hstep : managerStep s = some s') :
    Invariant s' := by
  unfold managerStep at hstep
  cases hm : s.manager with
  | unborn =>
      rw [hm] at hstep
      cases hstep
  | wait_queue =>
      rw [hm] at hstep
      by_cases hzero : s.queue_sem = 0
      · simp [hzero] at hstep
      · simp only [hzero, if_false] at hstep
        injection hstep with hstep
        rw [← hstep]
        exact h.manager_wait_queue hm (Nat.pos_of_ne_zero hzero)
  | wait_slots =>
      rw [hm] at hstep
      by_cases hzero : s.resource .slots_sem = 0
      · simp [hzero] at hstep
      · simp only [hzero, if_false] at hstep
        injection hstep with hstep
        rw [← hstep]
        exact h.manager_wait_slots hm (Nat.pos_of_ne_zero hzero)
  | pop =>
      obtain ⟨car, pq', hpop, hlive⟩ := h.pop_some hm
      simp only [hm, hpop] at hstep
      injection hstep with hstep
      rw [← hstep]
      exact h.manager_pop hm hlive
  | post_car car =>
      rw [hm] at hstep
      injection hstep with hstep
      rw [← hstep]
      exact h.manager_post_car hm
  -- the queue was not empty, so the slot was never to return
  | return_slot => exact absurd hm h.no_return

/-- **A pass of the monitor keeps the invariant**: it permutes the queue. -/
theorem Invariant.monitor (h : Invariant s) {now : Int}
    (hstep : monitorStep s now = some s') : Invariant s' := by
  unfold monitorStep at hstep
  cases hm : s.monitor with
  | unborn =>
      rw [hm] at hstep
      cases hstep
  | sleep =>
      rw [hm] at hstep
      injection hstep with hstep
      rw [← hstep]
      exact { h with }
  | pass =>
      rw [hm] at hstep
      injection hstep with hstep
      rw [← hstep]
      have hperm : (monitorPass now s.pq s.cars).1.live.Perm s.pq.live := by
        unfold monitorPass
        rw [insertion_sort_live]
        exact sortEnd_perm _ _
      refine { h with queue := ?_, place := ?_ }
      · show _ = (monitorPass now s.pq s.cars).1.live.length
        rw [hperm.length_eq]
        exact h.queue
      · intro j
        show (monitorPass now s.pq s.cars).1.live.count j + _ + _ = _
        rw [hperm.count_eq]
        exact h.place j

end manager

/-! ## §2. Steps of the creator and of main. -/

section creator
variable {s s' : State cfg}

theorem CreatorPc.next_loop {K n : Nat} (h : n ≤ K) :
    (CreatorPc.loop n : CreatorPc K).next = n := by
  unfold CreatorPc.loop
  split
  · rfl
  · show K = n
    omega

theorem CreatorPc.loop_owes {K n : Nat} (i : Fin K) :
    (CreatorPc.loop n : CreatorPc K).owes i = 0 := by
  unfold CreatorPc.loop
  split <;> rfl

theorem CreatorPc.loop_ne_unborn {K n : Nat} : (CreatorPc.loop n : CreatorPc K) ≠ .unborn := by
  unfold CreatorPc.loop
  split <;> exact nofun

/-- Before its creation a car has no part in anything. -/
theorem Invariant.unborn_sem (h : Invariant s) {i : Fin cfg.K_CARS}
    (hpc : s.pc i = .unborn) : s.sem i = 0 := by
  have hplace := h.place i
  have hadm := h.admission i
  rw [hpc] at hplace hadm
  simp [CarPc.inserted] at hplace
  omega

/-- Once it runs, the creator is not unborn again. -/
theorem Invariant.creator_alive (h : Invariant s) (hne : s.creator ≠ .unborn)
    {c : CreatorPc cfg.K_CARS} (hc : c ≠ .unborn) :
    (s.main = .create_creator → c = .unborn) ∧ (c = .unborn → s.main.first = true) :=
  ⟨fun hm => absurd (h.creator_first hm) hne, fun hcu => absurd hcu hc⟩

/-- The creator's turn: car `i` is the next to be created. -/
theorem Invariant.creator_turn (h : Invariant s) {i : Fin cfg.K_CARS}
    (hnext : s.creator.next = i.val) : s.pc i = .unborn :=
  (h.born i).mpr (Nat.le_of_eq hnext)

/-- What the attempt to create car `i` leaves: the car's label, and where the
creator goes on.  The creator owes `done_sem` a post if no thread will. -/
structure CreationLeaves {K : Nat} (i : Fin K) (pc' : CarPc) (c : CreatorPc K) : Prop where
  not_unborn : pc' ≠ .unborn
  units : ∀ r, pc'.units r = 0
  inserted : pc'.inserted = false
  admitted : pc'.admitted = false
  alive : c ≠ .unborn
  next : c.next = i.val + 1
  owes : ∀ j, c.owes j = if i = j then pc'.ended.toNat else 0

theorem creation_succeeds {K : Nat} (i : Fin K) : CreationLeaves i .insert (.sleep i) where
  not_unborn := nofun
  units r := by cases r <;> rfl
  inserted := rfl
  admitted := rfl
  alive := nofun
  next := rfl
  owes j := (ite_self 0).symm

theorem creation_fails {K : Nat} (i : Fin K) : CreationLeaves i .failed (.post_done i) where
  not_unborn := nofun
  units r := by cases r <;> rfl
  inserted := rfl
  admitted := rfl
  alive := nofun
  next := rfl
  owes _ := rfl

/-- **The attempt to create car `i`.** -/
theorem Invariant.creator_create (h : Invariant s) {i : Fin cfg.K_CARS}
    (hc : s.creator = .create i) {pc' : CarPc} {c : CreatorPc cfg.K_CARS}
    (hleaves : CreationLeaves i pc' c) :
    Invariant { s with pc := Function.update s.pc i pc', creator := c } := by
  have hpc : s.pc i = .unborn := h.creator_turn (by rw [hc]; rfl)
  have hborn := h.born
  have hended := h.ended
  rw [hc] at hborn hended
  have halive := h.creator_alive (by rw [hc]; exact nofun) hleaves.alive
  refine { h with
    units := h.units_served (by intro r; rw [hleaves.units, hpc]; cases r <;> rfl)
    place := h.place_frame (by rw [hleaves.inserted, hpc]; rfl)
    admission := h.admission_frame (by rw [hleaves.admitted, hpc]; rfl)
    ended := ?_, born := ?_
    creator_first := halive.1, creator_unborn := halive.2 }
  · intro j
    have hj : s.dones j + 0 = (s.pc j).ended.toNat := hended j
    show s.dones j + c.owes j = (Function.update s.pc i pc' j).ended.toNat
    rw [hleaves.owes]
    by_cases hji : j = i
    · subst hji
      have hzero : s.dones j = 0 := by
        rw [hpc] at hj
        exact hj
      rw [Function.update_self, if_pos rfl, hzero, Nat.zero_add]
    · rw [Function.update_of_ne hji, if_neg (fun heq => hji heq.symm)]
      exact hj
  · intro j
    have hj : s.pc j = .unborn ↔ i.val ≤ j.val := hborn j
    show Function.update s.pc i pc' j = .unborn ↔ c.next ≤ j.val
    rw [hleaves.next]
    by_cases hji : j = i
    · subst hji
      rw [Function.update_self]
      exact ⟨fun hcu => absurd hcu hleaves.not_unborn, fun hle => by omega⟩
    · rw [Function.update_of_ne hji, hj]
      have : i.val ≠ j.val := fun hv => hji (Fin.ext hv.symm)
      omega

theorem Invariant.creator_post_done (h : Invariant s) {i : Fin cfg.K_CARS}
    (hc : s.creator = .post_done i) :
    Invariant { s with
      done_sem := s.done_sem + 1
      dones := Function.update s.dones i (s.dones i + 1)
      creator := .sleep i } := by
  have hborn := h.born
  have hended := h.ended
  rw [hc] at hborn hended
  have halive := h.creator_alive (c := .sleep i) (by rw [hc]; exact nofun) nofun
  refine { h with
    ended := ?_, done := ?_, born := hborn
    creator_first := halive.1, creator_unborn := halive.2 }
  · intro j
    have hj : s.dones j + (if i = j then 1 else 0) = (s.pc j).ended.toNat := hended j
    show Function.update s.dones i (s.dones i + 1) j + 0 = (s.pc j).ended.toNat
    by_cases hji : j = i
    · subst hji
      rw [if_pos rfl] at hj
      rw [Function.update_self]
      exact hj
    · rw [if_neg (fun hc => hji hc.symm)] at hj
      rw [Function.update_of_ne hji]
      exact hj
  · show s.done_sem + 1 + s.main.waits cfg.K_CARS
      = ∑ j, Function.update s.dones i (s.dones i + 1) j
    rw [sum_update_succ, ← h.done]
    omega

/-- **Every step of the creator keeps the invariant.** -/
theorem Invariant.creator_step (h : Invariant s) {vip created : Bool} {now : Int}
    (hstep : creatorStep s vip now created = some s') : Invariant s' := by
  unfold creatorStep at hstep
  cases hc : s.creator with
  | unborn =>
      rw [hc] at hstep
      cases hstep
  | prepare i =>
      rw [hc] at hstep
      injection hstep with hstep
      rw [← hstep]
      -- sem_init sets a semaphore that counts as 0 already
      have hsem := h.unborn_sem (h.creator_turn (i := i) (by rw [hc]; rfl))
      have hborn := h.born
      have hended := h.ended
      rw [hc] at hborn hended
      have halive := h.creator_alive (c := .create i) (by rw [hc]; exact nofun) nofun
      rw [Function.update_eq_self_iff.mpr hsem.symm]
      exact { h with
        ended := hended, born := hborn
        creator_first := halive.1, creator_unborn := halive.2 }
  | create i =>
      rw [hc] at hstep
      cases created with
      | true =>
          injection hstep with hstep
          rw [← hstep]
          exact h.creator_create hc (creation_succeeds i)
      | false =>
          injection hstep with hstep
          rw [← hstep]
          exact h.creator_create hc (creation_fails i)
  | post_done i =>
      rw [hc] at hstep
      injection hstep with hstep
      rw [← hstep]
      exact h.creator_post_done hc
  | sleep i =>
      rw [hc] at hstep
      injection hstep with hstep
      rw [← hstep]
      have hborn := h.born
      have hended := h.ended
      rw [hc] at hborn hended
      have halive := h.creator_alive (by rw [hc]; exact nofun)
        (CreatorPc.loop_ne_unborn (n := i.val + 1))
      refine { h with
        ended := ?_, born := ?_
        creator_first := halive.1, creator_unborn := halive.2 }
      · intro j
        show _ + (CreatorPc.loop (i.val + 1)).owes j = _
        rw [CreatorPc.loop_owes]
        exact hended j
      · intro j
        show _ ↔ (CreatorPc.loop (i.val + 1)).next ≤ _
        rw [CreatorPc.next_loop i.isLt]
        exact hborn j
  | finished =>
      rw [hc] at hstep
      cases hstep

theorem MainPc.loop_early (K n : Nat) : (MainPc.loop K n).early = false := by
  unfold MainPc.loop
  split <;> rfl

theorem MainPc.loop_waits {K n : Nat} (h : n ≤ K) : (MainPc.loop K n).waits K = n := by
  unfold MainPc.loop
  split
  · rfl
  · show K = n
    omega

theorem MainPc.loop_lt {K n m : Nat} (h : MainPc.loop K n = .wait_done m) : m < K := by
  unfold MainPc.loop at h
  split at h
  next hlt =>
    injection h with h
    rwa [← h]
  next => cases h

theorem Invariant.main_create_creator (h : Invariant s) (hm : s.main = .create_creator) :
    Invariant { s with creator := .loop 0, main := .create_monitor } := by
  have hc := h.creator_first hm
  have hborn := h.born
  have hended := h.ended
  have hdone := h.done
  have hearly := h.manager_early
  rw [hc] at hborn hended
  rw [hm] at hdone hearly
  refine { h with
    ended := ?_, done := hdone, waits_lt := nofun, born := ?_
    creator_first := nofun
    creator_unborn := fun hcu => absurd hcu CreatorPc.loop_ne_unborn
    manager_early := hearly }
  · intro i
    show _ + (CreatorPc.loop 0).owes i = _
    rw [CreatorPc.loop_owes]
    exact hended i
  · intro i
    show _ ↔ (CreatorPc.loop 0).next ≤ _
    rw [CreatorPc.next_loop (Nat.zero_le _)]
    exact hborn i

theorem Invariant.main_create_manager (h : Invariant s) (hm : s.main = .create_manager) :
    Invariant { s with manager := .wait_queue, main := .loop cfg.K_CARS 0 } := by
  have hman : s.manager = .unborn := h.manager_early.mpr (by rw [hm]; rfl)
  have hc : s.creator ≠ .unborn := by
    intro hcu
    have := h.creator_unborn hcu
    rw [hm] at this
    cases this
  have hunits := h.units
  have hqueue := h.queue
  have hplace := h.place
  have hdone := h.done
  rw [hman] at hunits hqueue hplace
  rw [hm] at hdone
  refine { h with
    units := hunits, queue := hqueue, place := hplace, done := ?_
    waits_lt := fun n hn => MainPc.loop_lt hn
    creator_first := ?_
    creator_unborn := fun hcu => absurd hcu hc
    manager_early := ⟨nofun, ?_⟩, no_return := nofun }
  · show _ + (MainPc.loop cfg.K_CARS 0).waits cfg.K_CARS = _
    rw [MainPc.loop_waits (Nat.zero_le _)]
    exact hdone
  · intro hcc
    have := congrArg MainPc.early hcc
    rw [MainPc.loop_early] at this
    cases this
  · intro hcc
    rw [MainPc.loop_early] at hcc
    cases hcc

theorem Invariant.main_wait_done (h : Invariant s) {n : Nat} (hm : s.main = .wait_done n)
    (hpos : 0 < s.done_sem) :
    Invariant { s with
      done_sem := s.done_sem - 1, main := .loop cfg.K_CARS (n + 1) } := by
  have hlt := h.waits_lt n hm
  have hdone := h.done
  have hunborn := h.creator_unborn
  have hearly := h.manager_early
  rw [hm] at hdone hunborn hearly
  refine { h with
    done := ?_, waits_lt := fun m hn => MainPc.loop_lt hn, creator_first := ?_
    creator_unborn := fun hcu => absurd (hunborn hcu) nofun
    manager_early := ⟨fun hmu => absurd (hearly.mp hmu) nofun, ?_⟩ }
  · show s.done_sem - 1 + (MainPc.loop cfg.K_CARS (n + 1)).waits cfg.K_CARS = _
    rw [MainPc.loop_waits hlt, ← hdone]
    show s.done_sem - 1 + (n + 1) = s.done_sem + n
    omega
  · intro hcc
    have := congrArg MainPc.early hcc
    rw [MainPc.loop_early] at this
    cases this
  · intro hcc
    rw [MainPc.loop_early] at hcc
    cases hcc

/-- A failed creation ends the program. -/
theorem Invariant.main_fail (h : Invariant s) (hm : s.main.early = true)
    (hwaits : s.main.waits cfg.K_CARS = 0) : Invariant { s with main := .returned 1 } := by
  have hdone := h.done
  rw [hwaits] at hdone
  exact { h with
    done := hdone, waits_lt := nofun, creator_first := nofun, creator_unborn := fun _ => rfl
    manager_early := ⟨fun _ => rfl, fun _ => h.manager_early.mpr hm⟩ }

/-- **Every step of main keeps the invariant.** -/
theorem Invariant.main_step (h : Invariant s) {created : Bool}
    (hstep : mainStep s created = some s') : Invariant s' := by
  unfold mainStep at hstep
  cases hm : s.main with
  | create_creator =>
      rw [hm] at hstep
      cases created with
      | true =>
          injection hstep with hstep
          rw [← hstep]
          exact h.main_create_creator hm
      | false =>
          injection hstep with hstep
          rw [← hstep]
          exact h.main_fail (by rw [hm]; rfl) (by rw [hm]; rfl)
  | create_monitor =>
      rw [hm] at hstep
      have hdone := h.done
      have hunborn := h.creator_unborn
      have hearly := h.manager_early
      rw [hm] at hdone hunborn hearly
      cases created with
      | true =>
          injection hstep with hstep
          rw [← hstep]
          exact { h with
            done := hdone, waits_lt := nofun, creator_first := nofun
            creator_unborn := hunborn, manager_early := hearly }
      | false =>
          injection hstep with hstep
          rw [← hstep]
          exact h.main_fail (by rw [hm]; rfl) (by rw [hm]; rfl)
  | create_manager =>
      rw [hm] at hstep
      cases created with
      | true =>
          injection hstep with hstep
          rw [← hstep]
          exact h.main_create_manager hm
      | false =>
          injection hstep with hstep
          rw [← hstep]
          exact h.main_fail (by rw [hm]; rfl) (by rw [hm]; rfl)
  | wait_done n =>
      rw [hm] at hstep
      by_cases hzero : s.done_sem = 0
      · simp [hzero] at hstep
      · simp only [hzero, if_false] at hstep
        injection hstep with hstep
        rw [← hstep]
        exact h.main_wait_done hm (Nat.pos_of_ne_zero hzero)
  | close =>
      rw [hm] at hstep
      injection hstep with hstep
      rw [← hstep]
      have hdone := h.done
      have hunborn := h.creator_unborn
      have hearly := h.manager_early
      rw [hm] at hdone hunborn hearly
      exact { h with
        done := hdone, waits_lt := nofun, creator_first := nofun
        creator_unborn := hunborn, manager_early := hearly }
  | returned code =>
      rw [hm] at hstep
      cases hstep

end creator

/-! ## §3. Every run. -/

theorem Invariant.step {s s' : State cfg} (h : Invariant s) {a : Action cfg.K_CARS}
    (hstep : Garage.step s a = some s') : Invariant s' := by
  unfold Garage.step at hstep
  split at hstep
  · cases hstep
  · cases a with
    | main created => exact h.main_step hstep
    | creator vip now created => exact h.creator_step hstep
    | manager => exact h.manager hstep
    | monitor now => exact h.monitor hstep
    | car i => exact h.car hstep

/-- **The invariant holds in every reachable state.** -/
theorem Reachable.invariant {s : State cfg} (h : Reachable s) : Invariant s := by
  obtain ⟨cars, array, hreach⟩ := h
  exact hreach.invariant (invariant_start cars array) (fun _ _ _ hs hstep => hs.step hstep)

end ConcurrencyCrypto.Garage
