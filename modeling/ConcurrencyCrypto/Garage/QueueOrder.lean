/-
  ConcurrencyCrypto.Garage.QueueOrder
  ───────────────────────────────────
  **THE QUEUE IN THE RUNNING PROGRAM.**

  `queue.c` promises an order; here it is a promise about the program.  Cars
  insert themselves, the manager pops, the monitor promotes and sorts, and the
  creator writes the structs of cars to come, all interleaved.

    • `queue_order_in_program` — the queue is always in order, and the structs
                                 change only as they should.
-/
import ConcurrencyCrypto.Garage.Safety

namespace ConcurrencyCrypto.Garage

open ConcurrencyCrypto.Library

variable {cfg : Config} {s s' : State cfg}

/-! ## §1. What a step does to the queue and the cars. -/

/-- The number of structs the creator has filled in. -/
def CreatorPc.prepared {K : Nat} : CreatorPc K → Nat
  | .unborn => 0
  | .prepare i => i.val
  | .create i | .post_done i | .sleep i => i.val + 1
  | .finished => K

theorem CreatorPc.next_le_prepared {K : Nat} (c : CreatorPc K) : c.next ≤ c.prepared := by
  cases c with
  | create i => exact Nat.le_succ _
  | _ => exact Nat.le_refl _

theorem CreatorPc.prepared_loop {K n : Nat} (h : n ≤ K) :
    (CreatorPc.loop n : CreatorPc K).prepared = n := by
  unfold CreatorPc.loop
  split
  · rfl
  · show K = n
    omega

/-- The entry the creator writes into car `i`. -/
def CarEntry.Fresh (entry : CarEntry) (i : Nat) : Prop :=
  entry.car_id = i + 1 ∧ (entry.priority = 0 ∨ entry.priority = 1)

/-- The ways in which a step concerns the queue. -/
inductive QueueEffect (s s' : State cfg) : Prop where
  | inserted (i : Fin cfg.K_CARS) (hpc : s.pc i = .insert)
      (hlive : s'.pq.live = insertEnd (comesBefore s.cars) i s.pq.live)
      (hcars : s'.cars = s.cars) (hmanager : s'.manager = s.manager)
      (hadm : s'.admissions = s.admissions) (hcreator : s'.creator = s.creator)
  | popped (car : Fin cfg.K_CARS) (hpop : s.manager = .pop)
      (hlive : s.pq.live = car :: s'.pq.live)
      (hcars : s'.cars = s.cars) (hmanager : s'.manager = .post_car car)
      (hadm : s'.admissions = s.admissions) (hcreator : s'.creator = s.creator)
  | posted (car : Fin cfg.K_CARS) (hpost : s.manager = .post_car car)
      (hlive : s'.pq.live = s.pq.live)
      (hcars : s'.cars = s.cars) (hmanager : s'.manager = .wait_queue)
      (hadm : s'.admissions = Function.update s.admissions car (s.admissions car + 1))
      (hcreator : s'.creator = s.creator)
  /-- A pass of the monitor. -/
  | passed (now : Int) (hlive : s'.pq.live = sortEnd (comesBefore s'.cars) s.pq.live)
      (hcars : ∀ p, s'.cars p
        = if p ∈ s.pq.live ∧ agingDue now (s.cars p) = true then (s.cars p).promote
          else s.cars p)
      (hmanager : s'.manager = s.manager) (hadm : s'.admissions = s.admissions)
      (hcreator : s'.creator = s.creator)
  | prepared (i : Fin cfg.K_CARS) (entry : CarEntry) (hprepare : s.creator = .prepare i)
      (hfresh : entry.Fresh i.val) (hlive : s'.pq.live = s.pq.live)
      (hcars : s'.cars = Function.update s.cars i entry)
      (hmanager : s'.manager = s.manager) (hadm : s'.admissions = s.admissions)
      (hcreator : s'.creator = .create i)
  | kept (hlive : s'.pq.live = s.pq.live) (hcars : s'.cars = s.cars)
      (hhand : s'.manager.hand = s.manager.hand) (hadm : s'.admissions = s.admissions)
      (hcreator : s'.creator.prepared = s.creator.prepared)

theorem carStep_queueEffect (hinv : Invariant s) {i : Fin cfg.K_CARS}
    (h : carStep s i = some s') : QueueEffect s s' := by
  cases carStep_effect h with
  | inserted pq' hpc hpq hs' =>
      rw [hs']
      exact .inserted i hpc (live_of_pq_insert hpq) rfl rfl rfl rfl
  | overflow msg hpc hpq =>
      obtain ⟨pq', hok, -⟩ := pq_insert_of_lt s.cars s.pq i (hinv.room hpc)
      rw [hpq] at hok
      cases hok
  | admitted hpc hsem hs' =>
      rw [hs']
      exact .kept rfl rfl rfl rfl rfl
  | served resource' pc' ma mm ta mt hin hin' hunits hs' =>
      rw [hs']
      exact .kept rfl rfl rfl rfl rfl
  | done hin hunits hs' =>
      rw [hs']
      exact .kept rfl rfl rfl rfl rfl

theorem managerStep_queueEffect (hinv : Invariant s) (h : managerStep s = some s') :
    QueueEffect s s' := by
  unfold managerStep at h
  cases hm : s.manager with
  | unborn =>
      rw [hm] at h
      cases h
  | wait_queue =>
      rw [hm] at h
      simp only at h
      split at h
      · cases h
      · injection h with h
        rw [← h]
        exact .kept rfl rfl (by rw [hm]; rfl) rfl rfl
  | wait_slots =>
      rw [hm] at h
      simp only at h
      split at h
      · cases h
      · injection h with h
        rw [← h]
        exact .kept rfl rfl (by rw [hm]; rfl) rfl rfl
  | pop =>
      obtain ⟨car, pq', hpop, hlive⟩ := hinv.pop_some hm
      simp only [hm, hpop] at h
      injection h with h
      rw [← h]
      exact .popped car hm hlive rfl rfl rfl rfl
  | post_car car =>
      rw [hm] at h
      injection h with h
      rw [← h]
      exact .posted car hm rfl rfl rfl rfl rfl
  | return_slot => exact absurd hm hinv.no_return

theorem monitorStep_queueEffect {now : Int} (h : monitorStep s now = some s') :
    QueueEffect s s' := by
  unfold monitorStep at h
  split at h
  · cases h
  · injection h with h
    rw [← h]
    exact .kept rfl rfl rfl rfl rfl
  · injection h with h
    rw [← h]
    exact .passed now (insertion_sort_live _ s.pq) (agingScan_apply now s.pq s.cars) rfl rfl rfl

theorem creatorStep_queueEffect {vip created : Bool} {now : Int}
    (h : creatorStep s vip now created = some s') : QueueEffect s s' := by
  unfold creatorStep at h
  cases hc : s.creator with
  | unborn =>
      rw [hc] at h
      cases h
  | prepare i =>
      rw [hc] at h
      injection h with h
      rw [← h]
      refine .prepared i _ hc ⟨rfl, ?_⟩ rfl rfl rfl rfl rfl
      cases vip with
      | true => exact Or.inr rfl
      | false => exact Or.inl rfl
  | create i =>
      rw [hc] at h
      cases created with
      | true =>
          injection h with h
          rw [← h]
          exact .kept rfl rfl rfl rfl (by rw [hc]; rfl)
      | false =>
          injection h with h
          rw [← h]
          exact .kept rfl rfl rfl rfl (by rw [hc]; rfl)
  | post_done i =>
      rw [hc] at h
      injection h with h
      rw [← h]
      exact .kept rfl rfl rfl rfl (by rw [hc]; rfl)
  | sleep i =>
      rw [hc] at h
      injection h with h
      rw [← h]
      exact .kept rfl rfl rfl rfl (by rw [hc]; exact CreatorPc.prepared_loop i.isLt)
  | finished =>
      rw [hc] at h
      cases h

theorem mainStep_queueEffect (hinv : Invariant s) {created : Bool}
    (h : mainStep s created = some s') : QueueEffect s s' := by
  unfold mainStep at h
  cases hm : s.main with
  | create_creator =>
      have hunborn := hinv.creator_first hm
      rw [hm] at h
      cases created with
      | true =>
          injection h with h
          rw [← h]
          refine .kept rfl rfl rfl rfl ?_
          rw [hunborn]
          exact CreatorPc.prepared_loop (Nat.zero_le _)
      | false =>
          injection h with h
          rw [← h]
          exact .kept rfl rfl rfl rfl rfl
  | create_monitor =>
      rw [hm] at h
      cases created with
      | true =>
          injection h with h
          rw [← h]
          exact .kept rfl rfl rfl rfl rfl
      | false =>
          injection h with h
          rw [← h]
          exact .kept rfl rfl rfl rfl rfl
  | create_manager =>
      have hunborn : s.manager = .unborn := hinv.manager_early.mpr (by rw [hm]; rfl)
      rw [hm] at h
      cases created with
      | true =>
          injection h with h
          rw [← h]
          exact .kept rfl rfl (by rw [hunborn]; rfl) rfl rfl
      | false =>
          injection h with h
          rw [← h]
          exact .kept rfl rfl rfl rfl rfl
  | wait_done n =>
      rw [hm] at h
      simp only at h
      split at h
      · cases h
      · injection h with h
        rw [← h]
        exact .kept rfl rfl rfl rfl rfl
  | close =>
      rw [hm] at h
      injection h with h
      rw [← h]
      exact .kept rfl rfl rfl rfl rfl
  | returned code =>
      rw [hm] at h
      cases h

/-- **What a step does to the queue.** -/
theorem step_queueEffect (hinv : Invariant s) {a : Action cfg.K_CARS} (h : step s a = some s') :
    QueueEffect s s' := by
  unfold step at h
  split at h
  · cases h
  · cases a with
    | main created => exact mainStep_queueEffect hinv h
    | creator vip now created => exact creatorStep_queueEffect h
    | manager => exact managerStep_queueEffect hinv h
    | monitor now => exact monitorStep_queueEffect h
    | car i => exact carStep_queueEffect hinv h

/-! ## §2. The order of the queue. -/

/-- A queued car was created. -/
theorem Invariant.live_prepared (hinv : Invariant s) {i : Fin cfg.K_CARS}
    (hlive : i ∈ s.pq.live) : i.val < s.creator.prepared := by
  have hcount := List.count_pos_iff.mpr hlive
  have hplace := hinv.place i
  refine Nat.lt_of_lt_of_le (Nat.lt_of_not_le fun hle => ?_) s.creator.next_le_prepared
  rw [(hinv.born i).mpr hle] at hplace
  have hzero : s.pq.live.count i + s.manager.hand i + s.admissions i = 0 := hplace
  omega

/-- **In order**, and every struct that was filled in is as it should be. -/
structure Ordered (s : State cfg) : Prop where
  sorted : SortedBy (comesBefore s.cars) s.pq.live
  fresh : ∀ i : Fin cfg.K_CARS, i.val < s.creator.prepared → (s.cars i).Fresh i.val

/-- Structs of cars that are not queued do not matter. -/
theorem sortedBy_congr {heap heap' : Heap (Fin cfg.K_CARS)} {l : List (Fin cfg.K_CARS)}
    (hl : ∀ i ∈ l, heap' i = heap i) (h : SortedBy (comesBefore heap) l) :
    SortedBy (comesBefore heap') l := by
  refine List.Pairwise.imp_of_mem ?_ h
  intro a b ha hb hab
  unfold comesBefore at hab ⊢
  rw [hl a ha, hl b hb]
  exact hab

theorem CarEntry.Fresh.promote {entry : CarEntry} {i : Nat} (h : entry.Fresh i) :
    entry.promote.Fresh i :=
  ⟨h.1, Or.inr rfl⟩

theorem Ordered.step (h : Ordered s) (hinv : Invariant s) (heffect : QueueEffect s s') :
    Ordered s' := by
  cases heffect with
  | inserted i hpc hlive hcars hmanager hadm hcreator =>
      refine ⟨?_, ?_⟩
      · rw [hlive, hcars]
        exact insertEnd_sorted (comesBefore_strictWeak s.cars) h.sorted
      · rw [hcars, hcreator]
        exact h.fresh
  | popped car hpop hlive hcars hmanager hadm hcreator =>
      refine ⟨?_, ?_⟩
      · rw [hcars]
        have hsorted := h.sorted
        rw [hlive] at hsorted
        exact hsorted.of_cons
      · rw [hcars, hcreator]
        exact h.fresh
  | posted car hpost hlive hcars hmanager hadm hcreator =>
      refine ⟨?_, ?_⟩
      · rw [hlive, hcars]
        exact h.sorted
      · rw [hcars, hcreator]
        exact h.fresh
  | passed now hlive hcars hmanager hadm hcreator =>
      refine ⟨?_, ?_⟩
      · rw [hlive]
        exact sortEnd_sorted (comesBefore_strictWeak s'.cars)
      · intro i hi
        rw [hcreator] at hi
        rw [hcars]
        split
        · exact (h.fresh i hi).promote
        · exact h.fresh i hi
  | prepared i entry hprepare hfresh hlive hcars hmanager hadm hcreator =>
      -- the creator writes the struct of a car that nobody knows yet
      have hold : ∀ j ∈ s.pq.live, j ≠ i := by
        intro j hj hji
        have hlt := hinv.live_prepared hj
        rw [hji, hprepare] at hlt
        exact absurd hlt (Nat.lt_irrefl _)
      refine ⟨?_, ?_⟩
      · rw [hlive, hcars]
        exact sortedBy_congr (fun j hj => Function.update_of_ne (hold j hj) _ _) h.sorted
      · intro j hj
        rw [hcreator] at hj
        rw [hcars]
        by_cases hji : j = i
        · rw [hji, Function.update_self]
          exact hfresh
        · rw [Function.update_of_ne hji]
          refine h.fresh j ?_
          have hle : j.val < i.val + 1 := hj
          have hne : j.val ≠ i.val := fun hv => hji (Fin.ext hv)
          rw [hprepare]
          show j.val < i.val
          omega
  | kept hlive hcars hhand hadm hcreator =>
      refine ⟨?_, ?_⟩
      · rw [hlive, hcars]
        exact h.sorted
      · rw [hcars, hcreator]
        exact h.fresh

theorem ordered_start (cars : Heap (Fin cfg.K_CARS))
    (array : Vector (Fin cfg.K_CARS) cfg.K_CARS) : Ordered (State.start cars array : State cfg) :=
  ⟨List.Pairwise.nil, fun _ hi => absurd hi (Nat.not_lt_zero _)⟩

theorem Reachable.ordered (h : Reachable s) : Ordered s := by
  obtain ⟨cars, array, hreach⟩ := h
  have hboth : Invariant s ∧ Ordered s :=
    hreach.invariant (I := fun s => Invariant s ∧ Ordered s)
      ⟨invariant_start cars array, ordered_start cars array⟩
      (fun _ _ _ hs hstep => ⟨hs.1.step hstep, hs.2.step hs.1 (step_queueEffect hs.1 hstep)⟩)
  exact hboth.2

/-- **What a step may do to a struct.**  A created car's struct changes only
while it is queued, and then its priority goes from 0 to 1. -/
theorem cars_step (heffect : QueueEffect s s') (i : Fin cfg.K_CARS)
    (hi : i.val < s.creator.prepared) :
    s'.cars i = s.cars i ∨
      (i ∈ s.pq.live ∧ (s.cars i).priority = 0 ∧ s'.cars i = (s.cars i).promote) := by
  cases heffect with
  | passed now hlive hcars hmanager hadm hcreator =>
      rw [hcars]
      split
      next hdue => exact Or.inr ⟨hdue.1, (of_decide_eq_true hdue.2).1, rfl⟩
      next => exact Or.inl rfl
  | prepared j entry hprepare hfresh hlive hcars hmanager hadm hcreator =>
      rw [hprepare] at hi
      have hij : i ≠ j := fun heq => absurd hi (by rw [heq]; exact Nat.lt_irrefl _)
      rw [hcars]
      exact Or.inl (Function.update_of_ne hij _ _)
  | _ => exact Or.inl (by simp only [*])

theorem mainStep_cars {created : Bool} (h : mainStep s created = some s') :
    s'.cars = s.cars := by
  unfold mainStep at h
  split at h
  · split at h <;>
      · injection h with h
        rw [← h]
  · split at h <;>
      · injection h with h
        rw [← h]
  · split at h <;>
      · injection h with h
        rw [← h]
  · split at h
    · cases h
    · injection h with h
      rw [← h]
  · injection h with h
    rw [← h]
  · cases h

theorem managerStep_cars (h : managerStep s = some s') : s'.cars = s.cars := by
  unfold managerStep at h
  split at h
  · cases h
  · split at h
    · cases h
    · injection h with h
      rw [← h]
  · split at h
    · cases h
    · injection h with h
      rw [← h]
  · split at h <;>
      · injection h with h
        rw [← h]
  · injection h with h
    rw [← h]
  · injection h with h
    rw [← h]

theorem carStep_cars (hinv : Invariant s) {i : Fin cfg.K_CARS} (h : carStep s i = some s') :
    s'.cars = s.cars := by
  cases carStep_effect h with
  | inserted pq' hpc hpq hs' => rw [hs']
  | overflow msg hpc hpq =>
      obtain ⟨pq', hok, -⟩ := pq_insert_of_lt s.cars s.pq i (hinv.room hpc)
      rw [hpq] at hok
      cases hok
  | admitted hpc hsem hs' => rw [hs']
  | served resource' pc' ma mm ta mt hin hin' hunits hs' => rw [hs']
  | done hin hunits hs' => rw [hs']

theorem creatorStep_cars {vip created : Bool} {now : Int}
    (h : creatorStep s vip now created = some s') : s'.cars = s.cars ∨
      ∃ i entry, s.creator = .prepare i ∧ s'.cars = Function.update s.cars i entry := by
  unfold creatorStep at h
  split at h
  · cases h
  next i hc =>
    injection h with h
    rw [← h]
    exact Or.inr ⟨i, _, hc, rfl⟩
  · split at h <;>
      · injection h with h
        exact Or.inl (by rw [← h])
  · injection h with h
    exact Or.inl (by rw [← h])
  · injection h with h
    exact Or.inl (by rw [← h])
  · cases h

/-- **Who writes structs**: a pass of the monitor, and the creator that fills
one in. -/
theorem cars_of_step (hinv : Invariant s) {a : Action cfg.K_CARS} (h : step s a = some s') :
    s'.cars = s.cars ∨ (∃ now, a = .monitor now) ∨
      ∃ i entry, s.creator = .prepare i ∧ s'.cars = Function.update s.cars i entry := by
  unfold step at h
  split at h
  · cases h
  · cases a with
    | main created => exact Or.inl (mainStep_cars h)
    | creator vip now created => exact (creatorStep_cars h).imp_right Or.inr
    | manager => exact Or.inl (managerStep_cars h)
    | monitor now => exact Or.inr (Or.inl ⟨now, rfl⟩)
    | car i => exact Or.inl (carStep_cars hinv h)

/-- A car that has passed its admission was created, and is not queued. -/
theorem Invariant.admitted_gone (hinv : Invariant s) {i : Fin cfg.K_CARS}
    (hi : (s.pc i).admitted = true) : i ∉ s.pq.live ∧ i.val < s.creator.prepared := by
  have hadm := hinv.admission i
  have hplace := hinv.place i
  have hins := Bool.toNat_le (s.pc i).inserted
  rw [hi, Bool.toNat_true] at hadm
  refine ⟨?_, ?_⟩
  · intro hlive
    have := List.count_pos_iff.mpr hlive
    omega
  · refine Nat.lt_of_lt_of_le (Nat.lt_of_not_le fun hle => ?_) s.creator.next_le_prepared
    rw [(hinv.born i).mpr hle] at hi
    cases hi

/-- **THE QUEUE IS IN ORDER ALL THE TIME**, by priority and then by time as
the structs stand; so the car that the manager pops is a best one.  A struct
that was filled in keeps its number and its time, and a priority 0 or 1; once
its car has passed its admission no step changes it, so what its thread reads
of it then needs no lock.  Before, only the monitor changes it. -/
theorem queue_order_in_program (h : Reachable s) :
    s.pq.live.Pairwise (fun a b => (s.cars a).priority > (s.cars b).priority ∨
        ((s.cars a).priority = (s.cars b).priority ∧
          (s.cars a).enter_time ≤ (s.cars b).enter_time)) ∧
      (s.manager = .pop → ∃ car pq', pq_pop s.pq = (some car, pq') ∧
        ∀ other ∈ pq'.live, comesBefore s.cars other car = false) ∧
      (∀ i : Fin cfg.K_CARS, s.pc i ≠ .unborn → (s.cars i).Fresh i.val) ∧
      ∀ a s', step s a = some s' →
        (∀ i : Fin cfg.K_CARS, s.pc i ≠ .unborn →
          s'.cars i = s.cars i ∨ ((∃ now, a = .monitor now) ∧ i ∈ s.pq.live ∧
            s'.cars i = { s.cars i with priority := 1 })) ∧
        ∀ i, (s.pc i).admitted = true → s'.cars i = s.cars i := by
  have hinv := h.invariant
  have hord := h.ordered
  have hprepared : ∀ i : Fin cfg.K_CARS, s.pc i ≠ .unborn → i.val < s.creator.prepared := by
    intro i hi
    exact Nat.lt_of_lt_of_le (Nat.lt_of_not_le fun hle => hi ((hinv.born i).mpr hle))
      s.creator.next_le_prepared
  refine ⟨?_, ?_, fun i hi => hord.fresh i (hprepared i hi), ?_⟩
  · refine hord.sorted.imp ?_
    intro a b hab
    simp only [comesBefore, decide_eq_false_iff_not] at hab
    omega
  · intro hm
    obtain ⟨car, pq', hpop, hlive⟩ := hinv.pop_some hm
    have hsorted := hord.sorted
    rw [hlive] at hsorted
    exact ⟨car, pq', hpop, fun other hother => List.rel_of_pairwise_cons hsorted hother⟩
  · intro a s' hstep
    have heffect := step_queueEffect hinv hstep
    refine ⟨?_, ?_⟩
    · intro i hi
      rcases cars_of_step hinv hstep with hsame | hmonitor | ⟨j, entry, hprepare, hcars⟩
      · exact Or.inl (by rw [hsame])
      · rcases cars_step heffect i (hprepared i hi) with heq | ⟨hlive, -, heq⟩
        · exact Or.inl heq
        · exact Or.inr ⟨hmonitor, hlive, heq⟩
      · -- the struct that is filled in belongs to nobody yet
        have hlt := hprepared i hi
        rw [hprepare] at hlt
        have hij : i ≠ j := fun heq => absurd hlt (by rw [heq]; exact Nat.lt_irrefl _)
        rw [hcars]
        exact Or.inl (Function.update_of_ne hij _ _)
    · intro i hi
      obtain ⟨hgone, hmade⟩ := hinv.admitted_gone hi
      exact (cars_step heffect i hmade).resolve_right fun hc => hgone hc.1

/-- The manager is about to pop the VIP, who has come after the other car. -/
theorem queue_order_at_pop :
    ∃ s : State smallConfig, s.manager = .pop ∧ s.pq.live = [vipCar, smallCar] ∧
      s.pq.live.Pairwise (fun a b => (s.cars a).priority > (s.cars b).priority ∨
        ((s.cars a).priority = (s.cars b).priority ∧
          (s.cars a).enter_time ≤ (s.cars b).enter_time)) ∧
      (s.manager = .pop → ∃ car pq', pq_pop s.pq = (some car, pq') ∧
        ∀ other ∈ pq'.live, comesBefore s.cars other car = false) ∧
      (∀ i : Fin smallConfig.K_CARS, s.pc i ≠ .unborn → (s.cars i).Fresh i.val) ∧
      ∀ a s', step s a = some s' →
        (∀ i : Fin smallConfig.K_CARS, s.pc i ≠ .unborn →
          s'.cars i = s.cars i ∨ ((∃ now, a = .monitor now) ∧ i ∈ s.pq.live ∧
            s'.cars i = { s.cars i with priority := 1 })) ∧
        ∀ i, (s.pc i).admitted = true → s'.cars i = s.cars i := by
  have hrun : ∃ s, Reaches step smallStart s ∧
      (s.manager, s.pq.live) = (.pop, [vipCar, smallCar]) :=
    exists_reaches (smallArrival ++ [Action.manager, Action.manager])
      (fun s : State smallConfig => (s.manager, s.pq.live)) (by decide +kernel)
  obtain ⟨s, hs, hpop⟩ := hrun
  obtain ⟨hmanager, hlive⟩ := Prod.mk.inj hpop
  exact ⟨s, hmanager, hlive, queue_order_in_program ⟨_, _, hs⟩⟩

end ConcurrencyCrypto.Garage
