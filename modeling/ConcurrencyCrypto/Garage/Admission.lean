/-
  ConcurrencyCrypto.Garage.Admission
  ──────────────────────────────────
  **WHO IS AHEAD IS ADMITTED FIRST**, over whole runs of the program.

    • `Ahead.step`        — no step gives the place of a car away,
    • `admitted_in_order` — so the car behind is not admitted before it.
-/
import ConcurrencyCrypto.Garage.QueueOrder

namespace ConcurrencyCrypto.Garage

open ConcurrencyCrypto.Library

variable {cfg : Config} {s s' : State cfg}

/-! ## §1. Who is ahead. -/

/-- Car `A` is in the queue or has left it, and `B`, wherever it is, has not
passed it: the claim that no step gives up. -/
structure Ahead (A B : Fin cfg.K_CARS) (s : State cfg) : Prop where
  entered : 0 < s.pq.live.count A + s.manager.hand A + s.admissions A
  created : B.val < s.creator.prepared
  time : (s.cars A).enter_time ≤ (s.cars B).enter_time
  priority : A ∈ s.pq.live → (s.cars B).priority ≤ (s.cars A).priority
  order : A ∈ s.pq.live → B ∈ s.pq.live → [A, B].Sublist s.pq.live
  /-- `B` is not through before `A`. -/
  waits : s.admissions A = 0 → s.admissions B = 0 ∧ s.manager.hand B = 0

section ahead
variable {A B : Fin cfg.K_CARS}

theorem Ahead.created_A (h : Ahead A B s) (hinv : Invariant s) :
    A.val < s.creator.prepared := by
  have hplace := hinv.place A
  have hentered := h.entered
  refine Nat.lt_of_lt_of_le (Nat.lt_of_not_le fun hle => ?_) s.creator.next_le_prepared
  rw [(hinv.born A).mpr hle] at hplace
  have hzero : s.pq.live.count A + s.manager.hand A + s.admissions A = 0 := hplace
  omega

/-- In the order of the queue `B` need not stand in front of `A`. -/
theorem Ahead.not_before (h : Ahead A B s) (hA : A ∈ s.pq.live) :
    comesBefore s.cars B A = false := by
  have hprio := h.priority hA
  have htime := h.time
  simp only [comesBefore, decide_eq_false_iff_not]
  omega

theorem Ahead.step_inserted (h : Ahead A B s) (hinv : Invariant s) {i : Fin cfg.K_CARS}
    (hpc : s.pc i = .insert)
    (hlive : s'.pq.live = insertEnd (comesBefore s.cars) i s.pq.live)
    (hcars : s'.cars = s.cars) (hmanager : s'.manager = s.manager)
    (hadm : s'.admissions = s.admissions) (hcreator : s'.creator = s.creator) :
    Ahead A B s' := by
  have hperm := insertEnd_perm (comesBefore s.cars) i s.pq.live
  -- `A` is in already
  have hAi : A ≠ i := by
    intro heq
    have hplace := hinv.place A
    rw [heq, hpc] at hplace
    have hzero : s.pq.live.count i + s.manager.hand i + s.admissions i = 0 := hplace
    have hentered := h.entered
    rw [heq] at hentered
    omega
  have hmem : A ∈ s'.pq.live → A ∈ s.pq.live := by
    intro hA
    rw [hlive, hperm.mem_iff] at hA
    exact (List.mem_cons.mp hA).resolve_left hAi
  refine ⟨?_, ?_, ?_, ?_, ?_, ?_⟩
  · rw [hlive, hmanager, hadm, hperm.count_eq, List.count_cons_of_ne hAi.symm]
    exact h.entered
  · rw [hcreator]
    exact h.created
  · rw [hcars]
    exact h.time
  · intro hA
    rw [hcars]
    exact h.priority (hmem hA)
  · intro hA hB
    rw [hlive] at hB ⊢
    rcases List.mem_cons.mp (hperm.mem_iff.mp hB) with rfl | hB
    · -- `B` comes in behind `A`
      exact insertEnd_precedes (hmem hA) (h.not_before (hmem hA))
    · exact (h.order (hmem hA) hB).trans (sublist_insertEnd _ i s.pq.live)
  · rw [hadm, hmanager]
    exact h.waits

theorem Ahead.step_popped (h : Ahead A B s) (hinv : Invariant s) {car : Fin cfg.K_CARS}
    (hpop : s.manager = .pop) (hlive : s.pq.live = car :: s'.pq.live)
    (hcars : s'.cars = s.cars) (hmanager : s'.manager = .post_car car)
    (hadm : s'.admissions = s.admissions) (hcreator : s'.creator = s.creator) :
    Ahead A B s' := by
  have hcarlive : car ∈ s.pq.live := by
    rw [hlive]
    exact List.mem_cons_self
  have hgone : car ∉ s'.pq.live := by
    have hnodup := hinv.live_nodup
    rw [hlive] at hnodup
    exact (List.nodup_cons.mp hnodup).1
  have hmem : ∀ {i}, i ∈ s'.pq.live → i ∈ s.pq.live := by
    intro i hi
    rw [hlive]
    exact List.mem_cons_of_mem _ hi
  have hhand : ∀ i, s.manager.hand i = 0 := by
    intro i
    rw [hpop]
    rfl
  refine ⟨?_, ?_, ?_, ?_, ?_, ?_⟩
  · have hentered := h.entered
    rw [hlive, List.count_cons, hhand] at hentered
    rw [hmanager, hadm]
    show 0 < s'.pq.live.count A + (if car = A then 1 else 0) + s.admissions A
    simp only [beq_iff_eq] at hentered
    omega
  · rw [hcreator]
    exact h.created
  · rw [hcars]
    exact h.time
  · intro hA
    rw [hcars]
    exact h.priority (hmem hA)
  · intro hA hB
    have horder := h.order (hmem hA) (hmem hB)
    rw [hlive] at horder
    have hne : A ≠ car := by
      intro heq
      rw [heq] at hA
      exact hgone hA
    exact (List.sublist_cons_iff.mp horder).resolve_right
      (fun ⟨r, hr, _⟩ => hne (by injection hr))
  · intro hA
    rw [hadm] at hA ⊢
    refine ⟨(h.waits hA).1, ?_⟩
    rw [hmanager]
    show (if car = B then 1 else 0) = 0
    refine if_neg fun heq => ?_
    -- the first of the queue cannot be `B`, for `A` is queued
    have hentered := h.entered
    rw [hhand, hA] at hentered
    have hAlive : A ∈ s.pq.live := List.count_pos_iff.mp hentered
    have horder := h.order hAlive (heq ▸ hcarlive)
    rw [hlive, ← heq] at horder
    rcases List.sublist_cons_iff.mp horder with hsub | ⟨r, hr, hsub⟩
    · exact hgone (hsub.subset (List.mem_cons_of_mem _ List.mem_cons_self))
    · injection hr with _ hr
      rw [← hr] at hsub
      exact hgone (hsub.subset List.mem_cons_self)

theorem Ahead.step_posted (h : Ahead A B s) {car : Fin cfg.K_CARS}
    (hpost : s.manager = .post_car car) (hlive : s'.pq.live = s.pq.live)
    (hcars : s'.cars = s.cars) (hmanager : s'.manager = .wait_queue)
    (hadm : s'.admissions = Function.update s.admissions car (s.admissions car + 1))
    (hcreator : s'.creator = s.creator) : Ahead A B s' := by
  have hhand : ∀ i, s.manager.hand i = if car = i then 1 else 0 := by
    intro i
    rw [hpost]
    rfl
  refine ⟨?_, ?_, ?_, ?_, ?_, ?_⟩
  · have hentered := h.entered
    rw [hhand] at hentered
    rw [hlive, hmanager, hadm]
    show 0 < s.pq.live.count A + 0 + Function.update s.admissions car (s.admissions car + 1) A
    by_cases hcar : A = car
    · rw [hcar, Function.update_self]
      omega
    · rw [if_neg (fun heq => hcar heq.symm)] at hentered
      rw [Function.update_of_ne hcar]
      exact hentered
  · rw [hcreator]
    exact h.created
  · rw [hcars]
    exact h.time
  · rw [hlive, hcars]
    exact h.priority
  · rw [hlive]
    exact h.order
  · intro hA
    rw [hadm] at hA ⊢
    have hAcar : A ≠ car := by
      intro heq
      rw [heq, Function.update_self] at hA
      cases hA
    rw [Function.update_of_ne hAcar] at hA
    obtain ⟨hB, hBhand⟩ := h.waits hA
    have hBcar : B ≠ car := by
      intro heq
      rw [hhand, if_pos heq.symm] at hBhand
      cases hBhand
    rw [Function.update_of_ne hBcar, hmanager]
    exact ⟨hB, rfl⟩

/-- A pass of the monitor promotes `A` no later than `B`, and sorts stably. -/
theorem Ahead.step_passed (h : Ahead A B s) (hinv : Invariant s) (hord : Ordered s) {now : Int}
    (hlive : s'.pq.live = sortEnd (comesBefore s'.cars) s.pq.live)
    (hcars : ∀ p, s'.cars p
      = if p ∈ s.pq.live ∧ agingDue now (s.cars p) = true then (s.cars p).promote
        else s.cars p)
    (hmanager : s'.manager = s.manager) (hadm : s'.admissions = s.admissions)
    (hcreator : s'.creator = s.creator) : Ahead A B s' := by
  have hperm : s'.pq.live.Perm s.pq.live := by
    rw [hlive]
    exact sortEnd_perm _ _
  have htimes : ∀ p, (s'.cars p).enter_time = (s.cars p).enter_time := by
    intro p
    rw [hcars]
    split <;> rfl
  have htime : (s'.cars A).enter_time ≤ (s'.cars B).enter_time := by
    rw [htimes, htimes]
    exact h.time
  have hprio : A ∈ s.pq.live → (s'.cars B).priority ≤ (s'.cars A).priority := by
    intro hA
    have hle := h.priority hA
    have hA01 := (hord.fresh A (h.created_A hinv)).2
    rw [hcars, hcars]
    by_cases hB : B ∈ s.pq.live ∧ agingDue now (s.cars B) = true
    · rw [if_pos hB]
      -- `A` has waited as long as `B`
      have hdue := of_decide_eq_true hB.2
      have hwait : difftime now (s.cars A).enter_time ≥ WAIT_THRESHOLD :=
        le_trans hdue.2 (difftime_anti now h.time)
      rcases hA01 with hzero | hone
      · rw [if_pos ⟨hA, decide_eq_true ⟨hzero, hwait⟩⟩]
        exact le_refl _
      · split
        · exact le_refl _
        · exact le_of_eq hone.symm
    · rw [if_neg hB]
      split
      next hdue =>
        have hzero := (of_decide_eq_true hdue.2).1
        show (s.cars B).priority ≤ 1
        omega
      next => exact hle
  refine ⟨?_, ?_, htime, ?_, ?_, ?_⟩
  · rw [hperm.count_eq, hmanager, hadm]
    exact h.entered
  · rw [hcreator]
    exact h.created
  · intro hA
    exact hprio (hperm.mem_iff.mp hA)
  · intro hA hB
    have hA := hperm.mem_iff.mp hA
    rw [hlive]
    refine sortEnd_precedes (h.order hA (hperm.mem_iff.mp hB)) ?_
    have hle := hprio hA
    simp only [comesBefore, decide_eq_false_iff_not]
    omega
  · rw [hadm, hmanager]
    exact h.waits

theorem Ahead.step_prepared (h : Ahead A B s) (hinv : Invariant s) {i : Fin cfg.K_CARS}
    {entry : CarEntry} (hprepare : s.creator = .prepare i) (hlive : s'.pq.live = s.pq.live)
    (hcars : s'.cars = Function.update s.cars i entry) (hmanager : s'.manager = s.manager)
    (hadm : s'.admissions = s.admissions) (hcreator : s'.creator = .create i) :
    Ahead A B s' := by
  -- both structs were filled in before
  have hne : ∀ {j : Fin cfg.K_CARS}, j.val < s.creator.prepared → j ≠ i := by
    intro j hj hji
    rw [hprepare, hji] at hj
    exact absurd hj (Nat.lt_irrefl _)
  have hA : s'.cars A = s.cars A := by
    rw [hcars]
    exact Function.update_of_ne (hne (h.created_A hinv)) _ _
  have hB : s'.cars B = s.cars B := by
    rw [hcars]
    exact Function.update_of_ne (hne h.created) _ _
  refine ⟨?_, ?_, ?_, ?_, ?_, ?_⟩
  · rw [hlive, hmanager, hadm]
    exact h.entered
  · have hcreated := h.created
    rw [hprepare] at hcreated
    rw [hcreator]
    exact Nat.lt_succ_of_lt hcreated
  · rw [hA, hB]
    exact h.time
  · rw [hlive, hA, hB]
    exact h.priority
  · rw [hlive]
    exact h.order
  · rw [hadm, hmanager]
    exact h.waits

/-- **No step lets `B` pass.** -/
theorem Ahead.step (h : Ahead A B s) (hinv : Invariant s) (hord : Ordered s)
    (heffect : QueueEffect s s') : Ahead A B s' := by
  cases heffect with
  | inserted i hpc hlive hcars hmanager hadm hcreator =>
      exact h.step_inserted hinv hpc hlive hcars hmanager hadm hcreator
  | popped car hpop hlive hcars hmanager hadm hcreator =>
      exact h.step_popped hinv hpop hlive hcars hmanager hadm hcreator
  | posted car hpost hlive hcars hmanager hadm hcreator =>
      exact h.step_posted hpost hlive hcars hmanager hadm hcreator
  | passed now hlive hcars hmanager hadm hcreator =>
      exact h.step_passed hinv hord hlive hcars hmanager hadm hcreator
  | prepared i entry hprepare hfresh hlive hcars hmanager hadm hcreator =>
      exact h.step_prepared hinv hprepare hlive hcars hmanager hadm hcreator
  | kept hlive hcars hhand hadm hcreator =>
      obtain ⟨hentered, hcreated, htime, hprio, horder, hwaits⟩ := h
      rw [← hlive, ← hhand, ← hadm] at hentered
      rw [← hcreator] at hcreated
      rw [← hcars] at htime hprio
      rw [← hlive] at hprio horder
      rw [← hadm, ← hhand] at hwaits
      exact ⟨hentered, hcreated, htime, hprio, horder, hwaits⟩

/-- A car about to enter the queue is behind one that is in, unless it has the
higher priority or the earlier time. -/
theorem ahead_of_insert (hinv : Invariant s) (hA : (s.pc A).inserted = true)
    (hB : s.pc B = .insert) (hprio : (s.cars B).priority ≤ (s.cars A).priority)
    (htime : (s.cars A).enter_time ≤ (s.cars B).enter_time) : Ahead A B s := by
  have hplaceA := hinv.place A
  have hplaceB := hinv.place B
  rw [hA, Bool.toNat_true] at hplaceA
  rw [hB] at hplaceB
  have hnone : s.pq.live.count B + s.manager.hand B + s.admissions B = 0 := hplaceB
  have hnot : B ∉ s.pq.live := fun hmem => by
    have := List.count_pos_iff.mpr hmem
    omega
  refine ⟨by omega, ?_, htime, fun _ => hprio, fun _ hmem => absurd hmem hnot,
    fun _ => ⟨by omega, by omega⟩⟩
  refine Nat.lt_of_lt_of_le (Nat.lt_of_not_le fun hle => ?_) s.creator.next_le_prepared
  rw [(hinv.born B).mpr hle] at hB
  cases hB

/-- **WHO IS AHEAD IS ADMITTED FIRST.**  Car `A` has entered the queue when `B`
is about to, and `B` has neither a higher priority than `A` has then nor an
earlier time.  However the program goes on, `B` is not admitted before `A`. -/
theorem admitted_in_order (h : Reachable s) (hA : (s.pc A).inserted = true)
    (hB : s.pc B = .insert) (hprio : (s.cars B).priority ≤ (s.cars A).priority)
    (htime : (s.cars A).enter_time ≤ (s.cars B).enter_time) (hrun : Reaches step s s')
    (hadmitted : 0 < s'.admissions B) : s'.admissions A = 1 := by
  have hall : Invariant s' ∧ Ordered s' ∧ Ahead A B s' :=
    hrun.invariant (I := fun s => Invariant s ∧ Ordered s ∧ Ahead A B s)
      ⟨h.invariant, h.ordered, ahead_of_insert h.invariant hA hB hprio htime⟩
      (fun _ _ _ hs hstep =>
        have heffect := step_queueEffect hs.1 hstep
        ⟨hs.1.step hstep, hs.2.1.step hs.1 heffect, hs.2.2.step hs.1 hs.2.1 heffect⟩)
  obtain ⟨hinv, -, hahead⟩ := hall
  have hle := Nat.le_trans (hinv.admissions_le A) (Bool.toNat_le _)
  by_contra hne
  have := (hahead.waits (by omega)).1
  omega

end ahead

/-- Two cars, and one of everything. -/
def twoCars : Config := ⟨2, 1, 1, 1, 1, 1, 1, 1, 1⟩

def carA : Fin twoCars.K_CARS := (⟨0, Nat.two_pos⟩ : Fin 2)

def carB : Fin twoCars.K_CARS := (⟨1, Nat.one_lt_two⟩ : Fin 2)

def twoStart : State twoCars := State.start (fun _ => ⟨0, 0, 0⟩) #v[carA, carA]

/-- Both are created in the same second; the first enters the queue. -/
def firstEnters : List (Action twoCars.K_CARS) :=
  List.replicate 3 (Action.main true) ++ List.replicate 6 (Action.creator false 100 true) ++
    [Action.car carA]

/-- Then the second, and the manager works while the first is served. -/
def secondFollows : List (Action twoCars.K_CARS) :=
  [Action.car carB] ++ List.replicate 4 Action.manager ++
    List.replicate 27 (Action.car carA) ++ List.replicate 4 Action.manager

theorem admitted_in_order_two :
    ∃ s s' : State twoCars, s.pc carB = .insert ∧ 0 < s'.admissions carB ∧
      s'.admissions carA = 1 :=
  have hrun : ∃ s, Reaches step twoStart s ∧
      ((s.pc carA).inserted, s.pc carB, decide ((s.cars carB).priority ≤ (s.cars carA).priority),
        decide ((s.cars carA).enter_time ≤ (s.cars carB).enter_time),
        (runActions step s secondFollows).map fun s' => s'.admissions carB)
          = (true, CarPc.insert, true, true, some 1) :=
    exists_reaches firstEnters (fun s : State twoCars =>
      ((s.pc carA).inserted, s.pc carB, decide ((s.cars carB).priority ≤ (s.cars carA).priority),
        decide ((s.cars carA).enter_time ≤ (s.cars carB).enter_time),
        (runActions step s secondFollows).map fun s' => s'.admissions carB))
      (by decide +kernel)
  hrun.elim fun s hs => by
    obtain ⟨hreach, hfacts⟩ := hs
    simp only [Prod.mk.injEq, decide_eq_true_eq] at hfacts
    obtain ⟨hA, hB, hprio, htime, hlater⟩ := hfacts
    obtain ⟨s', hs', hadm⟩ := Option.map_eq_some_iff.mp hlater
    have hpos : 0 < s'.admissions carB := by rw [hadm]; exact Nat.one_pos
    exact ⟨s, s', hB, hpos, admitted_in_order ⟨_, _, hreach⟩ hA hB hprio htime
      (reaches_of_run secondFollows hs') hpos⟩

end ConcurrencyCrypto.Garage
