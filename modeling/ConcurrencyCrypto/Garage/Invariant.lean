/-
  ConcurrencyCrypto.Garage.Invariant
  ──────────────────────────────────
  **THE INVARIANT OF THE SERVICE CENTER.**

  Where the units of each semaphore are, where each car is, who still owes a
  post to `done_sem`, and how far main and the creator have come.  Every
  clause is a sum or a count over the labels of the listing, so that a step
  of a car is judged by its effect on them alone.
-/
import ConcurrencyCrypto.Garage.CarThread
import ConcurrencyCrypto.Library.Tokens

namespace ConcurrencyCrypto.Garage

open ConcurrencyCrypto.Library

/-! ## §1. The invariant. -/

/-- The manager has taken a token of `queue_sem` and not yet popped. -/
def ManagerPc.token {K : Nat} : ManagerPc K → Nat
  | .wait_slots | .pop => 1
  | _ => 0

/-- The manager has taken a slot and not yet handed it on or returned it. -/
def ManagerPc.slots {K : Nat} : ManagerPc K → Nat
  | .pop | .post_car _ | .return_slot => 1
  | _ => 0

/-- The manager has popped car `i` and not yet admitted it. -/
def ManagerPc.hand {K : Nat} : ManagerPc K → Fin K → Nat
  | .post_car car, i => if car = i then 1 else 0
  | _, _ => 0

/-- The number of cars whose creation was tried. -/
def CreatorPc.next {K : Nat} : CreatorPc K → Nat
  | .unborn => 0
  | .prepare i | .create i => i.val
  | .post_done i | .sleep i => i.val + 1
  | .finished => K

/-- The creator has yet to post `done_sem` for car `i`. -/
def CreatorPc.owes {K : Nat} : CreatorPc K → Fin K → Nat
  | .post_done j, i => if j = i then 1 else 0
  | _, _ => 0

/-- Main has not created the creator. -/
def MainPc.first : MainPc → Bool
  | .create_creator => true
  | .returned code => code != 0
  | _ => false

/-- Main has not created the manager. -/
def MainPc.early : MainPc → Bool
  | .create_creator | .create_monitor | .create_manager => true
  | .returned code => code != 0
  | _ => false

/-- The waits on `done_sem` that main has passed. -/
def MainPc.waits (K : Nat) : MainPc → Nat
  | .wait_done n => n
  | .close => K
  | .returned code => if code = 0 then K else 0
  | _ => 0

/-- `n` units of `slots_sem`, none of the others. -/
def slotsOnly (n : Nat) : Resource → Nat
  | .slots_sem => n
  | _ => 0

variable {cfg : Config}

/-- The units car `i` has: those of its label, and a slot once its semaphore
is posted. -/
def State.carHolds (s : State cfg) (r : Resource) (i : Fin cfg.K_CARS) : Nat :=
  (s.pc i).units r + slotsOnly (s.sem i) r

/-- **The invariant.** -/
structure Invariant (s : State cfg) : Prop where
  units : ∀ r, Conserved (s.resource r + slotsOnly s.manager.slots r) (s.carHolds r)
    (cfg.units r)
  queue : s.queue_sem + s.manager.token = s.pq.live.length
  place : ∀ i, s.pq.live.count i + s.manager.hand i + s.admissions i
    = (s.pc i).inserted.toNat
  admission : ∀ i, s.admissions i = s.sem i + (s.pc i).admitted.toNat
  ended : ∀ i, s.dones i + s.creator.owes i = (s.pc i).ended.toNat
  done : s.done_sem + s.main.waits cfg.K_CARS = ∑ i, s.dones i
  waits_lt : ∀ n, s.main = .wait_done n → n < cfg.K_CARS
  born : ∀ i : Fin cfg.K_CARS, s.pc i = .unborn ↔ s.creator.next ≤ i.val
  creator_first : s.main = .create_creator → s.creator = .unborn
  creator_unborn : s.creator = .unborn → s.main.first = true
  manager_early : s.manager = .unborn ↔ s.main.early = true
  no_return : s.manager ≠ .return_slot

theorem invariant_start (cars : Heap (Fin cfg.K_CARS))
    (array : Vector (Fin cfg.K_CARS) cfg.K_CARS) :
    Invariant (State.start cars array : State cfg) where
  units r := by
    cases r <;> simp [Conserved, State.start, State.carHolds, slotsOnly, ManagerPc.slots,
      CarPc.units, CarPc.holds]
  queue := rfl
  place i := rfl
  admission i := rfl
  ended i := rfl
  done := by simp [State.start, MainPc.waits]
  waits_lt n h := by cases h
  born i := ⟨fun _ => Nat.zero_le _, fun _ => rfl⟩
  creator_first _ := rfl
  creator_unborn _ := rfl
  manager_early := ⟨fun _ => rfl, fun _ => rfl⟩
  no_return := nofun

/-! ## §2. Steps of the cars. -/

section car
variable {s s' : State cfg} {i : Fin cfg.K_CARS}

/-- What a new label of car `i` has in common with the old one, no car loses. -/
theorem label_update {β : Type} (f : CarPc → β) {pc : Fin cfg.K_CARS → CarPc} {pc' : CarPc}
    (h : f pc' = f (pc i)) (j : Fin cfg.K_CARS) : f (Function.update pc i pc' j) = f (pc j) := by
  by_cases hj : j = i
  · rw [hj, Function.update_self, h]
  · rw [Function.update_of_ne hj]

section frame
variable (h : Invariant s) {pc' : CarPc}
include h

/-! Clauses that a new label of car `i` leaves alone. -/

theorem Invariant.place_frame (hpc : pc'.inserted = (s.pc i).inserted) (j : Fin cfg.K_CARS) :
    s.pq.live.count j + s.manager.hand j + s.admissions j
      = (Function.update s.pc i pc' j).inserted.toNat := by
  rw [label_update CarPc.inserted hpc]
  exact h.place j

theorem Invariant.admission_frame (hpc : pc'.admitted = (s.pc i).admitted)
    (j : Fin cfg.K_CARS) :
    s.admissions j = s.sem j + (Function.update s.pc i pc' j).admitted.toNat := by
  rw [label_update CarPc.admitted hpc]
  exact h.admission j

theorem Invariant.ended_frame (hpc : pc'.ended = (s.pc i).ended) (j : Fin cfg.K_CARS) :
    s.dones j + s.creator.owes j = (Function.update s.pc i pc' j).ended.toNat := by
  rw [label_update CarPc.ended hpc]
  exact h.ended j

theorem Invariant.born_frame (hold : s.pc i ≠ .unborn) (hnew : pc' ≠ .unborn)
    (j : Fin cfg.K_CARS) :
    Function.update s.pc i pc' j = .unborn ↔ s.creator.next ≤ j.val := by
  rw [← h.born j]
  exact iff_of_eq (label_update (· = .unborn) (by simp [hold, hnew]) j)

/-- Units move between the semaphores and the hands of car `i`. -/
theorem Invariant.units_served {resource' : Resource → Nat}
    (hunits : ∀ r, resource' r + pc'.units r = s.resource r + (s.pc i).units r)
    (r : Resource) :
    Conserved (resource' r + slotsOnly s.manager.slots r)
      (fun j => (Function.update s.pc i pc' j).units r + slotsOnly (s.sem j) r)
      (cfg.units r) := by
  refine (h.units r).move i ?_ ?_
  · intro j hj
    rw [Function.update_of_ne hj]
    rfl
  · rw [Function.update_self]
    have := hunits r
    unfold State.carHolds
    omega

end frame

/-- A queued car is queued once. -/
theorem Invariant.live_nodup (h : Invariant s) : s.pq.live.Nodup := by
  rw [List.nodup_iff_count_le_one]
  intro i
  have := h.place i
  have := Bool.toNat_le (s.pc i).inserted
  omega

/-- **The queue has room** for a car that has not been inserted. -/
theorem Invariant.room (h : Invariant s) (hpc : s.pc i = .insert) :
    s.pq.size < cfg.K_CARS := by
  have hplace := h.place i
  rw [hpc] at hplace
  have hnot : i ∉ s.pq.live := by
    intro hmem
    have := List.count_pos_iff.mpr hmem
    simp [CarPc.inserted] at hplace
    omega
  have hcard := (List.nodup_cons.mpr ⟨hnot, h.live_nodup⟩).length_le_card
  rw [Fintype.card_fin, List.length_cons, PriorityQueue.length_live] at hcard
  exact hcard

theorem Invariant.car_inserted (h : Invariant s)
    {pq' : PriorityQueue (Fin cfg.K_CARS) cfg.K_CARS} (hpc : s.pc i = .insert)
    (hpq : pq_insert s.cars s.pq i = .ok pq') :
    Invariant { s with
      pq := pq', queue_sem := s.queue_sem + 1
      pc := Function.update s.pc i .waitAdmission } := by
  have hperm := insertEnd_perm (comesBefore s.cars) i s.pq.live
  rw [← live_of_pq_insert hpq] at hperm
  refine { h with
    units := h.units_served (by rw [hpc]; intro r; cases r <;> rfl)
    queue := ?_, place := ?_
    admission := h.admission_frame (by rw [hpc]; rfl)
    ended := h.ended_frame (by rw [hpc]; rfl)
    born := h.born_frame (by rw [hpc]; exact nofun) nofun }
  · show s.queue_sem + 1 + s.manager.token = pq'.live.length
    rw [hperm.length_eq, List.length_cons, ← h.queue]
    omega
  · intro j
    show pq'.live.count j + s.manager.hand j + s.admissions j = _
    rw [hperm.count_eq, List.count_cons]
    have hplace := h.place j
    by_cases hj : j = i
    · subst hj
      rw [hpc] at hplace
      simp [CarPc.inserted] at hplace ⊢
      omega
    · simp only [Function.update_of_ne hj]
      rw [if_neg (by simpa using fun hc => hj hc.symm)]
      exact hplace

theorem Invariant.car_admitted (h : Invariant s) (hpc : s.pc i = .waitAdmission)
    (hsem : 0 < s.sem i) :
    Invariant { s with
      sem := Function.update s.sem i (s.sem i - 1)
      pc := Function.update s.pc i .printArrived } := by
  refine { h with
    units := ?_, admission := ?_
    place := h.place_frame (by rw [hpc]; rfl)
    ended := h.ended_frame (by rw [hpc]; rfl)
    born := h.born_frame (by rw [hpc]; exact nofun) nofun }
  · -- the posted unit becomes the unit of the label
    intro r
    refine (h.units r).move i ?_ ?_
    · intro j hj
      simp [State.carHolds, hj]
    · simp only [State.carHolds, Function.update_self, hpc]
      cases r with
      | slots_sem =>
          show _ + (1 + (s.sem i - 1)) = _ + (0 + s.sem i)
          omega
      | _ => rfl
  · intro j
    show s.admissions j = Function.update s.sem i (s.sem i - 1) j
      + (Function.update s.pc i .printArrived j).admitted.toNat
    have hadm := h.admission j
    by_cases hj : j = i
    · subst hj
      rw [hpc] at hadm
      simp [CarPc.admitted] at hadm ⊢
      omega
    · rw [Function.update_of_ne hj, Function.update_of_ne hj]
      exact hadm

theorem Invariant.car_served (h : Invariant s) {resource' : Resource → Nat} {pc' : CarPc}
    (ma : Vector Bool cfg.MECHANIC) (mm : Fin cfg.K_CARS → Option (Fin cfg.MECHANIC))
    (ta : Vector Bool cfg.TESTER) (mt : Fin cfg.K_CARS → Option (Fin cfg.TESTER))
    (hin : (s.pc i).inside = true) (hin' : pc'.inside = true)
    (hunits : ∀ r, resource' r + pc'.units r = s.resource r + (s.pc i).units r) :
    Invariant { s with
      resource := resource', mechanic_available := ma, my_mechanic := mm
      tester_available := ta, my_tester := mt, pc := Function.update s.pc i pc' } := by
  obtain ⟨hins, hadm, hend, hborn⟩ := CarPc.inside_labels hin
  obtain ⟨hins', hadm', hend', hborn'⟩ := CarPc.inside_labels hin'
  exact { h with
    units := h.units_served hunits
    place := h.place_frame (by rw [hins, hins'])
    admission := h.admission_frame (by rw [hadm, hadm'])
    ended := h.ended_frame (by rw [hend, hend'])
    born := h.born_frame hborn hborn' }

theorem Invariant.car_done (h : Invariant s) (hin : (s.pc i).inside = true)
    (hunits : ∀ r, (s.pc i).units r = 0) :
    Invariant { s with
      done_sem := s.done_sem + 1
      dones := Function.update s.dones i (s.dones i + 1)
      pc := Function.update s.pc i .finished } := by
  obtain ⟨hins, hadm, hend, hborn⟩ := CarPc.inside_labels hin
  refine { h with
    units := h.units_served (by intro r; rw [hunits]; cases r <;> rfl)
    ended := ?_, done := ?_
    place := h.place_frame (by rw [hins]; rfl)
    admission := h.admission_frame (by rw [hadm]; rfl)
    born := h.born_frame hborn nofun }
  · intro j
    show Function.update s.dones i (s.dones i + 1) j + _
      = (Function.update s.pc i .finished j).ended.toNat
    have hended := h.ended j
    by_cases hj : j = i
    · subst hj
      rw [hend] at hended
      simp [CarPc.ended] at hended ⊢
      omega
    · rw [Function.update_of_ne hj, Function.update_of_ne hj]
      exact hended
  · show s.done_sem + 1 + s.main.waits cfg.K_CARS
      = ∑ j, Function.update s.dones i (s.dones i + 1) j
    rw [sum_update_succ, ← h.done]
    omega

/-- **Every step of a car keeps the invariant.** -/
theorem Invariant.car (h : Invariant s) (hstep : carStep s i = some s') : Invariant s' := by
  cases carStep_effect hstep with
  | inserted pq' hpc hpq hs' =>
      rw [hs']
      exact h.car_inserted hpc hpq
  | overflow msg hpc hpq =>
      obtain ⟨pq', hok, -⟩ := pq_insert_of_lt s.cars s.pq i (h.room hpc)
      rw [hpq] at hok
      cases hok
  | admitted hpc hsem hs' =>
      rw [hs']
      exact h.car_admitted hpc hsem
  | served resource' pc' ma mm ta mt hin hin' hunits hs' =>
      rw [hs']
      exact h.car_served ma mm ta mt hin hin' hunits
  | done hin hunits hs' =>
      rw [hs']
      exact h.car_done hin hunits

end car

end ConcurrencyCrypto.Garage
