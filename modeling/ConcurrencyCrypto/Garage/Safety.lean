/-
  ConcurrencyCrypto.Garage.Safety
  ───────────────────────────────
  **WHAT NO INTERLEAVING CAN BREAK**: the capacity of the institute, the
  units of every semaphore, and the agreement of the queue with `queue_sem`.
  All of it is read off the invariant.
-/
import ConcurrencyCrypto.Garage.ServiceThreads

namespace ConcurrencyCrypto.Garage

open ConcurrencyCrypto.Library

variable {cfg : Config} {s : State cfg}

/-! ## §1. What a car holds. -/

/-- The car has posted `slots_sem`. -/
def CarPc.postedSlots (pc : CarPc) : Bool :=
  pc ∈ [.noMechanicPostDone, .noTesterPostDone, .postDone, .finished]

/-- The units car `i` holds: a slot from its admission to its post, and of
the other semaphores those of its label. -/
def State.heldBy (s : State cfg) (r : Resource) (i : Fin cfg.K_CARS) : Nat :=
  match r with
  | .slots_sem => if 0 < s.admissions i ∧ (s.pc i).postedSlots = false then 1 else 0
  | r => (s.pc i).units r

/-- The manager holds at most a slot. -/
def State.heldByManager (s : State cfg) : Resource → Nat := slotsOnly s.manager.slots

theorem slots_units (pc : CarPc) :
    pc.units .slots_sem = (pc.admitted && !pc.postedSlots).toNat ∧
      (pc.admitted = false → pc.postedSlots = false) := by
  cases pc <;> exact ⟨rfl, fun _ => by first | rfl | contradiction⟩

/-- A car is admitted at most once, and not before it is in the queue. -/
theorem Invariant.admissions_le (h : Invariant s) (i : Fin cfg.K_CARS) :
    s.admissions i ≤ (s.pc i).inserted.toNat := by
  have := h.place i
  omega

theorem Invariant.dones_le (h : Invariant s) (i : Fin cfg.K_CARS) : s.dones i ≤ 1 := by
  have := h.ended i
  have := Bool.toNat_le (s.pc i).ended
  omega

/-- The invariant counts what the cars hold. -/
theorem Invariant.carHolds_eq (h : Invariant s) (r : Resource) (i : Fin cfg.K_CARS) :
    s.carHolds r i = s.heldBy r i := by
  cases r with
  | slots_sem =>
      have hle := h.admissions_le i
      have hins := Bool.toNat_le (s.pc i).inserted
      have hadm := h.admission i
      obtain ⟨hslots, hposted⟩ := slots_units (s.pc i)
      show (s.pc i).units .slots_sem + s.sem i
        = if 0 < s.admissions i ∧ (s.pc i).postedSlots = false then 1 else 0
      rw [hslots]
      cases hcase : (s.pc i).admitted with
      | false =>
          -- the unit is in the car's own semaphore
          rw [hcase, Bool.toNat_false] at hadm
          rw [hposted hcase]
          show 0 + s.sem i = if 0 < s.admissions i ∧ false = false then 1 else 0
          simp only [and_true]
          split <;> omega
      | true =>
          -- the label says whether it is still held
          rw [hcase, Bool.toNat_true] at hadm
          have hsem : s.sem i = 0 := by omega
          rw [hadm, hsem]
          cases (s.pc i).postedSlots <;> rfl
  | _ => rfl

theorem Invariant.conserved (h : Invariant s) (r : Resource) :
    Conserved (s.resource r + s.heldByManager r) (s.heldBy r) (cfg.units r) := by
  have hunits := h.units r
  rw [funext (h.carHolds_eq r)] at hunits
  exact hunits

/-! ## §2. The end of main. -/

/-- Main has passed its last wait. -/
theorem waits_of_closed (hmain : s.main = .close ∨ s.main = .returned 0) :
    s.main.waits cfg.K_CARS = cfg.K_CARS := by
  rcases hmain with hmain | hmain <;> rw [hmain] <;> rfl

/-- **Main waits for every car**: `K_CARS` posts came from `K_CARS` cars. -/
theorem Invariant.all_ended (h : Invariant s)
    (hmain : s.main = .close ∨ s.main = .returned 0) (i : Fin cfg.K_CARS) :
    (s.pc i).ended = true := by
  have hdone := h.done
  rw [waits_of_closed hmain] at hdone
  have hended := h.ended i
  have hpos : 0 < s.dones i := by
    by_contra hzero
    -- without a post from car `i` there are fewer than `K_CARS`
    have hlt : ∑ j, s.dones j < ∑ _j : Fin cfg.K_CARS, 1 :=
      Finset.sum_lt_sum (fun j _ => h.dones_le j) ⟨i, Finset.mem_univ i, by omega⟩
    rw [Finset.sum_const, Finset.card_univ, Fintype.card_fin, smul_eq_mul, mul_one] at hlt
    omega
  cases hcase : (s.pc i).ended with
  | true => rfl
  | false =>
      rw [hcase, Bool.toNat_false] at hended
      omega

theorem CarPc.ended_labels {pc : CarPc} (h : pc.ended = true) :
    (pc = .failed ∨ pc = .finished) ∧ pc.inserted = pc.admitted ∧ ∀ r, pc.units r = 0 := by
  cases pc <;> first | exact absurd h Bool.false_ne_true | skip
  · exact ⟨Or.inl rfl, rfl, fun r => by cases r <;> rfl⟩
  · exact ⟨Or.inr rfl, rfl, fun r => by cases r <;> rfl⟩

/-- A car that has ended is nowhere. -/
theorem Invariant.ended_gone (h : Invariant s) {i : Fin cfg.K_CARS}
    (hend : (s.pc i).ended = true) :
    i ∉ s.pq.live ∧ s.manager.hand i = 0 ∧ s.sem i = 0 := by
  have hplace := h.place i
  have hadm := h.admission i
  rw [(CarPc.ended_labels hend).2.1] at hplace
  refine ⟨?_, by omega, by omega⟩
  intro hmem
  have := List.count_pos_iff.mpr hmem
  omega

theorem Invariant.ended_holds (h : Invariant s) {i : Fin cfg.K_CARS}
    (hend : (s.pc i).ended = true) (r : Resource) : s.heldBy r i = 0 := by
  rw [← h.carHolds_eq]
  show (s.pc i).units r + slotsOnly (s.sem i) r = 0
  rw [(CarPc.ended_labels hend).2.2 r, (h.ended_gone hend).2.2]
  cases r <;> rfl

/-- With all cars gone the manager waits for the queue, or was never created. -/
theorem Invariant.manager_idle (h : Invariant s) (hend : ∀ i, (s.pc i).ended = true) :
    s.manager.slots = 0 := by
  have hlive : s.pq.live = [] :=
    List.eq_nil_iff_forall_not_mem.mpr fun i => (h.ended_gone (hend i)).1
  have hqueue := h.queue
  rw [hlive] at hqueue
  cases hm : s.manager with
  | pop =>
      -- its token would count a queued car
      rw [hm] at hqueue
      exact absurd hqueue (Nat.succ_ne_zero _)
  | post_car car =>
      have hhand := (h.ended_gone (hend car)).2.1
      rw [hm] at hhand
      simp [ManagerPc.hand] at hhand
  | return_slot => exact absurd hm h.no_return
  | _ => rfl

/-- **CAPACITY AND TOKENS.**  In every reachable state each semaphore and the
threads together have its initial units, so that no more than `N_CAPACITY`
cars are inside; a car gives `done_sem` at most one post; and when main has
passed its last wait, the cars are gone and all units are back. -/
theorem capacity_and_tokens (h : Reachable s) :
    (∀ r, s.resource r + s.heldByManager r + ∑ i, s.heldBy r i = cfg.units r) ∧
      ∑ i, s.heldBy .slots_sem i ≤ cfg.N_CAPACITY ∧
      (∀ i, s.dones i ≤ 1) ∧
      (s.main = .close ∨ s.main = .returned 0 →
        (∀ i, (s.pc i = .failed ∨ s.pc i = .finished) ∧ ∀ r, s.heldBy r i = 0) ∧
          ∀ r, s.resource r = cfg.units r) := by
  have hinv := h.invariant
  refine ⟨hinv.conserved, (hinv.conserved .slots_sem).held_le, hinv.dones_le,
    ?_⟩
  intro hmain
  have hend := hinv.all_ended hmain
  refine ⟨fun i => ⟨(CarPc.ended_labels (hend i)).1, hinv.ended_holds (hend i)⟩,
    ?_⟩
  intro r
  have htotal := (hinv.conserved r).eq_total fun i => hinv.ended_holds (hend i) r
  unfold State.heldByManager at htotal
  rw [hinv.manager_idle hend] at htotal
  rw [← htotal]
  cases r <;> rfl

/-- Two cars, two slots, two mechanics, and one of everything else. -/
def smallConfig : Config := ⟨2, 2, 2, 1, 1, 1, 1, 1, 1⟩

def smallCar : Fin smallConfig.K_CARS := ⟨0, Nat.two_pos⟩

def vipCar : Fin smallConfig.K_CARS := ⟨1, Nat.one_lt_two⟩

def smallStart : State smallConfig :=
  State.start (fun _ => ⟨0, 0, 0⟩) #v[smallCar, smallCar]

/-- Main creates its threads and the creator the two cars, which enter the
queue. -/
def smallArrival : List (Action smallConfig.K_CARS) :=
  [.main true, .main true, .main true] ++ List.replicate 3 (.creator false 100 true) ++
    List.replicate 3 (.creator true 101 true) ++ [.car smallCar, .car vipCar]

/-- The manager admits them, they go through the stations, the VIP first, and
main closes. -/
def smallDay : List (Action smallConfig.K_CARS) :=
  smallArrival ++ List.replicate 8 .manager ++
    (List.replicate 4 [.car vipCar, .car smallCar]).flatten ++
    List.replicate 23 (.car vipCar) ++ List.replicate 23 (.car smallCar) ++
    [.main true, .main true]

theorem capacity_and_tokens_small_day :
    ∃ s : State smallConfig, s.main = .close ∧
      (∀ r, s.resource r + s.heldByManager r + ∑ i, s.heldBy r i = smallConfig.units r) ∧
      ∑ i, s.heldBy .slots_sem i ≤ smallConfig.N_CAPACITY ∧
      (∀ i, s.dones i ≤ 1) ∧
      (s.main = .close ∨ s.main = .returned 0 →
        (∀ i, (s.pc i = .failed ∨ s.pc i = .finished) ∧ ∀ r, s.heldBy r i = 0) ∧
          ∀ r, s.resource r = smallConfig.units r) :=
  have hrun : ∃ s, Reaches step smallStart s ∧ s.main = .close :=
    exists_reaches smallDay State.main (by decide +kernel)
  hrun.elim fun s hs => ⟨s, hs.2, capacity_and_tokens ⟨_, _, hs.1⟩⟩

/-! ## §3. The queue and its semaphore. -/

/-- **No car is lost**: where a car is that has inserted itself. -/
theorem Invariant.somewhere (h : Invariant s) {i : Fin cfg.K_CARS}
    (hins : (s.pc i).inserted = true) :
    i ∈ s.pq.live ∨ s.manager = .post_car i ∨ s.admissions i = 1 := by
  have hplace := h.place i
  rw [hins, Bool.toNat_true] at hplace
  -- one of the three summands is 1
  by_cases hmem : i ∈ s.pq.live
  · exact Or.inl hmem
  · rw [List.count_eq_zero_of_not_mem hmem] at hplace
    cases hm : s.manager with
    | post_car car =>
        rw [hm] at hplace
        by_cases hcar : car = i
        · exact Or.inr (Or.inl (by rw [hcar]))
        · have hhand : (ManagerPc.post_car car).hand i = 0 := if_neg hcar
          exact Or.inr (Or.inr (by omega))
    | _ =>
        rw [hm] at hplace
        exact Or.inr (Or.inr (by simpa [ManagerPc.hand] using hplace))

/-- **THE QUEUE AND `queue_sem` NEVER DRIFT APART.**  In every reachable state
the manager pops a car and no insertion overflows; no car is queued twice,
admitted twice, admitted before its insertion, or lost.  What counts as an
admission is a post of the car's semaphore: its value and the car's own wait
add up to them. -/
theorem queue_semaphore_agree (h : Reachable s) :
    s.queue_sem + s.manager.token = s.pq.size ∧
      (s.manager = .pop → ∃ car pq', pq_pop s.pq = (some car, pq')) ∧
      s.manager ≠ .return_slot ∧
      (∀ i, s.pc i = .insert → ∃ pq', pq_insert s.cars s.pq i = .ok pq') ∧
      s.pq.live.Nodup ∧
      (∀ i, s.admissions i ≤ 1 ∧ (0 < s.admissions i → (s.pc i).inserted = true)) ∧
      (∀ i, (s.pc i).inserted = true →
        i ∈ s.pq.live ∨ s.manager = .post_car i ∨ s.admissions i = 1) ∧
      ∀ i, s.admissions i = s.sem i + (s.pc i).admitted.toNat := by
  have hinv := h.invariant
  refine ⟨?_, ?_, hinv.no_return, ?_, hinv.live_nodup, ?_,
    fun i => hinv.somewhere, hinv.admission⟩
  · rw [hinv.queue, PriorityQueue.length_live]
  · intro hm
    obtain ⟨car, pq', hpop, -⟩ := hinv.pop_some hm
    exact ⟨car, pq', hpop⟩
  · intro i hpc
    obtain ⟨pq', hok, -⟩ := pq_insert_of_lt s.cars s.pq i (hinv.room hpc)
    exact ⟨pq', hok⟩
  · intro i
    have hle := hinv.admissions_le i
    refine ⟨Nat.le_trans hle (Bool.toNat_le _), ?_⟩
    intro hpos
    exact Bool.toNat_eq_one.mp (Nat.le_antisymm (Bool.toNat_le _) (Nat.lt_of_lt_of_le hpos hle))

/-- The manager is about to pop one of two cars. -/
theorem queue_semaphore_agree_at_pop :
    ∃ s : State smallConfig, s.manager = .pop ∧ s.pq.size = 2 ∧
      s.queue_sem + s.manager.token = s.pq.size ∧
      (s.manager = .pop → ∃ car pq', pq_pop s.pq = (some car, pq')) ∧
      s.manager ≠ .return_slot ∧
      (∀ i, s.pc i = .insert → ∃ pq', pq_insert s.cars s.pq i = .ok pq') ∧
      s.pq.live.Nodup ∧
      (∀ i, s.admissions i ≤ 1 ∧ (0 < s.admissions i → (s.pc i).inserted = true)) ∧
      (∀ i, (s.pc i).inserted = true →
        i ∈ s.pq.live ∨ s.manager = .post_car i ∨ s.admissions i = 1) ∧
      ∀ i, s.admissions i = s.sem i + (s.pc i).admitted.toNat := by
  have hrun : ∃ s, Reaches step smallStart s ∧ (s.manager, s.pq.size) = (.pop, 2) :=
    exists_reaches (smallArrival ++ [.manager, .manager])
      (fun s : State smallConfig => (s.manager, s.pq.size)) (by decide +kernel)
  obtain ⟨s, hs, hpop⟩ := hrun
  obtain ⟨hmanager, hsize⟩ := Prod.mk.inj hpop
  exact ⟨s, hmanager, hsize, queue_semaphore_agree ⟨_, _, hs⟩⟩

end ConcurrencyCrypto.Garage
