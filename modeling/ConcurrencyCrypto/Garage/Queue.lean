/-
  ConcurrencyCrypto.Garage.Queue
  ──────────────────────────────
  `queue.c`, and the pass that `monitor_thread` makes over the queue.

  The queue is an array of pointers; what a pointer means is looked up in a
  heap, because the monitor changes the priority of a queued car in place.
  Each operation comes with the one lemma that says what it does to the list
  of queued cars (`live`): insertion is `insertEnd`, sorting is `sortEnd`.
-/
import ConcurrencyCrypto.Library.InsertionSort
import ConcurrencyCrypto.Library.Loops

namespace ConcurrencyCrypto.Garage

open ConcurrencyCrypto.Library

/-! ## §1. Data. -/

/-- `car_entry`, apart from its semaphore and its pointer to the queue. -/
structure CarEntry where
  car_id : Int
  priority : Int
  enter_time : Int
  deriving DecidableEq, Repr

/-- What the pointers point to. -/
abbrev Heap (ρ : Type) := ρ → CarEntry

/-- `priority_queue` for `K` cars: of the array only `cars[0 … size-1]` counts. -/
structure PriorityQueue (ρ : Type) (K : Nat) where
  size : Nat
  cars : Vector ρ K
  size_le : size ≤ K

variable {ρ : Type} {K : Nat}

namespace PriorityQueue

/-- `{ .size = 0 }`, whatever the array holds. -/
def empty (cars : Vector ρ K) : PriorityQueue ρ K := ⟨0, cars, Nat.zero_le K⟩

/-- The queued cars, in order. -/
def live (pq : PriorityQueue ρ K) : List ρ := pq.cars.toList.take pq.size

@[simp] theorem length_live (pq : PriorityQueue ρ K) : pq.live.length = pq.size := by
  have := pq.size_le
  simp [live]
  omega

end PriorityQueue

/-- The loop condition of `insertion_sort` and `pq_insert`: `key` must stand
in front of `other`. -/
def comesBefore (heap : Heap ρ) (key other : ρ) : Bool :=
  decide ((heap key).priority > (heap other).priority ∨
    ((heap key).priority = (heap other).priority ∧
      (heap key).enter_time < (heap other).enter_time))

/-! ## §2. The operations. -/

/-- `while (j >= 0 && …) { cars[j + 1] = cars[j]; j--; } cars[j + 1] = key;`
from `j = p - 1` on. -/
def slideInto (heap : Heap ρ) (key : ρ) :
    (p : Nat) → (cars : Vector ρ K) → p < K → Vector ρ K
  | 0, cars, h => cars.set 0 key
  | p + 1, cars, h =>
      if comesBefore heap key cars[p] then
        slideInto heap key p (cars.set (p + 1) cars[p]) (Nat.lt_of_succ_lt h)
      else cars.set (p + 1) key

/-- `insertion_sort(pq)`. -/
def insertion_sort (heap : Heap ρ) (pq : PriorityQueue ρ K) : PriorityQueue ρ K :=
  { pq with
    cars := Nat.fold (pq.size - 1)
      (fun i hi cars =>
        have h : i + 1 < K := by have := pq.size_le; omega
        slideInto heap cars[i + 1] (i + 1) cars h) pq.cars }

/-- The line `pq_insert` prints when the queue is full. -/
def overflowError (heap : Heap ρ) (car : ρ) : String :=
  "Error: priority queue overflow for car " ++ toString (heap car).car_id ++ "\n"

/-- `pq_insert(pq, car)`.  On the way with a result it also posts `queue_sem`. -/
def pq_insert (heap : Heap ρ) (pq : PriorityQueue ρ K) (car : ρ) :
    Except String (PriorityQueue ρ K) :=
  if h : pq.size ≥ K then .error (overflowError heap car)
  else .ok
    { size := pq.size + 1
      cars := slideInto heap car pq.size pq.cars (Nat.lt_of_not_le h)
      size_le := Nat.lt_of_not_le h }

/-- `pq_pop(pq)`: `none` for NULL. -/
def pq_pop (pq : PriorityQueue ρ K) : Option ρ × PriorityQueue ρ K :=
  if h : pq.size = 0 then (none, pq)
  else
    have hK : 0 < K := by have := pq.size_le; omega
    (some pq.cars[0],
      { size := pq.size - 1
        cars := Nat.fold (pq.size - 1)
          (fun i hi cars =>
            have h : i + 1 < K := by have := pq.size_le; omega
            cars.set i cars[i + 1]) pq.cars
        size_le := by have := pq.size_le; omega })

/-- `difftime`: the seconds between two readings of `time(NULL)`. -/
def difftime (t₁ t₀ : Int) : ℚ := (t₁ - t₀ : Int)

def WAIT_THRESHOLD : ℚ := 4 / 10

/-- `car->priority = 1`. -/
def CarEntry.promote (entry : CarEntry) : CarEntry := { entry with priority := 1 }

/-- The condition under which the monitor promotes a car. -/
def agingDue (now : Int) (entry : CarEntry) : Bool :=
  decide (entry.priority = 0 ∧ difftime now entry.enter_time ≥ WAIT_THRESHOLD)

/-- The scan of a monitor pass at clock reading `now`. -/
def agingScan [DecidableEq ρ] (now : Int) (pq : PriorityQueue ρ K) (heap : Heap ρ) :
    Heap ρ :=
  Nat.fold pq.size
    (fun i hi heap =>
      have h : i < K := by have := pq.size_le; omega
      if agingDue now (heap pq.cars[i]) then
        Function.update heap pq.cars[i] (heap pq.cars[i]).promote
      else heap) heap

/-- One pass of `monitor_thread` under `pq->mutex`: aging, then the sort. -/
def monitorPass [DecidableEq ρ] (now : Int) (pq : PriorityQueue ρ K) (heap : Heap ρ) :
    PriorityQueue ρ K × Heap ρ :=
  (insertion_sort (agingScan now pq heap) pq, agingScan now pq heap)

/-! ## §3. What they do to the list of queued cars. -/

theorem comesBefore_strictWeak (heap : Heap ρ) : StrictWeak (comesBefore heap) where
  asymm a b h := by
    simp only [comesBefore, decide_eq_true_eq, decide_eq_false_iff_not] at h ⊢
    omega
  trans a b c h₁ h₂ := by
    simp only [comesBefore, decide_eq_false_iff_not] at h₁ h₂ ⊢
    omega

theorem toList_set_eq (cars : Vector ρ K) (p : Nat) (key : ρ) (h : p < K) :
    (cars.set p key).toList = cars.toList.take p ++ key :: cars.toList.drop (p + 1) := by
  rw [Vector.toList_set, List.set_eq_take_append_cons_drop, if_pos]
  rw [Vector.length_toList]
  exact h

theorem take_succ_toList (cars : Vector ρ K) (p : Nat) (h : p < K) :
    cars.toList.take (p + 1) = cars.toList.take p ++ [cars[p]] := by
  rw [List.take_succ_eq_append_getElem (by rw [Vector.length_toList]; exact h),
    Vector.getElem_toList]

/-- **The shifting loop inserts the key into the cells in front of `p`** and
leaves the cells behind `p` alone. -/
theorem slideInto_toList (heap : Heap ρ) (key : ρ) (p : Nat) :
    ∀ (cars : Vector ρ K) (h : p < K),
      (slideInto heap key p cars h).toList
        = insertEnd (comesBefore heap) key (cars.toList.take p)
          ++ cars.toList.drop (p + 1) := by
  induction p with
  | zero =>
      intro cars h
      unfold slideInto
      rw [toList_set_eq, List.take_zero, insertEnd_nil]
      rfl
  | succ p ih =>
      intro cars h
      have hp : p < K := Nat.lt_of_succ_lt h
      unfold slideInto
      rw [take_succ_toList cars p hp]
      cases hbefore : comesBefore heap key cars[p] with
      | true =>
          -- the cell behind `p` now holds what stood at `p`
          rw [if_pos rfl, ih, insertEnd_concat_pos _ _ _ hbefore, toList_set_eq]
          have hlen : (cars.toList.take (p + 1)).length = p + 1 := by
            rw [List.length_take, Vector.length_toList]
            omega
          rw [List.take_append_of_le_length (by omega), List.take_take,
            Nat.min_eq_left (by omega), List.drop_left' hlen, List.append_assoc]
          rfl
      | false =>
          rw [if_neg Bool.false_ne_true, insertEnd_concat_neg _ _ _ hbefore, toList_set_eq,
            take_succ_toList cars p hp]
          simp

/-- **`pq_insert` inserts**, if there is room. -/
theorem pq_insert_of_lt (heap : Heap ρ) (pq : PriorityQueue ρ K) (car : ρ)
    (h : pq.size < K) :
    ∃ pq', pq_insert heap pq car = .ok pq' ∧
      pq'.live = insertEnd (comesBefore heap) car pq.live := by
  unfold pq_insert
  rw [dif_neg (Nat.not_le_of_lt h)]
  refine ⟨_, rfl, ?_⟩
  show (slideInto heap car pq.size pq.cars h).toList.take (pq.size + 1) = _
  rw [slideInto_toList]
  refine List.take_left' ?_
  rw [(insertEnd_perm _ _ _).length_eq, List.length_cons]
  exact congrArg (· + 1) pq.length_live

theorem live_of_pq_insert {heap : Heap ρ} {pq pq' : PriorityQueue ρ K} {car : ρ}
    (h : pq_insert heap pq car = .ok pq') :
    pq'.live = insertEnd (comesBefore heap) car pq.live := by
  by_cases hlt : pq.size < K
  · obtain ⟨pq'', hok, hlive⟩ := pq_insert_of_lt heap pq car hlt
    rw [h] at hok
    injection hok with hok
    rw [hok, hlive]
  · unfold pq_insert at h
    rw [dif_pos (Nat.le_of_not_lt hlt)] at h
    cases h

/-- A full queue is left alone. -/
theorem pq_insert_of_full (heap : Heap ρ) (pq : PriorityQueue ρ K) (car : ρ)
    (h : pq.size = K) : pq_insert heap pq car = .error (overflowError heap car) := by
  unfold pq_insert
  rw [dif_pos (Nat.le_of_eq h.symm)]

/-- **`insertion_sort` sorts the queued cars** and leaves the rest of the
array alone. -/
theorem insertion_sort_toList (heap : Heap ρ) (pq : PriorityQueue ρ K) :
    (insertion_sort heap pq).cars.toList
      = sortEnd (comesBefore heap) pq.live ++ pq.cars.toList.drop pq.size := by
  obtain ⟨size, cars, hsize⟩ := pq
  cases size with
  | zero => rfl
  | succ n =>
      have hlen : cars.toList.length = K := Vector.length_toList
      -- before iteration `i` the first `i + 1` cars are sorted
      refine fold_invariant
        (fun i (a : Vector ρ K) => a.toList
          = sortEnd (comesBefore heap) (cars.toList.take (i + 1)) ++ cars.toList.drop (i + 1))
        n _ cars ?_ ?_
      · show cars.toList = sortEnd (comesBefore heap) (cars.toList.take 1) ++ _
        rw [take_succ_toList cars 0 (by omega)]
        show cars.toList = [cars[0]] ++ cars.toList.drop 1
        have := List.take_append_drop 1 cars.toList
        rw [take_succ_toList cars 0 (by omega)] at this
        exact this.symm
      · intro i hi a ha
        have hiK : i + 1 < K := by omega
        have hsorted : (sortEnd (comesBefore heap) (cars.toList.take (i + 1))).length
            = i + 1 := by
          rw [length_sortEnd, List.length_take]
          omega
        have halen : a.toList.length = K := Vector.length_toList
        have hkey : a[i + 1] = cars[i + 1] := by
          rw [← Vector.getElem_toList (by omega), ← Vector.getElem_toList (by omega)]
          simp only [ha]
          rw [List.getElem_append_right (by omega), List.getElem_drop]
          simp only [hsorted, Nat.sub_self, Nat.add_zero]
        show (slideInto heap a[i + 1] (i + 1) a hiK).toList = _
        rw [slideInto_toList, ha, List.take_left' hsorted, hkey,
          take_succ_toList cars (i + 1) hiK, sortEnd_concat]
        congr 1
        rw [List.drop_append, hsorted, List.drop_eq_nil_of_le (by omega), List.nil_append,
          List.drop_drop]
        congr 1
        omega

@[simp] theorem insertion_sort_size (heap : Heap ρ) (pq : PriorityQueue ρ K) :
    (insertion_sort heap pq).size = pq.size := rfl

theorem insertion_sort_live (heap : Heap ρ) (pq : PriorityQueue ρ K) :
    (insertion_sort heap pq).live = sortEnd (comesBefore heap) pq.live := by
  have hlen : (sortEnd (comesBefore heap) pq.live).length = pq.size := by
    rw [length_sortEnd, PriorityQueue.length_live]
  unfold PriorityQueue.live at hlen ⊢
  rw [insertion_sort_toList, insertion_sort_size]
  exact List.take_left' hlen

/-- `pq->cars[pq->size] = car; pq->size++`, with no shifting. -/
def PriorityQueue.append (pq : PriorityQueue ρ K) (car : ρ) (h : pq.size < K) :
    PriorityQueue ρ K where
  size := pq.size + 1
  cars := pq.cars.set pq.size car h
  size_le := h

theorem PriorityQueue.live_append (pq : PriorityQueue ρ K) (car : ρ) (h : pq.size < K) :
    (pq.append car h).live = pq.live ++ [car] := by
  show (pq.cars.set pq.size car h).toList.take (pq.size + 1) = _
  have htake : (pq.cars.toList.take pq.size).length = pq.size := pq.length_live
  rw [toList_set_eq, List.take_append, htake, Nat.add_sub_cancel_left]
  simp [PriorityQueue.live]

/-- **THE TWO SHIFTING LOOPS AGREE.**  `insertion_sort` is the stable sort by
descending priority, then ascending `enter_time`: sorted, a permutation, and
the cars of equal keys stand in their old order; it leaves the cells beyond
`size` alone.  On a sorted queue with room `pq_insert` leaves the array that
appending the car and sorting leaves. -/
theorem insertion_agrees_with_sort (heap : Heap ρ) (pq : PriorityQueue ρ K) :
    ((insertion_sort heap pq).live.Pairwise (fun a b =>
      (heap a).priority > (heap b).priority ∨
        ((heap a).priority = (heap b).priority ∧
          (heap a).enter_time ≤ (heap b).enter_time))) ∧
    (insertion_sort heap pq).live.Perm pq.live ∧
    (∀ priority enter_time,
      (insertion_sort heap pq).live.filter (fun a =>
          decide ((heap a).priority = priority ∧ (heap a).enter_time = enter_time))
        = pq.live.filter (fun a =>
          decide ((heap a).priority = priority ∧ (heap a).enter_time = enter_time))) ∧
    (insertion_sort heap pq).size = pq.size ∧
    (insertion_sort heap pq).cars.toList.drop pq.size = pq.cars.toList.drop pq.size ∧
    (∀ (car : ρ) (room : pq.size < K), SortedBy (comesBefore heap) pq.live →
      pq_insert heap pq car = .ok (insertion_sort heap (pq.append car room))) := by
  have hlen : (sortEnd (comesBefore heap) pq.live).length = pq.size := by
    rw [length_sortEnd, PriorityQueue.length_live]
  rw [insertion_sort_live]
  refine ⟨?_, sortEnd_perm _ _, ?_, rfl, ?_, ?_⟩
  · refine (sortEnd_sorted (comesBefore_strictWeak heap)).imp (fun {a b} hab => ?_)
    simp only [comesBefore, decide_eq_false_iff_not] at hab
    omega
  · intro priority enter_time
    refine sortEnd_filter _ (fun x y hx hy => ?_)
    simp only [decide_eq_true_eq] at hx hy
    simp only [comesBefore, decide_eq_false_iff_not]
    omega
  · rw [insertion_sort_toList, List.drop_left' hlen]
  · intro car room hsorted
    unfold pq_insert
    rw [dif_neg (Nat.not_le_of_lt room)]
    -- both arrays hold the car inserted among the others, and the old cells behind
    have hcars : slideInto heap car pq.size pq.cars room
        = (insertion_sort heap (pq.append car room)).cars := by
      apply Vector.toList_inj.mp
      rw [slideInto_toList, insertion_sort_toList, PriorityQueue.live_append, sortEnd_concat,
        sortEnd_of_sorted hsorted]
      show _ = _ ++ (pq.cars.set pq.size car room).toList.drop (pq.size + 1)
      rw [Vector.toList_set, List.drop_set_of_lt (Nat.lt_succ_self pq.size)]
      rfl
    unfold insertion_sort at hcars ⊢
    rw [hcars]
    rfl

/-- A third car comes in between two, the last cell being free. -/
theorem insertion_agrees_with_sort_three :
    pq_insert (fun p => ⟨p.val, if p = 1 then 0 else 1, 100⟩) ⟨2, #v[2, 1, 1, 0], by decide⟩ 0
      = .ok (insertion_sort (fun p : Fin 3 => ⟨p.val, if p = 1 then 0 else 1, 100⟩)
        (PriorityQueue.append ⟨2, #v[2, 1, 1, 0], by decide⟩ 0 (by decide))) :=
  (insertion_agrees_with_sort (fun p : Fin 3 => ⟨p.val, if p = 1 then 0 else 1, 100⟩)
    (⟨2, #v[2, 1, 1, 0], by decide⟩ : PriorityQueue (Fin 3) 4)).2.2.2.2.2 0 (by decide)
    (by unfold SortedBy; decide)

/-- The loop of `pq_pop` shifts the first `n` cells. -/
theorem shiftDown_getElem (n : Nat) (hn : n < K) (cars : Vector ρ K) (j : Nat) (hj : j < K) :
    (Nat.fold n (fun i hi (a : Vector ρ K) =>
        have h : i + 1 < K := by omega
        a.set i a[i + 1]) cars)[j]
      = if h : j < n then cars[j + 1] else cars[j] := by
  refine fold_invariant
    (fun i (a : Vector ρ K) => ∀ j (hj : j < K),
      a[j] = if h : j < i ∧ j + 1 < K then cars[j + 1] else cars[j])
    n _ cars ?_ ?_ j hj |>.trans ?_
  · intro j hj
    rw [dif_neg (by omega)]
  · intro i hi a ha j hj
    rw [Vector.getElem_set, ha, ha]
    by_cases hij : i = j
    · subst hij
      rw [if_pos rfl, dif_neg (by omega), dif_pos (by omega)]
    · rw [if_neg hij]
      by_cases hlt : j < i ∧ j + 1 < K
      · rw [dif_pos hlt, dif_pos (by omega)]
      · rw [dif_neg hlt, dif_neg (by omega)]
  · by_cases hlt : j < n
    · rw [dif_pos hlt, dif_pos (by omega)]
    · rw [dif_neg hlt, dif_neg (by omega)]

/-- **`pq_pop` takes the first car.** -/
theorem pq_pop_live (pq : PriorityQueue ρ K) :
    (pq.live = [] ∧ pq_pop pq = (none, pq)) ∨
      ∃ car pq', pq_pop pq = (some car, pq') ∧ pq.live = car :: pq'.live := by
  obtain ⟨size, cars, hsize⟩ := pq
  cases size with
  | zero => exact Or.inl ⟨rfl, rfl⟩
  | succ n =>
      right
      refine ⟨_, _, rfl, ?_⟩
      unfold PriorityQueue.live
      apply List.ext_getElem
      · simp
        omega
      · intro j h₁ h₂
        simp only [List.length_take, Vector.length_toList] at h₁
        cases j with
        | zero => simp
        | succ j =>
            rw [List.getElem_cons_succ, List.getElem_take, List.getElem_take,
              Vector.getElem_toList, Vector.getElem_toList]
            have hshift := shiftDown_getElem n hsize cars j (by omega)
            rw [dif_pos (by omega)] at hshift
            exact hshift.symm

/-! ## §4. Aging. -/

theorem agingDue_promote (now : Int) (entry : CarEntry) :
    agingDue now entry.promote = false := by
  simp [agingDue, CarEntry.promote]

/-- Who entered no later has waited at least as long. -/
theorem difftime_anti {t t' : Int} (now : Int) (h : t ≤ t') :
    difftime now t' ≤ difftime now t := by
  unfold difftime
  exact Int.cast_le.mpr (by omega)

/-- **The scan promotes exactly the queued cars that are due.** -/
theorem agingScan_apply [DecidableEq ρ] (now : Int) (pq : PriorityQueue ρ K) (heap : Heap ρ)
    (p : ρ) :
    agingScan now pq heap p
      = if p ∈ pq.live ∧ agingDue now (heap p) = true then (heap p).promote
        else heap p := by
  have hK := pq.size_le
  have hinv := fold_invariant
    (fun i (h : Heap ρ) => ∀ q, h q
      = if q ∈ pq.cars.toList.take i ∧ agingDue now (heap q) = true
        then (heap q).promote else heap q)
    pq.size
    (fun i hi heap =>
      have h : i < K := by omega
      if agingDue now (heap pq.cars[i]) then
        Function.update heap pq.cars[i] (heap pq.cars[i]).promote
      else heap) heap ?_ ?_
  · exact hinv p
  · intro q
    simp
  · intro i hi h hh q
    have hiK : i < K := by omega
    have hq := hh q
    simp only [take_succ_toList pq.cars i hiK, List.mem_append, List.mem_singleton]
    by_cases hqc : q = pq.cars[i]
    · rw [← hqc]
      by_cases hdue : agingDue now (heap q) = true
      · refine Eq.trans ?_ (if_pos ⟨Or.inr rfl, hdue⟩).symm
        by_cases hmem : q ∈ pq.cars.toList.take i
        · -- promoted at an earlier index already
          rw [if_pos ⟨hmem, hdue⟩] at hq
          rw [hq, agingDue_promote, if_neg Bool.false_ne_true, hq]
        · rw [if_neg (fun h => hmem h.1)] at hq
          rw [hq, if_pos hdue, Function.update_self]
      · refine Eq.trans ?_ (if_neg (fun h => hdue h.2)).symm
        rw [if_neg (fun h => hdue h.2)] at hq
        rw [hq, if_neg hdue, hq]
    · simp only [hqc, or_false]
      rw [← hq]
      split
      · exact Function.update_of_ne hqc _ h
      · rfl

end ConcurrencyCrypto.Garage
