/-
  ConcurrencyCrypto.Garage.QueueRuns
  ──────────────────────────────────
  **RUNS OF QUEUE OPERATIONS.**

  Any sequence of `pq_insert`, `pq_pop` and monitor passes, from the empty
  queue.  Two logs record which cars were inserted and which were returned.

    • `queue_representation` — the array is sorted under the current
      priorities, and holds what was inserted and not yet returned;
    • `no_overtaking` — a car that was inserted earlier, entered no later and
      began with no smaller priority is returned earlier.

  The second rests on three facts: the insertion stops behind equals, the
  sort is stable, and one pass promotes whoever has waited at least as long
  as someone it promotes.
-/
import ConcurrencyCrypto.Garage.Queue

namespace ConcurrencyCrypto.Garage

open ConcurrencyCrypto.Library

variable {ρ : Type} {K : Nat} [DecidableEq ρ]

/-! ## §1. Operations and logs. -/

/-- One use of the queue; a monitor pass comes with its clock reading. -/
inductive QueueOp (ρ : Type) where
  | insert (car : ρ)
  | pop
  | monitor (now : Int)

/-- The queue, the cars, and what was inserted and returned so far. -/
structure QueueRun (ρ : Type) (K : Nat) where
  pq : PriorityQueue ρ K
  heap : Heap ρ
  inserted : List ρ
  returned : List ρ

namespace QueueRun

/-- The empty queue. -/
def start (cars : Vector ρ K) (heap : Heap ρ) : QueueRun ρ K :=
  ⟨PriorityQueue.empty cars, heap, [], []⟩

/-- One operation.  A car that meets a full queue is not inserted. -/
def step (s : QueueRun ρ K) : QueueOp ρ → QueueRun ρ K
  | .insert car =>
      -- on overflow the source prints a line and returns
      match pq_insert s.heap s.pq car with
      | .ok pq => { s with pq := pq, inserted := s.inserted ++ [car] }
      | .error _ => s
  | .pop =>
      match pq_pop s.pq with
      | (some car, pq) => { s with pq := pq, returned := s.returned ++ [car] }
      | (none, pq) => { s with pq := pq }
  | .monitor now =>
      { s with
        pq := (monitorPass now s.pq s.heap).1
        heap := (monitorPass now s.pq s.heap).2 }

def run (s : QueueRun ρ K) (ops : List (QueueOp ρ)) : QueueRun ρ K := ops.foldl step s

theorem run_concat (s : QueueRun ρ K) (ops : List (QueueOp ρ)) (op : QueueOp ρ) :
    s.run (ops ++ [op]) = (s.run ops).step op := by
  unfold run
  rw [List.foldl_append]
  rfl

/-- An insertion with room succeeds. -/
theorem step_insert_of_lt (s : QueueRun ρ K) (car : ρ) (hlt : s.pq.size < K) :
    (s.step (.insert car)).pq.live = insertEnd (comesBefore s.heap) car s.pq.live ∧
      (s.step (.insert car)).heap = s.heap ∧
      (s.step (.insert car)).inserted = s.inserted ++ [car] ∧
      (s.step (.insert car)).returned = s.returned := by
  obtain ⟨pq', hpq, hlive⟩ := pq_insert_of_lt s.heap s.pq car hlt
  have hstep : s.step (.insert car)
      = { s with pq := pq', inserted := s.inserted ++ [car] } := by
    simp only [step, hpq]
  rw [hstep]
  exact ⟨hlive, rfl, rfl, rfl⟩

/-- What an insertion does. -/
theorem step_insert (s : QueueRun ρ K) (car : ρ) :
    s.step (.insert car) = s ∨
      ((s.step (.insert car)).pq.live = insertEnd (comesBefore s.heap) car s.pq.live ∧
        (s.step (.insert car)).heap = s.heap ∧
        (s.step (.insert car)).inserted = s.inserted ++ [car] ∧
        (s.step (.insert car)).returned = s.returned) := by
  rcases Nat.eq_or_lt_of_le s.pq.size_le with hfull | hlt
  · -- the overflow branch
    left
    simp only [step, pq_insert_of_full s.heap s.pq car hfull]
  · exact Or.inr (step_insert_of_lt s car hlt)

/-- What a pop does. -/
theorem step_pop (s : QueueRun ρ K) :
    s.step .pop = s ∨
      ∃ car, s.pq.live = car :: (s.step .pop).pq.live ∧
        (s.step .pop).heap = s.heap ∧ (s.step .pop).inserted = s.inserted ∧
        (s.step .pop).returned = s.returned ++ [car] := by
  rcases pq_pop_live s.pq with ⟨-, hpop⟩ | ⟨car, pq', hpop, hlive⟩
  · left
    simp only [step, hpop]
  · right
    have hstep : s.step .pop = { s with pq := pq', returned := s.returned ++ [car] } := by
      simp only [step, hpop]
    rw [hstep]
    exact ⟨car, hlive, rfl, rfl, rfl⟩

/-- What a monitor pass does to the queue. -/
theorem step_monitor_live (s : QueueRun ρ K) (now : Int) :
    (s.step (.monitor now)).pq.live
      = sortEnd (comesBefore (s.step (.monitor now)).heap) s.pq.live :=
  insertion_sort_live _ s.pq

theorem step_monitor_heap (s : QueueRun ρ K) (now : Int) (p : ρ) :
    (s.step (.monitor now)).heap p
      = if p ∈ s.pq.live ∧ agingDue now (s.heap p) = true then (s.heap p).promote
        else s.heap p :=
  agingScan_apply now s.pq s.heap p

/-! ## §2. The representation invariant. -/

/-- Sorted under the current priorities, and nothing lost or duplicated. -/
structure Represents (s : QueueRun ρ K) : Prop where
  sorted : SortedBy (comesBefore s.heap) s.pq.live
  perm : (s.pq.live ++ s.returned).Perm s.inserted

theorem Represents.step {s : QueueRun ρ K} (h : s.Represents) (op : QueueOp ρ) :
    (s.step op).Represents := by
  cases op with
  | insert car =>
      rcases step_insert s car with heq | ⟨hlive, hheap, hins, hret⟩
      · rwa [heq]
      · constructor
        · rw [hlive, hheap]
          exact insertEnd_sorted (comesBefore_strictWeak s.heap) h.sorted
        · rw [hlive, hins, hret]
          refine ((insertEnd_perm _ car s.pq.live).append_right _).trans ?_
          exact (h.perm.cons car).trans (List.perm_append_singleton car s.inserted).symm
  | pop =>
      rcases step_pop s with heq | ⟨car, hlive, hheap, hins, hret⟩
      · rwa [heq]
      · constructor
        · have hsorted := h.sorted
          rw [hlive] at hsorted
          rw [hheap]
          exact (List.pairwise_cons.mp hsorted).2
        · have hperm := h.perm
          rw [hlive] at hperm
          rw [hins, hret, ← List.append_assoc]
          exact (List.perm_append_singleton car _).trans hperm
  | monitor now =>
      constructor
      · rw [step_monitor_live]
        exact sortEnd_sorted (comesBefore_strictWeak _)
      · rw [step_monitor_live]
        exact ((sortEnd_perm _ s.pq.live).append_right _).trans h.perm

theorem run_represents (cars : Vector ρ K) (heap : Heap ρ) (ops : List (QueueOp ρ)) :
    ((start cars heap).run ops).Represents := by
  induction ops using List.reverseRecOn with
  | nil => exact ⟨List.Pairwise.nil, List.Perm.refl _⟩
  | append_singleton ops op ih =>
      rw [run_concat]
      exact ih.step op

end QueueRun

/-- **THE QUEUE IS WHAT ITS COMMENT SAYS**, after every sequence of operations:
descending priority, then ascending `enter_time`; the cars inserted and not
yet returned, where whoever finds room is inserted; a pass changes only
priorities of queued cars, from 0 to 1; and `pq_pop` returns a best car. -/
theorem queue_representation (cars : Vector ρ K) (heap : Heap ρ) (ops : List (QueueOp ρ)) :
    let s := (QueueRun.start cars heap).run ops
    s.pq.live.Pairwise (fun a b => (s.heap a).priority > (s.heap b).priority ∨
      ((s.heap a).priority = (s.heap b).priority ∧
        (s.heap a).enter_time ≤ (s.heap b).enter_time)) ∧
    (s.pq.live ++ s.returned).Perm s.inserted ∧
    (s.pq.size < K → ∀ car, (s.step (.insert car)).inserted = s.inserted ++ [car] ∧
      (s.step (.insert car)).pq.live.Perm (car :: s.pq.live)) ∧
    (∀ now p, (monitorPass now s.pq s.heap).2 p = s.heap p ∨
      (p ∈ s.pq.live ∧ (s.heap p).priority = 0 ∧
        (monitorPass now s.pq s.heap).2 p = { s.heap p with priority := 1 })) ∧
    (s.pq.live ≠ [] → ∃ car pq', pq_pop s.pq = (some car, pq') ∧ car ∈ s.pq.live ∧
      ∀ other ∈ s.pq.live, ¬ ((s.heap other).priority > (s.heap car).priority ∨
        ((s.heap other).priority = (s.heap car).priority ∧
          (s.heap other).enter_time < (s.heap car).enter_time))) := by
  intro s
  have h : s.Represents := QueueRun.run_represents cars heap ops
  refine ⟨?_, h.perm, ?_, ?_, ?_⟩
  · refine h.sorted.imp (fun {a b} hab => ?_)
    simp only [comesBefore, decide_eq_false_iff_not] at hab
    omega
  · intro hlt car
    obtain ⟨hlive, -, hins, -⟩ := QueueRun.step_insert_of_lt s car hlt
    rw [hlive]
    exact ⟨hins, insertEnd_perm _ car s.pq.live⟩
  · intro now p
    show agingScan now s.pq s.heap p = _ ∨ _ ∧ _ ∧ agingScan now s.pq s.heap p = _
    rw [agingScan_apply]
    split
    next hdue =>
      obtain ⟨hmem, hdue⟩ := hdue
      simp only [agingDue, decide_eq_true_eq] at hdue
      exact Or.inr ⟨hmem, hdue.1, rfl⟩
    next => exact Or.inl rfl
  · intro hne
    rcases pq_pop_live s.pq with ⟨hnil, -⟩ | ⟨car, pq', hpop, hlive⟩
    · exact absurd hnil hne
    · have hsorted := h.sorted
      rw [hlive] at hsorted
      refine ⟨car, pq', hpop, hlive ▸ List.mem_cons_self, ?_⟩
      intro other hother hbefore
      rw [hlive] at hother
      rcases List.mem_cons.mp hother with rfl | hother
      · omega
      · have := (List.pairwise_cons.mp hsorted).1 other hother
        simp only [comesBefore, decide_eq_false_iff_not] at this
        exact this hbefore

/-- Two regular cars and a VIP; a pass promotes the regulars, the VIP is popped
and a fourth car finds room, behind the two. -/
theorem queue_representation_four_cars :
    let s := (QueueRun.start (#v[0, 0, 0] : Vector (Fin 4) 3)
      (fun p => ⟨p.val + 1, if p = 2 then 1 else 0, 100⟩)).run
        [.insert 0, .insert 1, .insert 2, .monitor 101, .pop]
    s.returned = [2] ∧ s.pq.live = [0, 1] ∧ (s.step (.insert 3)).inserted = [0, 1, 2, 3] ∧
      (s.pq.live ++ s.returned).Perm s.inserted ∧
      s.pq.live.Pairwise (fun a b => (s.heap a).priority > (s.heap b).priority ∨
        ((s.heap a).priority = (s.heap b).priority ∧
          (s.heap a).enter_time ≤ (s.heap b).enter_time)) ∧
      (s.step (.insert 3)).pq.live.Perm (3 :: s.pq.live) := by
  intro s
  obtain ⟨hsorted, hperm, hinsert, -⟩ := queue_representation (#v[0, 0, 0] : Vector (Fin 4) 3)
    (fun p => ⟨p.val + 1, if p = 2 then 1 else 0, 100⟩)
    [.insert 0, .insert 1, .insert 2, .monitor 101, .pop]
  obtain ⟨hins, hlive⟩ := hinsert (by decide +kernel) 3
  exact ⟨by decide +kernel, by decide +kernel, by rw [hins]; decide +kernel, hperm, hsorted,
    hlive⟩

/-! ## §3. What no operation changes. -/

namespace QueueRun

theorem step_enter_time (s : QueueRun ρ K) (op : QueueOp ρ) (p : ρ) :
    ((s.step op).heap p).enter_time = (s.heap p).enter_time := by
  cases op with
  | insert car =>
      rcases step_insert s car with heq | ⟨-, hheap, -⟩
      · rw [heq]
      · rw [hheap]
  | pop =>
      rcases step_pop s with heq | ⟨car, -, hheap, -⟩
      · rw [heq]
      · rw [hheap]
  | monitor now =>
      rw [step_monitor_heap]
      split <;> rfl

/-- A priority stays, or becomes 1. -/
theorem step_priority (s : QueueRun ρ K) (op : QueueOp ρ) (p : ρ) :
    ((s.step op).heap p).priority = (s.heap p).priority ∨
      ((s.step op).heap p).priority = 1 := by
  cases op with
  | insert car =>
      rcases step_insert s car with heq | ⟨-, hheap, -⟩
      · exact Or.inl (by rw [heq])
      · exact Or.inl (by rw [hheap])
  | pop =>
      rcases step_pop s with heq | ⟨car, -, hheap, -⟩
      · exact Or.inl (by rw [heq])
      · exact Or.inl (by rw [hheap])
  | monitor now =>
      rw [step_monitor_heap]
      split
      · exact Or.inr rfl
      · exact Or.inl rfl

/-- The cars of a run are those of `heap`, some of them promoted. -/
structure CarsOf (heap : Heap ρ) (s : QueueRun ρ K) : Prop where
  times : ∀ p, (s.heap p).enter_time = (heap p).enter_time
  priorities : ∀ p, (s.heap p).priority = 0 ∨ (s.heap p).priority = 1

theorem CarsOf.step {heap : Heap ρ} {s : QueueRun ρ K} (h : CarsOf heap s) (op : QueueOp ρ) :
    CarsOf heap (s.step op) where
  times p := by rw [step_enter_time, h.times]
  priorities p := by
    rcases step_priority s op p with heq | hone
    · rw [heq]
      exact h.priorities p
    · exact Or.inr hone

theorem CarsOf.run {heap : Heap ρ} {s : QueueRun ρ K} (h : CarsOf heap s)
    (ops : List (QueueOp ρ)) : CarsOf heap (s.run ops) := by
  induction ops using List.reverseRecOn with
  | nil => exact h
  | append_singleton ops op ih =>
      rw [run_concat]
      exact ih.step op

end QueueRun

/-! ## §4. Two cars. -/

/-- Both cars were inserted at most once, `B` not before `A`. -/
structure InsertedInOrder (A B : ρ) (inserted : List ρ) : Prop where
  count_A : inserted.count A ≤ 1
  count_B : inserted.count B ≤ 1
  order : B ∈ inserted → [A, B].Sublist inserted

theorem InsertedInOrder.ne {A B : ρ} {l : List ρ} (h : InsertedInOrder A B l)
    (hB : B ∈ l) : A ≠ B := by
  rintro rfl
  have hcount := (h.order hB).count_le A
  have := h.count_A
  simp at hcount
  omega

theorem InsertedInOrder.mem {A B : ρ} {l : List ρ} (h : InsertedInOrder A B l)
    (hB : B ∈ l) : A ∈ l :=
  (h.order hB).subset List.mem_cons_self

/-- It was so at every earlier moment. -/
theorem InsertedInOrder.init {A B x : ρ} {l : List ρ}
    (h : InsertedInOrder A B (l ++ [x])) : InsertedInOrder A B l where
  count_A := Nat.le_trans ((List.sublist_append_left l [x]).count_le A) h.count_A
  count_B := Nat.le_trans ((List.sublist_append_left l [x]).count_le B) h.count_B
  order hB := by
    have hx : x ≠ B := by
      rintro rfl
      have hcount := h.count_B
      have := List.count_pos_iff.mpr hB
      simp at hcount
      omega
    obtain ⟨l₁, l₂, heq, h₁, h₂⟩ :=
      List.sublist_append_iff.mp (h.order (List.mem_append_left _ hB))
    rcases List.sublist_singleton.mp h₂ with rfl | rfl
    · rw [List.append_nil] at heq
      rwa [heq]
    · -- the later of the two cannot be `x`
      have hsplit : [A] ++ [B] = l₁ ++ [x] := heq
      obtain ⟨-, hBx⟩ := List.append_inj' hsplit rfl
      injection hBx with hBx
      exact absurd hBx.symm hx

namespace QueueRun

/-- What holds of the two cars throughout a run from the cars `heap`. -/
structure Keeps (A B : ρ) (heap : Heap ρ) (s : QueueRun ρ K) : Prop where
  represents : s.Represents
  times : ∀ p, (s.heap p).enter_time = (heap p).enter_time
  priorities : ∀ p, (s.heap p).priority = 0 ∨ (s.heap p).priority = 1
  ahead : A ∉ s.returned → (s.heap B).priority ≤ (s.heap A).priority
  live_order : A ∈ s.pq.live → B ∈ s.pq.live → [A, B].Sublist s.pq.live
  returned_order : B ∈ s.returned → [A, B].Sublist s.returned

section keeps
variable {A B : ρ} {heap : Heap ρ} {s : QueueRun ρ K}

/-- A car is queued or returned, not both. -/
theorem Represents.count_le (h : s.Represents) {p : ρ} (hp : s.inserted.count p ≤ 1) :
    s.pq.live.count p + s.returned.count p ≤ 1 := by
  rw [← List.count_append, h.perm.count_eq]
  exact hp

theorem Represents.not_returned (h : s.Represents) {p : ρ}
    (hp : s.inserted.count p ≤ 1) (hlive : p ∈ s.pq.live) : p ∉ s.returned := by
  intro hret
  have := h.count_le hp
  have := List.count_pos_iff.mpr hlive
  have := List.count_pos_iff.mpr hret
  omega

omit [DecidableEq ρ] in
theorem Keeps.cars (h : Keeps A B heap s) : CarsOf heap s := ⟨h.times, h.priorities⟩

omit [DecidableEq ρ] in
/-- In the queue's order `B` need not stand in front of `A`. -/
theorem Keeps.not_before (h : Keeps A B heap s) (hA : A ∉ s.returned)
    (htime : (heap A).enter_time ≤ (heap B).enter_time) :
    comesBefore s.heap B A = false := by
  have hprio := h.ahead hA
  have hA := h.times A
  have hB := h.times B
  simp only [comesBefore, decide_eq_false_iff_not]
  omega

theorem Keeps.step_insert (h : Keeps A B heap s) (car : ρ)
    (htime : (heap A).enter_time ≤ (heap B).enter_time)
    (hlog : InsertedInOrder A B (s.step (.insert car)).inserted) :
    Keeps A B heap (s.step (.insert car)) := by
  have hrep := h.represents.step (.insert car)
  have hcars := h.cars.step (.insert car)
  rcases QueueRun.step_insert s car with heq | ⟨hlive, hheap, hins, hret⟩
  · rwa [heq]
  · rw [hins] at hlog
    have hmem : ∀ p, p ∈ (s.step (.insert car)).pq.live → p = car ∨ p ∈ s.pq.live :=
      fun p hp => List.mem_cons.mp ((insertEnd_perm _ car s.pq.live).mem_iff.mp (hlive ▸ hp))
    have hsub : ∀ p, p ∈ s.pq.live → p ∈ s.inserted :=
      fun p hp => h.represents.perm.mem_iff.mp (List.mem_append_left _ hp)
    refine ⟨hrep, hcars.times, hcars.priorities, ?_, ?_, ?_⟩
    · rw [hheap, hret]
      exact h.ahead
    · intro hA hB
      rw [hlive]
      rcases hmem B hB with rfl | hB
      · -- `B` comes in behind `A`
        have hne : A ≠ B := hlog.ne (List.mem_append_right _ (List.mem_singleton_self B))
        have hA := (hmem A hA).resolve_left hne
        have hret := h.represents.not_returned hlog.init.count_A hA
        exact insertEnd_precedes hA (h.not_before hret htime)
      · have hA' : A ∈ s.inserted := hlog.init.mem (hsub B hB)
        rcases hmem A hA with rfl | hA
        · -- `A` would be inserted twice
          have hcount := hlog.count_A
          have := List.count_pos_iff.mpr hA'
          simp at hcount
          omega
        · exact (h.live_order hA hB).trans (sublist_insertEnd _ car s.pq.live)
    · rw [hret]
      exact h.returned_order

theorem Keeps.step_pop (h : Keeps A B heap s) (hlog : InsertedInOrder A B s.inserted) :
    Keeps A B heap (s.step .pop) := by
  have hrep := h.represents.step .pop
  have hcars := h.cars.step .pop
  rcases QueueRun.step_pop s with heq | ⟨car, hlive, hheap, hins, hret⟩
  · rwa [heq]
  · have hgone : s.inserted.count car ≤ 1 → car ∉ (s.step .pop).pq.live := by
      intro hle hmem
      have hcount := h.represents.count_le hle
      rw [hlive, List.count_cons_self] at hcount
      have := List.count_pos_iff.mpr hmem
      omega
    refine ⟨hrep, hcars.times, hcars.priorities, ?_, ?_, ?_⟩
    · rw [hheap, hret]
      exact fun hA => h.ahead (fun hA' => hA (List.mem_append_left _ hA'))
    · intro hA hB
      have hlist := h.live_order (hlive ▸ List.mem_cons_of_mem _ hA)
        (hlive ▸ List.mem_cons_of_mem _ hB)
      rw [hlive] at hlist
      have hne : A ≠ car := by
        rintro rfl
        exact hgone hlog.count_A hA
      exact (List.sublist_cons_iff.mp hlist).resolve_right
        (fun ⟨r, hr, _⟩ => hne (by injection hr))
    · intro hB
      rw [hret] at hB ⊢
      rcases List.mem_append.mp hB with hB | hB
      · exact (h.returned_order hB).trans (List.sublist_append_left _ _)
      · -- `B` is returned now, so `A` was
        rw [List.mem_singleton] at hB
        subst hB
        have hB_live : B ∈ s.pq.live := hlive ▸ List.mem_cons_self
        have hB_ins : B ∈ s.inserted :=
          h.represents.perm.mem_iff.mp (List.mem_append_left _ hB_live)
        have hne := hlog.ne hB_ins
        have hA_ins : A ∈ s.pq.live ++ s.returned :=
          h.represents.perm.mem_iff.mpr (hlog.mem hB_ins)
        rcases List.mem_append.mp hA_ins with hA | hA
        · -- if `A` were still queued it would stand in front of `B`
          exfalso
          have hlist := h.live_order hA hB_live
          rw [hlive] at hlist
          have htail := (List.sublist_cons_iff.mp hlist).resolve_right
            (fun ⟨r, hr, _⟩ => hne (by injection hr))
          have hB_tail : B ∈ (s.step .pop).pq.live :=
            htail.subset (List.mem_cons_of_mem _ List.mem_cons_self)
          exact hgone hlog.count_B hB_tail
        · exact (List.singleton_sublist.mpr hA).append (List.Sublist.refl [B])

/-- **A pass does not promote `B` past `A`**: with `B` it promotes `A`, which
has waited at least as long. -/
theorem Keeps.monitor_ahead (h : Keeps A B heap s) (now : Int)
    (htime : (heap A).enter_time ≤ (heap B).enter_time)
    (hlog : InsertedInOrder A B s.inserted) (hA : A ∉ s.returned) :
    ((s.step (.monitor now)).heap B).priority
      ≤ ((s.step (.monitor now)).heap A).priority := by
  rw [step_monitor_heap, step_monitor_heap]
  by_cases hB : B ∈ s.pq.live ∧ agingDue now (s.heap B) = true
  · -- `A` is queued too, and has waited as long
    have hA_mem : A ∈ s.pq.live ++ s.returned := h.represents.perm.mem_iff.mpr
      (hlog.mem (h.represents.perm.mem_iff.mp (List.mem_append_left _ hB.1)))
    have hA_live := (List.mem_append.mp hA_mem).resolve_right hA
    have hdueB := hB.2
    simp only [agingDue, decide_eq_true_eq] at hdueB
    have hwait : difftime now (s.heap A).enter_time ≥ WAIT_THRESHOLD :=
      le_trans hdueB.2 (difftime_anti now (by rw [h.times, h.times]; exact htime))
    rw [if_pos hB]
    rcases h.priorities A with hzero | hone
    · rw [if_pos ⟨hA_live, decide_eq_true ⟨hzero, hwait⟩⟩]
      exact le_refl _
    · split
      · exact le_refl _
      · exact le_of_eq hone.symm
  · -- `B` keeps its priority, and that of `A` does not fall
    rw [if_neg hB]
    have hprio := h.ahead hA
    split
    next hdue =>
      obtain ⟨-, hdue⟩ := hdue
      simp only [agingDue, decide_eq_true_eq] at hdue
      show (s.heap B).priority ≤ 1
      omega
    next => exact hprio

theorem Keeps.step_monitor (h : Keeps A B heap s) (now : Int)
    (htime : (heap A).enter_time ≤ (heap B).enter_time)
    (hlog : InsertedInOrder A B s.inserted) :
    Keeps A B heap (s.step (.monitor now)) := by
  have hahead := h.monitor_ahead now htime hlog
  have hcars := h.cars.step (.monitor now)
  refine ⟨h.represents.step (.monitor now), hcars.times, hcars.priorities, hahead, ?_,
    h.returned_order⟩
  -- the sort is stable, so it keeps the two in order unless `B` must go in front
  intro hA hB
  rw [step_monitor_live] at hA hB ⊢
  have hA := (sortEnd_perm _ _).mem_iff.mp hA
  have hB := (sortEnd_perm _ _).mem_iff.mp hB
  have hret := h.represents.not_returned hlog.count_A hA
  have hprio := hahead hret
  have hA_time := hcars.times A
  have hB_time := hcars.times B
  refine sortEnd_precedes (h.live_order hA hB) ?_
  simp only [comesBefore, decide_eq_false_iff_not]
  omega

/-- Throughout a run in which the two cars are inserted in order. -/
theorem run_keeps (cars : Vector ρ K)
    (hprio : ∀ p, (heap p).priority = 0 ∨ (heap p).priority = 1)
    (hAB : (heap B).priority ≤ (heap A).priority)
    (htime : (heap A).enter_time ≤ (heap B).enter_time) (ops : List (QueueOp ρ)) :
    InsertedInOrder A B ((start cars heap).run ops).inserted →
      Keeps A B heap ((start cars heap).run ops) := by
  induction ops using List.reverseRecOn with
  | nil =>
      intro _
      exact ⟨⟨List.Pairwise.nil, List.Perm.refl _⟩, fun _ => rfl, hprio, fun _ => hAB,
        fun hA _ => absurd hA List.not_mem_nil, fun hB => absurd hB List.not_mem_nil⟩
  | append_singleton ops op ih =>
      rw [run_concat]
      intro hlog
      cases op with
      | insert car =>
          have hlog' : InsertedInOrder A B ((start cars heap).run ops).inserted := by
            rcases QueueRun.step_insert ((start cars heap).run ops) car with
              heq | ⟨-, -, hins, -⟩
            · rwa [heq] at hlog
            · rw [hins] at hlog
              exact hlog.init
          exact (ih hlog').step_insert car htime hlog
      | pop =>
          have hlog' : InsertedInOrder A B ((start cars heap).run ops).inserted := by
            rcases QueueRun.step_pop ((start cars heap).run ops) with
              heq | ⟨-, -, -, hins, -⟩
            · rwa [heq] at hlog
            · rwa [hins] at hlog
          exact (ih hlog').step_pop hlog'
      | monitor now => exact (ih hlog).step_monitor now htime hlog

end keeps

end QueueRun

omit [DecidableEq ρ] in
/-- The pair splits at an item that occurs once. -/
theorem mem_of_pair_sublist {A B : ρ} {before after : List ρ}
    (h : [A, B].Sublist (before ++ B :: after)) (hafter : B ∉ after) : A ∈ before := by
  obtain ⟨l₁, l₂, heq, h₁, h₂⟩ := List.sublist_append_iff.mp h
  cases l₁ with
  | nil =>
      have hl₂ : [A, B] = l₂ := heq
      rw [← hl₂] at h₂
      have htail := (List.sublist_cons_iff.mp h₂)
      rcases htail with htail | ⟨r, hr, htail⟩
      · exact absurd (htail.subset (List.mem_cons_of_mem _ List.mem_cons_self)) hafter
      · injection hr with _ hr
        rw [← hr] at htail
        exact absurd (htail.subset List.mem_cons_self) hafter
  | cons a l₁ =>
      injection heq with ha _
      rw [ha]
      exact h₁.subset List.mem_cons_self

/-- **NO OVERTAKING.**  `A` and `B` are inserted once each, `A` before `B`;
`A` begins with no smaller priority and entered no later.  Then whenever `B`
has been returned, `A` was returned before it. -/
theorem no_overtaking (cars : Vector ρ K) (heap : Heap ρ) (ops : List (QueueOp ρ))
    (A B : ρ) (hprio : ∀ p, (heap p).priority = 0 ∨ (heap p).priority = 1)
    (hA : ((QueueRun.start cars heap).run ops).inserted.count A = 1)
    (hB : ((QueueRun.start cars heap).run ops).inserted.count B = 1)
    (hAB : [A, B].Sublist ((QueueRun.start cars heap).run ops).inserted)
    (hpriority : (heap A).priority ≥ (heap B).priority)
    (htime : (heap A).enter_time ≤ (heap B).enter_time) (before after : List ρ)
    (hret : ((QueueRun.start cars heap).run ops).returned = before ++ B :: after) :
    A ∈ before := by
  have hlog : InsertedInOrder A B ((QueueRun.start cars heap).run ops).inserted :=
    ⟨Nat.le_of_eq hA, Nat.le_of_eq hB, fun _ => hAB⟩
  have hkeeps := QueueRun.run_keeps cars hprio hpriority htime ops hlog
  have hB_ret : B ∈ ((QueueRun.start cars heap).run ops).returned := by
    rw [hret]
    exact List.mem_append_right _ List.mem_cons_self
  have hcount := hkeeps.represents.count_le (Nat.le_of_eq hB)
  have hlist := hkeeps.returned_order hB_ret
  rw [hret] at hcount hlist
  have hB_after : B ∉ after := by
    intro hmem
    have := List.count_pos_iff.mpr hmem
    rw [List.count_append, List.count_cons_self] at hcount
    omega
  exact mem_of_pair_sublist hlist hB_after

/-- Two regular cars and a VIP, all of one second; a pass promotes both regulars. -/
theorem no_overtaking_promoted :
    (0 : Fin 3) ∈ [(2 : Fin 3), 0] :=
  no_overtaking #v[0, 0, 0]
    (fun p => ⟨p.val + 1, if p = 2 then 1 else 0, 100⟩)
    [.insert 0, .insert 1, .insert 2, .monitor 101, .pop, .pop, .pop] 0 1
    (by decide) (by decide) (by decide) (by decide) (by decide) (by decide)
    [2, 0] [] (by decide +kernel)

end ConcurrencyCrypto.Garage
