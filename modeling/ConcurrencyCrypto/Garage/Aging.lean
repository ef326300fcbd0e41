/-
  ConcurrencyCrypto.Garage.Aging
  ──────────────────────────────
  **AGING BOUNDS THE WAIT.**

  A car that has waited for `WAIT_THRESHOLD` when the monitor looks is a VIP
  afterwards, and so is every car that entered earlier and is still queued.
  From then on nothing passes it: who stands in front of it is a VIP and
  entered no later, who stands behind it, or comes later, entered no earlier.
  So the cars in front of it only leave.

    • `Shielded`          — the two halves of the queue around the car,
    • `aging_bounds_wait` — with `r` cars in front of it, the car is what the
      `(r + 1)`-st of the next `pq_pop` calls returns.
-/
import ConcurrencyCrypto.Garage.QueueRuns

namespace ConcurrencyCrypto.Garage

open ConcurrencyCrypto.Library

variable {ρ : Type} {K : Nat} [DecidableEq ρ]

/-- The operation is a call of `pq_pop`. -/
def QueueOp.isPop : QueueOp ρ → Bool
  | .pop => true
  | .insert _ => false
  | .monitor _ => false

/-- The number of `pq_pop` calls. -/
def pops (ops : List (QueueOp ρ)) : Nat := ops.countP QueueOp.isPop

omit [DecidableEq ρ] in
theorem pops_concat (ops : List (QueueOp ρ)) (op : QueueOp ρ) :
    pops (ops ++ [op]) = pops ops + if op.isPop then 1 else 0 := by
  unfold pops
  rw [List.countP_append, List.countP_singleton]

namespace QueueRun

/-! ## §1. A car that nothing can pass. -/

/-- `A` stands behind `front` and in front of `behind`, and no car of `behind`
can come to stand in front of it. -/
structure Shielded (A : ρ) (front behind : List ρ) (s : QueueRun ρ K) : Prop where
  live : s.pq.live = front ++ A :: behind
  vip : ∀ p ∈ front ++ [A], (s.heap p).priority = 1
  ordered : (front ++ [A]).Pairwise fun p q => (s.heap p).enter_time ≤ (s.heap q).enter_time
  younger : ∀ p ∈ behind, (s.heap A).enter_time ≤ (s.heap p).enter_time

section shielded
variable {A : ρ} {front behind : List ρ} {s : QueueRun ρ K} {heap : Heap ρ}

omit [DecidableEq ρ] in
theorem Shielded.vip_self (h : Shielded A front behind s) : (s.heap A).priority = 1 :=
  h.vip A (by simp)

omit [DecidableEq ρ] in
/-- A car that entered no earlier need not stand in front of a VIP. -/
theorem not_comesBefore_vip {heap : Heap ρ} {p : ρ} (hA : (heap A).priority = 1)
    (hp : (heap p).priority = 0 ∨ (heap p).priority = 1)
    (htime : (heap A).enter_time ≤ (heap p).enter_time) :
    comesBefore heap p A = false := by
  simp only [comesBefore, decide_eq_false_iff_not]
  omega

/-- A new car goes behind `A`. -/
theorem Shielded.step_insert (h : Shielded A front behind s) (hcars : CarsOf heap s) (car : ρ)
    (htime : (heap A).enter_time ≤ (heap car).enter_time) :
    ∃ behind', Shielded A front behind' (s.step (.insert car)) := by
  rcases QueueRun.step_insert s car with heq | ⟨hlive, hheap, -, -⟩
  · rw [heq]
    exact ⟨behind, h⟩
  · have htime' : (s.heap A).enter_time ≤ (s.heap car).enter_time := by
      rw [hcars.times, hcars.times]
      exact htime
    have hplace := not_comesBefore_vip h.vip_self (hcars.priorities car) htime'
    rw [h.live, insertEnd_append_cons hplace] at hlive
    refine ⟨insertEnd (comesBefore s.heap) car behind, hlive, ?_, ?_, ?_⟩
    · rw [hheap]
      exact h.vip
    · rw [hheap]
      exact h.ordered
    · rw [hheap]
      intro p hp
      rcases List.mem_cons.mp ((insertEnd_perm _ car behind).mem_iff.mp hp) with rfl | hp
      · exact htime'
      · exact h.younger p hp

/-- A pop takes a car from the front, or `A` itself. -/
theorem Shielded.step_pop (h : Shielded A front behind s) :
    (front = [] ∧ (pq_pop s.pq).1 = some A) ∨
      ∃ p front', front = p :: front' ∧ Shielded A front' behind (s.step .pop) := by
  cases front with
  | nil =>
      left
      refine ⟨rfl, ?_⟩
      rcases pq_pop_live s.pq with ⟨hnil, -⟩ | ⟨car, pq', hpop, hlive⟩
      · rw [h.live] at hnil
        cases hnil
      · rw [h.live] at hlive
        injection hlive with hcar
        rw [hpop, hcar]
  | cons p front' =>
      right
      refine ⟨p, front', rfl, ?_⟩
      rcases QueueRun.step_pop s with heq | ⟨car, hlive, hheap, -, -⟩
      · -- the queue is not empty, so a pop changes it
        rcases pq_pop_live s.pq with ⟨hnil, -⟩ | ⟨car, pq', hpop, hlive⟩
        · rw [h.live] at hnil
          cases hnil
        · have hpq : (s.step .pop).pq = pq' := by simp only [step, hpop]
          rw [heq] at hpq
          rw [hpq] at hlive
          exact absurd (congrArg List.length hlive) (by simp)
      · rw [h.live] at hlive
        injection hlive with _ hlive
        have hsub : ∀ q, q ∈ front' ++ [A] → q ∈ p :: front' ++ [A] :=
          fun q hq => List.mem_cons_of_mem p hq
        refine ⟨hlive.symm, ?_, ?_, ?_⟩
        · rw [hheap]
          exact fun q hq => h.vip q (hsub q hq)
        · rw [hheap]
          exact (List.pairwise_cons.mp h.ordered).2
        · rw [hheap]
          exact h.younger

/-- A pass re-sorts only what stands behind `A`. -/
theorem Shielded.step_monitor (h : Shielded A front behind s) (hcars : CarsOf heap s)
    (now : Int) : ∃ behind', Shielded A front behind' (s.step (.monitor now)) := by
  have htime := step_enter_time s (.monitor now)
  have hcars' := hcars.step (.monitor now)
  have hvip : ∀ p ∈ front ++ [A], ((s.step (.monitor now)).heap p).priority = 1 := by
    intro p hp
    rcases step_priority s (.monitor now) p with heq | hone
    · rw [heq]
      exact h.vip p hp
    · exact hone
  have hordered : (front ++ [A]).Pairwise fun p q =>
      ((s.step (.monitor now)).heap p).enter_time
        ≤ ((s.step (.monitor now)).heap q).enter_time := by
    refine h.ordered.imp (fun {p q} hpq => ?_)
    rw [htime, htime]
    exact hpq
  have hyounger : ∀ p ∈ behind, ((s.step (.monitor now)).heap A).enter_time
      ≤ ((s.step (.monitor now)).heap p).enter_time := by
    intro p hp
    rw [htime, htime]
    exact h.younger p hp
  have hsorted : SortedBy (comesBefore (s.step (.monitor now)).heap) (front ++ [A]) :=
    hordered.imp_of_mem (fun {p q} hp hq hpq =>
      not_comesBefore_vip (hvip p hp) (Or.inr (hvip q hq)) hpq)
  have hlive : (s.step (.monitor now)).pq.live
      = front ++ A :: sortEnd (comesBefore (s.step (.monitor now)).heap) behind := by
    rw [step_monitor_live, h.live]
    refine sortEnd_append_cons hsorted (fun p hp => ?_)
    exact not_comesBefore_vip (hvip A (by simp)) (hcars'.priorities p) (hyounger p hp)
  refine ⟨_, hlive, hvip, hordered, ?_⟩
  intro p hp
  exact hyounger p ((sortEnd_perm _ behind).mem_iff.mp hp)

/-- Whoever is queued behind the pass is a VIP, or entered later than `A`. -/
theorem vip_or_late (hcars : CarsOf heap s) (now : Int)
    (hwait : difftime now (heap A).enter_time ≥ WAIT_THRESHOLD) {p : ρ}
    (hp : p ∈ (s.step (.monitor now)).pq.live) :
    ((s.step (.monitor now)).heap p).priority = 1 ∨
      (heap A).enter_time < (heap p).enter_time := by
  rcases (hcars.step (.monitor now)).priorities p with hzero | hone
  · right
    by_contra hle
    have hlong : difftime now (heap p).enter_time ≥ WAIT_THRESHOLD :=
      le_trans hwait (difftime_anti now (by omega))
    rw [step_monitor_live] at hp
    have hmem := (sortEnd_perm _ _).mem_iff.mp hp
    -- so the pass has promoted it
    rw [step_monitor_heap] at hzero
    split at hzero
    next => exact absurd (show (1 : Int) = 0 from hzero) one_ne_zero
    next hnot =>
      refine hnot ⟨hmem, decide_eq_true ⟨hzero, ?_⟩⟩
      rw [hcars.times]
      exact hlong
  · exact Or.inl hone

omit [DecidableEq ρ] in
/-- A sorted queue of VIPs, and of cars that entered later than `A`. -/
theorem shielded_of_sorted (hcars : CarsOf heap s)
    (hsorted : SortedBy (comesBefore s.heap) s.pq.live)
    (hlive : s.pq.live = front ++ A :: behind)
    (hlate : ∀ p ∈ s.pq.live, (s.heap p).priority = 1 ∨
      (heap A).enter_time < (heap p).enter_time) : Shielded A front behind s := by
  rw [hlive] at hsorted hlate
  obtain ⟨hfront, hself, hcross⟩ := List.pairwise_append.mp hsorted
  have hA_vip : (s.heap A).priority = 1 := (hlate A (by simp)).resolve_right (lt_irrefl _)
  -- a VIP stands behind them, so the cars in front are VIPs as well
  have hvip : ∀ p ∈ front ++ [A], (s.heap p).priority = 1 := by
    intro p hp
    rcases List.mem_append.mp hp with hp | hp
    · have hnot := hcross p hp A List.mem_cons_self
      simp only [comesBefore, decide_eq_false_iff_not] at hnot
      have := hcars.priorities p
      omega
    · rw [List.mem_singleton.mp hp]
      exact hA_vip
  have hfront' : SortedBy (comesBefore s.heap) (front ++ [A]) :=
    List.pairwise_append.mpr ⟨hfront, List.pairwise_singleton _ A, fun p hp q hq => by
      rw [List.mem_singleton.mp hq]
      exact hcross p hp A List.mem_cons_self⟩
  refine ⟨hlive, hvip, ?_, ?_⟩
  · refine hfront'.imp_of_mem (fun {p q} hp hq hpq => ?_)
    simp only [comesBefore, decide_eq_false_iff_not] at hpq
    have := hvip p hp
    have := hvip q hq
    omega
  · intro p hp
    have hnot := (List.pairwise_cons.mp hself).1 p hp
    simp only [comesBefore, decide_eq_false_iff_not] at hnot
    rcases hlate p (by simp [hp]) with hone | hlate
    · omega
    · rw [hcars.times, hcars.times]
      omega

/-- **A PASS SHIELDS WHO HAS WAITED LONG ENOUGH.** -/
theorem shielded_of_monitor (hrep : s.Represents) (hcars : CarsOf heap s) (now : Int) {r : Nat}
    (hA : (s.step (.monitor now)).pq.live[r]? = some A)
    (hwait : difftime now (heap A).enter_time ≥ WAIT_THRESHOLD) :
    ∃ front behind, front.length = r ∧ Shielded A front behind (s.step (.monitor now)) := by
  obtain ⟨hr, hget⟩ := List.getElem?_eq_some_iff.mp hA
  have hsplit : (s.step (.monitor now)).pq.live
      = (s.step (.monitor now)).pq.live.take r
        ++ A :: (s.step (.monitor now)).pq.live.drop (r + 1) := by
    rw [← hget, ← List.drop_eq_getElem_cons hr, List.take_append_drop]
  have hlen : ((s.step (.monitor now)).pq.live.take r).length = r := by
    rw [List.length_take]
    omega
  exact ⟨_, _, hlen, shielded_of_sorted (hcars.step (.monitor now))
    (hrep.step (.monitor now)).sorted hsplit fun p hp => vip_or_late hcars now hwait hp⟩

/-! ## §2. Every later run. -/

/-- The operations insert no car that entered earlier than `A`. -/
def InsertsYounger (heap : Heap ρ) (A : ρ) (ops : List (QueueOp ρ)) : Prop :=
  ∀ car, QueueOp.insert car ∈ ops → (heap A).enter_time ≤ (heap car).enter_time

/-- As long as there are no more pops than cars in front. -/
theorem Shielded.run (h : Shielded A front behind s) (hcars : CarsOf heap s)
    (later : List (QueueOp ρ)) :
    InsertsYounger heap A later → pops later ≤ front.length →
      ∃ front' behind', front'.length = front.length - pops later ∧
        Shielded A front' behind' (s.run later) := by
  induction later using List.reverseRecOn with
  | nil => exact fun _ _ => ⟨front, behind, rfl, h⟩
  | append_singleton later op ih =>
      intro hyounger hpops
      rw [pops_concat] at hpops ⊢
      rw [run_concat]
      have hyounger' : InsertsYounger heap A later :=
        fun car hcar => hyounger car (List.mem_append_left _ hcar)
      obtain ⟨front', behind', hlen, hs⟩ := ih hyounger' (by omega)
      cases op with
      | insert car =>
          obtain ⟨behind'', hs'⟩ :=
            hs.step_insert (hcars.run later) car (hyounger car (by simp))
          exact ⟨front', behind'', hlen, hs'⟩
      | pop =>
          simp only [QueueOp.isPop, if_true] at hpops ⊢
          rcases hs.step_pop with ⟨hnil, -⟩ | ⟨p, front'', hfront, hs'⟩
          · rw [hnil, List.length_nil] at hlen
            omega
          · rw [hfront, List.length_cons] at hlen
            exact ⟨front'', behind', by omega, hs'⟩
      | monitor now =>
          obtain ⟨behind'', hs'⟩ := hs.step_monitor (hcars.run later) now
          exact ⟨front', behind'', hlen, hs'⟩

/-- One more pop than cars in front: `A` is what it returns. -/
theorem Shielded.returned (h : Shielded A front behind s) (hcars : CarsOf heap s)
    (later : List (QueueOp ρ)) :
    InsertsYounger heap A later → front.length < pops later →
      ∃ before after, later = before ++ .pop :: after ∧ pops before = front.length ∧
        (pq_pop (s.run before).pq).1 = some A := by
  induction later using List.reverseRecOn with
  | nil => exact fun _ hpops => absurd hpops (Nat.not_lt_zero _)
  | append_singleton later op ih =>
      intro hyounger hpops
      have hyounger' : InsertsYounger heap A later :=
        fun car hcar => hyounger car (List.mem_append_left _ hcar)
      by_cases hlt : front.length < pops later
      · obtain ⟨before, after, hsplit, hbefore, hpop⟩ := ih hyounger' hlt
        exact ⟨before, after ++ [op], by simp [hsplit], hbefore, hpop⟩
      · -- the last operation is the pop in question
        rw [pops_concat] at hpops
        obtain ⟨front', behind', hlen, hs⟩ := h.run hcars later hyounger' (by omega)
        cases op with
        | insert car => exact absurd hpops hlt
        | monitor now => exact absurd hpops hlt
        | pop =>
            simp only [QueueOp.isPop, if_true] at hpops
            rcases hs.step_pop with ⟨-, hpop⟩ | ⟨p, front'', hfront, -⟩
            · exact ⟨later, [], rfl, by omega, hpop⟩
            · rw [hfront, List.length_cons] at hlen
              omega

end shielded

end QueueRun

/-- **AGING BOUNDS THE WAIT.**  A pass at clock reading `now` leaves `A`, which
has waited for `WAIT_THRESHOLD`, with `r` cars in front of it.  After any
further operations that insert no car that entered earlier, there are `r` less
the number of pops in front of it; the next pop after `r` pops returns it. -/
theorem aging_bounds_wait (cars : Vector ρ K) (heap : Heap ρ) (earlier : List (QueueOp ρ))
    (now : Int) (A : ρ) (r : Nat)
    (hprio : ∀ p, (heap p).priority = 0 ∨ (heap p).priority = 1)
    (hA : ((QueueRun.start cars heap).run (earlier ++ [.monitor now])).pq.live[r]? = some A)
    (hwait : difftime now (heap A).enter_time ≥ WAIT_THRESHOLD)
    (later : List (QueueOp ρ))
    (hlater : ∀ car, QueueOp.insert car ∈ later →
      (heap A).enter_time ≤ (heap car).enter_time) :
    let s := (QueueRun.start cars heap).run (earlier ++ [.monitor now])
    (pops later ≤ r → (s.run later).pq.live[r - pops later]? = some A) ∧
    (r < pops later → ∃ before after, later = before ++ .pop :: after ∧ pops before = r ∧
      (pq_pop (s.run before).pq).1 = some A) := by
  intro s
  have hstart : QueueRun.CarsOf heap (QueueRun.start cars heap) := ⟨fun _ => rfl, hprio⟩
  have hrep := QueueRun.run_represents cars heap earlier
  have hs : s = ((QueueRun.start cars heap).run earlier).step (.monitor now) :=
    QueueRun.run_concat _ _ _
  rw [QueueRun.run_concat] at hA
  obtain ⟨front, behind, hlen, hshield⟩ :=
    QueueRun.shielded_of_monitor hrep (hstart.run earlier) now hA hwait
  have hcars : QueueRun.CarsOf heap s := hstart.run _
  rw [← hs] at hshield
  subst hlen
  constructor
  · intro hpops
    obtain ⟨front', behind', hlen', hshield'⟩ := hshield.run hcars later hlater hpops
    rw [hshield'.live, ← hlen', List.getElem?_append_right (Nat.le_refl _), Nat.sub_self]
    rfl
  · exact hshield.returned hcars later hlater

/-- Car 1 is promoted behind the VIP 0; the VIP 2, of the same second, comes
in behind it. -/
theorem aging_bounds_wait_tie :
    ∃ before after : List (QueueOp (Fin 3)),
      [.insert 2, .pop, .monitor 200, .pop] = before ++ .pop :: after ∧ pops before = 1 ∧
        (pq_pop (((QueueRun.start #v[0, 0, 0]
          (fun p => ⟨p.val + 1, if p = 1 then 0 else 1, 100⟩)).run
            ([.insert 1, .insert 0] ++ [.monitor 101])).run before).pq).1 = some 1 :=
  (aging_bounds_wait (#v[0, 0, 0] : Vector (Fin 3) 3)
    (fun p => ⟨p.val + 1, if p = 1 then 0 else 1, 100⟩)
    [.insert 1, .insert 0] 101 1 1 (by decide) (by decide +kernel)
    (by norm_num [difftime, WAIT_THRESHOLD])
    [.insert 2, .pop, .monitor 200, .pop] (fun _ _ => le_refl _)).2 (by decide)

end ConcurrencyCrypto.Garage
