/-
  ConcurrencyCrypto.Philosophers.Safety
  ─────────────────────────────────────
  **WHAT HOLDS FROM THE ALL-THINKING START**, read off the invariant: the
  sticks are never used by both neighbours, and there is always somebody who
  can go on.
-/
import ConcurrencyCrypto.Philosophers.Invariant

namespace ConcurrencyCrypto.Philosophers

open ConcurrencyCrypto.Library

variable {N : Nat} {s : State N}

/-- A state of some run in which everybody is THINKING at first. -/
def Reachable (s : State N) : Prop := Reaches step (State.start fun _ => THINKING) s

theorem Invariant.of_reaches (hN : 2 ≤ N) {state : Fin N → Int32}
    (h0 : ∀ i, state i ≠ HUNGRY ∧ state i ≠ EATING)
    (h : Reaches step (State.start state) s) : Invariant s :=
  h.invariant (invariant_start h0) fun _ _ _ hs hstep => hs.next hN hstep

theorem Reachable.invariant (hN : 2 ≤ N) (h : Reachable s) : Invariant s :=
  Invariant.of_reaches hN (fun _ => ⟨by decide, by decide⟩) h

/-! ## §1. Mutual exclusion. -/

theorem eating_le (t : Table N) (i : Fin N) : t.eating i ≤ 1 := by
  unfold Table.eating
  split <;> omega

theorem Table.eating_eq_one_iff {t : Table N} {i : Fin N} :
    t.eating i = 1 ↔ t.state i = EATING := by
  unfold Table.eating
  split
  next h => exact ⟨fun _ => h, fun _ => rfl⟩
  next h => exact ⟨nofun, fun hc => absurd hc h⟩

/-- EATING is a credit, or a credit consumed. -/
theorem Invariant.eating_iff (h : Invariant s) (i : Fin N) :
    s.table.state i = EATING ↔ s.table.eaters i = 1 ∨ (s.pc i).holding = true := by
  have hbal : s.table.eaters i + ((s.pc i).holding).toNat = s.table.eating i := h.balanced i
  have hle := eating_le s.table i
  rw [← Table.eating_eq_one_iff, ← hbal]
  rw [← hbal] at hle
  cases hhold : (s.pc i).holding with
  | true =>
      rw [hhold, Bool.toNat_true] at hle
      simp
      omega
  | false => simp

theorem Invariant.exclude (h : Invariant s) {i j : Fin N} (hij : Neighbours i j) :
    ¬ ((s.pc i).holding = true ∧ (s.pc j).holding = true) := by
  rintro ⟨hi, hj⟩
  have hi := (h.eating_iff i).mpr (Or.inr hi)
  have hj := (h.eating_iff j).mpr (Or.inr hj)
  exact h.settled.exclusive i j hij (phaseOf_granted_iff.mpr hi) (phaseOf_granted_iff.mpr hj)

/-- **NEIGHBOURS NEVER EAT TOGETHER.**  No two neighbours are both past their
`take_sticks` with the sticks not put down; a semaphore `eaters[i]` is 0 or 1;
and a philosopher is EATING exactly when it has a credit there or has consumed
it. -/
theorem neighbours_never_eat_together (hN : 2 ≤ N) (h : Reachable s) :
    (∀ i j, Neighbours i j → ¬ ((s.pc i).holding = true ∧ (s.pc j).holding = true)) ∧
      ∀ i, s.table.eaters i ≤ 1 ∧
        (s.table.state i = EATING ↔ s.table.eaters i = 1 ∨ (s.pc i).holding = true) := by
  have hinv := h.invariant hN
  refine ⟨fun i j hij => hinv.exclude hij, fun i => ⟨?_, hinv.eating_iff i⟩⟩
  have hbal := hinv.balanced i
  have hle := eating_le s.table i
  omega

/-- Two philosophers: the first eats, the second waits for it. -/
def oneEats : List (Fin 2) := List.replicate 5 0 ++ List.replicate 4 1

theorem neighbours_never_eat_together_two :
    ∃ s : State 2, (s.pc 0).holding = true ∧
      (∀ i j, Neighbours i j → ¬ ((s.pc i).holding = true ∧ (s.pc j).holding = true)) ∧
      ∀ i, s.table.eaters i ≤ 1 ∧
        (s.table.state i = EATING ↔ s.table.eaters i = 1 ∨ (s.pc i).holding = true) :=
  have hrun : ∃ s : State 2, Reachable s ∧ (s.pc 0).holding = true :=
    exists_reaches oneEats (fun s : State 2 => (s.pc 0).holding) (by decide +kernel)
  hrun.elim fun s hs => ⟨s, hs.2, neighbours_never_eat_together (by decide) hs.1⟩

/-! ## §2. Progress. -/

/-- What stops a philosopher. -/
theorem blocked_cases {i : Fin N} (h : ¬ Enabled step s i) :
    (s.mutex = 0 ∧ (s.pc i).inside = false) ∨ s.Starved i := by
  rw [not_enabled_iff] at h
  unfold step at h
  split at h
  next => cases h
  next hpc =>
    by_cases hm : s.mutex = 0
    · exact Or.inl ⟨hm, by rw [hpc]; rfl⟩
    · rw [if_neg hm] at h
      cases h
  next => cases h
  next => cases h
  next hpc =>
    by_cases he : s.table.eaters i = 0
    · exact Or.inr ⟨hpc, he⟩
    · rw [if_neg he] at h
      cases h
  next => cases h
  next hpc =>
    by_cases hm : s.mutex = 0
    · exact Or.inl ⟨hm, by rw [hpc]; rfl⟩
    · rw [if_neg hm] at h
      cases h
  next => cases h
  next => cases h

theorem Invariant.hungry (h : Invariant s) {i : Fin N} (hi : s.table.state i = HUNGRY) :
    ∃ j, Neighbours i j ∧ s.table.state j = EATING := by
  obtain ⟨j, hij, hj⟩ := h.settled.justified i (phaseOf_waiting_iff.mpr hi)
  exact ⟨j, hij, phaseOf_granted_iff.mp hj⟩

/-- A starved philosopher is HUNGRY: an EATING one would have a credit. -/
theorem Invariant.starved_hungry (h : Invariant s) {i : Fin N} (hi : s.Starved i) :
    s.table.state i = HUNGRY := by
  obtain ⟨hpc, hzero⟩ := hi
  have hne : s.table.phase i ≠ .idle := by
    intro hidle
    have := (h.engaged i).mp hidle
    rw [hpc] at this
    cases this
  have heat : s.table.state i ≠ EATING := by
    intro hc
    rcases (h.eating_iff i).mp hc with hone | hhold
    · omega
    · rw [hpc] at hhold
      cases hhold
  by_contra hhungry
  exact hne (phaseOf_idle_iff.mpr ⟨hhungry, heat⟩)

/-- An EATING philosopher is not starved. -/
theorem Invariant.eating_not_starved (h : Invariant s) {i : Fin N}
    (hi : s.table.state i = EATING) : ¬ s.Starved i := by
  intro hc
  rw [h.starved_hungry hc] at hi
  exact absurd hi (by decide)

/-- **There is always a philosopher that can step.** -/
theorem Invariant.progress (h : Invariant s) (i : Fin N) : ∃ j, Enabled step s j := by
  by_contra hnone
  have hall : ∀ j, ¬ Enabled step s j := fun j hj => hnone ⟨j, hj⟩
  by_cases hm : s.mutex = 0
  · -- whoever has the mutex is not stopped by it, nor at its own semaphore
    have hmutex := h.mutex
    rw [hm] at hmutex
    obtain ⟨j, hj⟩ := hmutex.exists_holder Nat.one_pos
    rcases blocked_cases (hall j) with ⟨-, hout⟩ | ⟨hpc, -⟩
    · rw [hout] at hj
      exact absurd hj (Nat.lt_irrefl 0)
    · rw [hpc] at hj
      exact absurd hj (Nat.lt_irrefl 0)
  · -- all are starved: then one of them, or its neighbour, is EATING
    have hstarved : ∀ j, s.Starved j := fun j =>
      (blocked_cases (hall j)).resolve_left fun hc => hm hc.1
    obtain ⟨j, -, hj⟩ := h.hungry (h.starved_hungry (hstarved i))
    exact h.eating_not_starved hj (hstarved j)

/-- **NO MISSED WAKE-UP, NO DEADLOCK.**  Whenever the mutex is free, a HUNGRY
philosopher has a neighbour that is EATING; and in every reachable state some
philosopher can step. -/
theorem no_missed_wakeup (hN : 2 ≤ N) (h : Reachable s) :
    (s.mutex = 1 → ∀ i, s.table.state i = HUNGRY →
        ∃ j, Neighbours i j ∧ s.table.state j = EATING) ∧
      ∃ i, Enabled step s i := by
  have hinv := h.invariant hN
  exact ⟨fun _ i hi => hinv.hungry hi, hinv.progress ⟨0, by omega⟩⟩

theorem no_missed_wakeup_two :
    ∃ s : State 2, s.mutex = 1 ∧ s.table.state 1 = HUNGRY ∧
      (s.mutex = 1 → ∀ i, s.table.state i = HUNGRY →
        ∃ j, Neighbours i j ∧ s.table.state j = EATING) ∧
      ∃ i, Enabled step s i :=
  have hrun : ∃ s, runActions step (State.start fun _ => THINKING) oneEats = some s ∧
      s.mutex = 1 ∧ s.table.state 1 = HUNGRY := ⟨_, rfl, rfl, rfl⟩
  hrun.elim fun s hs =>
    ⟨s, hs.2.1, hs.2.2, no_missed_wakeup (by decide) (reaches_of_run oneEats hs.1)⟩

end ConcurrencyCrypto.Philosophers
