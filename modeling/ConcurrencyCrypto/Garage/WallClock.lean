/-
  ConcurrencyCrypto.Garage.WallClock
  ──────────────────────────────────
  **THE AGING THRESHOLD AGAINST THE WALL CLOCK.**

  Both readings that the monitor subtracts are instants rounded down to whole
  seconds, so what it compares with `WAIT_THRESHOLD` is the number of second
  boundaries between them, not the time that has passed.

    • `agingDue_iff_boundary`    — due means that a second began in between,
    • `threshold_honoured_iff`   — the exact phases of the two instants for
      which a pass does what `WAIT_THRESHOLD` says.
-/
import ConcurrencyCrypto.Garage.Queue

namespace ConcurrencyCrypto.Garage

open ConcurrencyCrypto.Library

variable {ρ : Type} {K : Nat}

/-! ## §1. Instants and readings. -/

/-- `time(NULL)` at an instant that is given in microseconds. -/
def time (instant : Int) : Int := instant / 1000000

/-- The seconds that pass between two instants. -/
def elapsed (instant created : Int) : ℚ := (instant - created : Int) / 1000000

/-- `args->cars[i].enter_time = time(NULL)`, each car at its own instant. -/
def carsCreated (created : ρ → Int) (cars : Heap ρ) : Heap ρ :=
  fun p => { cars p with enter_time := time (created p) }

/-- After the pass the queued cars that are still regular have waited for less
than the threshold, and those that it promoted have waited for at least that. -/
def HonoursThreshold [DecidableEq ρ] (created : ρ → Int) (instant : Int)
    (pq : PriorityQueue ρ K) (heap : Heap ρ) : Prop :=
  let after := monitorPass (time instant) pq heap
  (∀ p ∈ after.1.live, (after.2 p).priority = 0 →
    elapsed instant (created p) < WAIT_THRESHOLD) ∧
  (∀ p, (after.2 p).priority ≠ (heap p).priority →
    WAIT_THRESHOLD ≤ elapsed instant (created p))

/-- A second begins between the two instants exactly if they are 0.4 s apart. -/
def InPhase (created instant : Int) : Prop :=
  1000000 ≤ created % 1000000 + (instant - created) ↔ 400000 ≤ instant - created

/-! ## §2. What the monitor sees of the time that passed. -/

theorem threshold_le_elapsed (instant created : Int) :
    WAIT_THRESHOLD ≤ elapsed instant created ↔ 400000 ≤ instant - created := by
  unfold WAIT_THRESHOLD elapsed
  rw [div_le_div_iff₀ (by norm_num) (by norm_num)]
  constructor
  · intro h
    have hint : (4 * 1000000 : Int) ≤ (instant - created) * 10 := by exact_mod_cast h
    omega
  · intro h
    have hint : (4 * 1000000 : Int) ≤ (instant - created) * 10 := by omega
    exact_mod_cast hint

/-- A difference of whole seconds reaches 0.4 as soon as it is not zero. -/
theorem threshold_le_difftime (now enter_time : Int) :
    difftime now enter_time ≥ WAIT_THRESHOLD ↔ enter_time < now := by
  unfold WAIT_THRESHOLD difftime
  constructor
  · intro h
    by_contra hle
    have hcast : ((now - enter_time : Int) : ℚ) ≤ 0 := by
      exact_mod_cast (by omega : now - enter_time ≤ 0)
    linarith
  · intro h
    have hcast : (1 : ℚ) ≤ ((now - enter_time : Int) : ℚ) := by
      exact_mod_cast (by omega : (1 : Int) ≤ now - enter_time)
    linarith

/-- **Due is a regular car whose second is over.** -/
theorem agingDue_iff_boundary (created : ρ → Int) (cars : Heap ρ) (instant : Int) (p : ρ) :
    agingDue (time instant) (carsCreated created cars p) = true
      ↔ (cars p).priority = 0 ∧
        1000000 ≤ created p % 1000000 + (instant - created p) := by
  unfold agingDue
  rw [decide_eq_true_eq, threshold_le_difftime]
  show (cars p).priority = 0 ∧ time (created p) < time instant ↔ _
  unfold time
  constructor
  · intro h
    exact ⟨h.1, by omega⟩
  · intro h
    exact ⟨h.1, by omega⟩

section pass
variable [DecidableEq ρ] (created : ρ → Int) (cars : Heap ρ) (pq : PriorityQueue ρ K)
  (instant : Int) (p : ρ)

/-- The pass keeps the queue's cars. -/
theorem mem_live_pass :
    p ∈ (monitorPass (time instant) pq (carsCreated created cars)).1.live ↔ p ∈ pq.live := by
  show p ∈ (insertion_sort _ pq).live ↔ _
  rw [insertion_sort_live]
  exact (sortEnd_perm _ pq.live).mem_iff

/-- **What the pass does to a regular car of the queue.** -/
theorem pass_of_boundary (hp : p ∈ pq.live) (hzero : (cars p).priority = 0) :
    (monitorPass (time instant) pq (carsCreated created cars)).2 p
      = if 1000000 ≤ created p % 1000000 + (instant - created p)
        then (carsCreated created cars p).promote else carsCreated created cars p := by
  have hdue := agingDue_iff_boundary created cars instant p
  show (agingScan _ _ _) p = _
  rw [agingScan_apply]
  by_cases hboundary : 1000000 ≤ created p % 1000000 + (instant - created p)
  · rw [if_pos ⟨hp, hdue.mpr ⟨hzero, hboundary⟩⟩, if_pos hboundary]
  · rw [if_neg (fun h => hboundary (hdue.mp h.2).2), if_neg hboundary]

/-- Only those are promoted. -/
theorem of_pass_promoted
    (h : ((monitorPass (time instant) pq (carsCreated created cars)).2 p).priority
      ≠ (carsCreated created cars p).priority) :
    p ∈ pq.live ∧ (cars p).priority = 0 ∧
      1000000 ≤ created p % 1000000 + (instant - created p) := by
  have hafter : (monitorPass (time instant) pq (carsCreated created cars)).2 p
      = if p ∈ pq.live ∧ agingDue (time instant) (carsCreated created cars p) = true
        then (carsCreated created cars p).promote else carsCreated created cars p :=
    agingScan_apply (time instant) pq (carsCreated created cars) p
  rw [hafter] at h
  split at h
  next hdue => exact ⟨hdue.1, (agingDue_iff_boundary created cars instant p).mp hdue.2⟩
  next => exact absurd rfl h

end pass

/-! ## §3. When the threshold is honoured. -/

/-- **THE THRESHOLD IS HONOURED EXACTLY IN PHASE.**  A pass at `instant`
promotes the regular cars that have waited for 0.4 s, and no others, if and
only if for each regular car of the queue a second begins between its creation
and the pass exactly when these are 0.4 s apart. -/
theorem threshold_honoured_iff [DecidableEq ρ] (created : ρ → Int) (cars : Heap ρ)
    (pq : PriorityQueue ρ K) (instant : Int) :
    HonoursThreshold created instant pq (carsCreated created cars)
      ↔ ∀ p ∈ pq.live, (cars p).priority = 0 → InPhase (created p) instant := by
  unfold HonoursThreshold InPhase
  constructor
  · intro ⟨hregular, hpromoted⟩ p hp hzero
    have hpass := pass_of_boundary created cars pq instant p hp hzero
    constructor
    · intro hboundary
      rw [if_pos hboundary] at hpass
      refine (threshold_le_elapsed instant (created p)).mp (hpromoted p ?_)
      rw [hpass]
      show (1 : Int) ≠ (cars p).priority
      omega
    · -- otherwise the car would still be regular
      intro hwaited
      by_contra hsame
      rw [if_neg hsame] at hpass
      have hlt := hregular p ((mem_live_pass created cars pq instant p).mpr hp)
        (by rw [hpass]; exact hzero)
      exact absurd ((threshold_le_elapsed instant (created p)).mpr hwaited) (not_le.mpr hlt)
  · intro hphase
    constructor
    · intro p hp hregular
      have hlive := (mem_live_pass created cars pq instant p).mp hp
      have hzero : (cars p).priority = 0 := by
        -- a car that the pass leaves regular was regular before
        by_contra hne
        have hkept : ((monitorPass (time instant) pq (carsCreated created cars)).2 p).priority
            = (carsCreated created cars p).priority := by
          by_contra hchanged
          exact hne (of_pass_promoted created cars pq instant p hchanged).2.1
        exact hne (hkept.symm.trans hregular)
      rw [← not_le, threshold_le_elapsed, ← hphase p hlive hzero]
      intro hboundary
      rw [pass_of_boundary created cars pq instant p hlive hzero, if_pos hboundary] at hregular
      exact absurd (show (1 : Int) = 0 from hregular) one_ne_zero
    · intro p hne
      obtain ⟨hlive, hzero, hboundary⟩ := of_pass_promoted created cars pq instant p hne
      exact (threshold_le_elapsed instant (created p)).mpr
        ((hphase p hlive hzero).mp hboundary)

/-- Created at 0.1 s, looked at 0.8 s later in the same second: still regular.
Created at 0.9 s, looked at 0.1 s later: promoted. -/
theorem threshold_not_honoured :
    (¬ HonoursThreshold (fun _ : Fin 1 => 100000) 900000
      (⟨1, #v[0], by decide⟩ : PriorityQueue (Fin 1) 1)
      (carsCreated (fun _ => 100000) fun _ => ⟨1, 0, 0⟩)) ∧
    (¬ HonoursThreshold (fun _ : Fin 1 => 900000) 1000000
      (⟨1, #v[0], by decide⟩ : PriorityQueue (Fin 1) 1)
      (carsCreated (fun _ => 900000) fun _ => ⟨1, 0, 0⟩)) := by
  constructor
  · intro h
    have hlt := h.1 0 (by decide) (by decide +kernel)
    rw [← not_le, threshold_le_elapsed] at hlt
    exact hlt (show (400000 : Int) ≤ 900000 - 100000 by omega)
  · intro h
    have hle := h.2 0 (by decide +kernel)
    rw [threshold_le_elapsed] at hle
    exact absurd (show (400000 : Int) ≤ 1000000 - 900000 from hle) (by omega)

end ConcurrencyCrypto.Garage
