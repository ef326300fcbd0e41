/-
  ConcurrencyCrypto.Philosophers.Invariant
  ────────────────────────────────────────
  **NEIGHBOURS NEVER EAT TOGETHER, AND NOBODY IS FORGOTTEN.**

  The state array is a table of claims in conflict along the ring: `test`
  looks at one of them, and the two sections are the operations of the
  general theory.  A credit on `eaters[i]` stands for an EATING philosopher
  that has not passed its `sem_wait` yet, so the right to eat and the state
  EATING are the same thing seen at two times.
-/
import ConcurrencyCrypto.Philosophers.Machine

namespace ConcurrencyCrypto.Philosophers

open ConcurrencyCrypto.Library

variable {N : Nat}

/-! ## §1. The table as claims in conflict. -/

/-- What an entry of the state array says. -/
def phaseOf (x : Int32) : Phase :=
  if x = HUNGRY then .waiting else if x = EATING then .granted else .idle

def Table.phase (t : Table N) (i : Fin N) : Phase := phaseOf (t.state i)

theorem phaseOf_waiting_iff {x : Int32} : phaseOf x = .waiting ↔ x = HUNGRY := by
  unfold phaseOf
  split
  next h => exact ⟨fun _ => h, fun _ => rfl⟩
  next h => split <;> exact ⟨nofun, fun hc => absurd hc h⟩

theorem phaseOf_granted_iff {x : Int32} : phaseOf x = .granted ↔ x = EATING := by
  unfold phaseOf
  split
  next h => exact ⟨nofun, fun hc => absurd (h.symm.trans hc) (by decide)⟩
  next h =>
    split
    next h' => exact ⟨fun _ => h', fun _ => rfl⟩
    next h' => exact ⟨nofun, fun hc => absurd hc h'⟩

theorem phaseOf_idle_iff {x : Int32} : phaseOf x = .idle ↔ x ≠ HUNGRY ∧ x ≠ EATING := by
  unfold phaseOf
  split
  next h => exact ⟨nofun, fun hc => absurd h hc.1⟩
  next h =>
    split
    next h' => exact ⟨nofun, fun hc => absurd h' hc.2⟩
    next h' => exact ⟨fun _ => ⟨h, h'⟩, fun _ => rfl⟩

theorem phase_setState (t : Table N) (i : Fin N) (x : Int32) :
    (t.setState i x).phase = Function.update t.phase i (phaseOf x) := by
  funext j
  show phaseOf (Function.update t.state i x j) = _
  by_cases hj : j = i
  · rw [hj, Function.update_self, Function.update_self]
  · rw [Function.update_of_ne hj, Function.update_of_ne hj]
    rfl

/-- **`test` looks at one claim.** -/
theorem phase_test (t : Table N) (i : Fin N) :
    (test t i).phase = tryGrant Neighbours t.phase i := by
  have hfree : Free Neighbours t.phase i
      ↔ ¬ t.state (LEFT i) = EATING ∧ ¬ t.state (RIGHT i) = EATING := by
    constructor
    · intro h
      exact ⟨fun hc => h _ (Or.inl rfl) (phaseOf_granted_iff.mpr hc),
        fun hc => h _ (Or.inr rfl) (phaseOf_granted_iff.mpr hc)⟩
    · rintro ⟨hl, hr⟩ j hj hg
      have hg := phaseOf_granted_iff.mp hg
      rcases hj with rfl | rfl
      · exact hl hg
      · exact hr hg
  unfold test tryGrant
  by_cases hhungry : t.state i = HUNGRY
  · rw [if_pos hhungry]
    have hwait : t.phase i = .waiting := phaseOf_waiting_iff.mpr hhungry
    split
    next hlr =>
      rw [if_pos ⟨hwait, hfree.mpr hlr⟩]
      exact phase_setState t i EATING
    next hlr => rw [if_neg (fun hc => hlr (hfree.mp hc.2))]
  · rw [if_neg hhungry, if_neg (fun hc => hhungry (phaseOf_waiting_iff.mp hc.1))]

/-- Taking sticks is a request. -/
theorem phase_takeSection (t : Table N) (i : Fin N) :
    (takeSection t i).phase
      = tryAll Neighbours (Function.update t.phase i .waiting) [i] := by
  show (test (t.setState i HUNGRY) i).phase
    = tryGrant Neighbours (Function.update t.phase i .waiting) i
  rw [phase_test, phase_setState]
  rfl

/-- Putting them down is a release that looks at both neighbours. -/
theorem phase_putSection (t : Table N) (i : Fin N) :
    (putSection t i).phase
      = tryAll Neighbours (Function.update t.phase i .idle) [LEFT i, RIGHT i] := by
  show (test (test (t.setState i THINKING) (LEFT i)) (RIGHT i)).phase
    = tryGrant Neighbours
        (tryGrant Neighbours (Function.update t.phase i .idle) (LEFT i)) (RIGHT i)
  rw [phase_test, phase_test, phase_setState]
  rfl

theorem settled_takeSection (hN : 2 ≤ N) {t : Table N} (h : Settled Neighbours t.phase)
    {i : Fin N} (hi : t.phase i = .idle) : Settled Neighbours (takeSection t i).phase := by
  rw [phase_takeSection]
  exact h.request (fun _ _ => Neighbours.symm) (fun _ hc => hc.ne hN rfl) hi

theorem settled_putSection (hN : 2 ≤ N) {t : Table N} (h : Settled Neighbours t.phase)
    (i : Fin N) : Settled Neighbours (putSection t i).phase := by
  rw [phase_putSection]
  refine h.release (fun _ _ => Neighbours.symm) (fun _ hc => hc.ne hN rfl) i ?_
  intro u hu
  rcases hu.symm with rfl | rfl
  · exact List.mem_cons_self
  · exact List.mem_cons_of_mem _ List.mem_cons_self

/-! ## §2. Credits. -/

/-- The philosopher is EATING. -/
def Table.eating (t : Table N) (i : Fin N) : Nat := if t.state i = EATING then 1 else 0

theorem eating_setState_self (t : Table N) (i : Fin N) {x : Int32} (hx : x ≠ EATING) :
    (t.setState i x).eating i = 0 := by
  show (if Function.update t.state i x i = EATING then 1 else 0) = 0
  rw [Function.update_self, if_neg hx]

theorem eating_setState_of_ne (t : Table N) {i j : Fin N} (hj : j ≠ i) (x : Int32) :
    (t.setState i x).eating j = t.eating j := by
  show (if Function.update t.state i x j = EATING then 1 else 0) = t.eating j
  rw [Function.update_of_ne hj]
  rfl

/-- **Every new EATING comes with one credit.** -/
theorem credit_test (t : Table N) (i j : Fin N) :
    (test t i).eaters j + t.eating j = t.eaters j + (test t i).eating j := by
  unfold test
  split
  next hhungry =>
    split
    next =>
      by_cases hj : j = i
      · subst hj
        have hzero : t.eating j = 0 := by
          unfold Table.eating
          rw [hhungry]
          rfl
        rw [hzero]
        show Function.update t.eaters j (t.eaters j + 1) j + 0
          = t.eaters j + if Function.update t.state j EATING j = EATING then 1 else 0
        rw [Function.update_self, Function.update_self, if_pos rfl]
      · show Function.update t.eaters i (t.eaters i + 1) j + t.eating j
          = t.eaters j + (t.setState i EATING).eating j
        rw [Function.update_of_ne hj, eating_setState_of_ne t hj]
    next => rfl
  next => rfl

/-- A table whose credits, with what has been consumed of them, are those of
the EATING philosophers. -/
def Balanced (t : Table N) (consumed : Fin N → Bool) : Prop :=
  ∀ i, t.eaters i + (consumed i).toNat = t.eating i

theorem Balanced.test {t : Table N} {consumed : Fin N → Bool} (h : Balanced t consumed)
    (i : Fin N) : Balanced (Philosophers.test t i) consumed := by
  intro j
  have := credit_test t i j
  have := h j
  omega

theorem Balanced.takeSection {t : Table N} {consumed : Fin N → Bool}
    (h : Balanced t consumed) {i : Fin N} (hi : t.phase i = .idle) :
    Balanced (Philosophers.takeSection t i) consumed := by
  refine Balanced.test ?_ i
  intro j
  by_cases hj : j = i
  · subst hj
    have hidle : t.eating j = 0 := if_neg (phaseOf_idle_iff.mp hi).2
    rw [eating_setState_self t j (by decide), ← hidle]
    exact h j
  · rw [eating_setState_of_ne t hj]
    exact h j

/-- Who puts the sticks down has consumed its credit. -/
theorem Balanced.putSection {t : Table N} {consumed : Fin N → Bool}
    (h : Balanced t consumed) {i : Fin N} (hi : consumed i = true) :
    Balanced (Philosophers.putSection t i) (Function.update consumed i false) := by
  refine Balanced.test (Balanced.test ?_ _) _
  intro j
  by_cases hj : j = i
  · subst hj
    have hj := h j
    have hle : t.eating j ≤ 1 := by unfold Table.eating; split <;> omega
    rw [hi, Bool.toNat_true] at hj
    rw [eating_setState_self t j (by decide), Function.update_self]
    show t.eaters j + 0 = 0
    omega
  · rw [eating_setState_of_ne t hj, Function.update_of_ne hj]
    exact h j

/-! ## §3. The invariant. -/

/-- The philosophers' own view: who has consumed a credit. -/
def State.consumed (s : State N) (i : Fin N) : Bool := (s.pc i).holding

/-- **The invariant.** -/
structure Invariant (s : State N) : Prop where
  mutex : Conserved s.mutex (fun i => (s.pc i).inside.toNat) 1
  settled : Settled Neighbours s.table.phase
  balanced : Balanced s.table s.consumed
  engaged : ∀ i, s.table.phase i = .idle ↔ (s.pc i).engaged = false

/-- No entry of the initial state array reads as HUNGRY or EATING. -/
theorem invariant_start {state : Fin N → Int32}
    (h : ∀ i, state i ≠ HUNGRY ∧ state i ≠ EATING) : Invariant (State.start state) := by
  have hidle : ∀ i, (State.start state).table.phase i = .idle := fun i =>
    phaseOf_idle_iff.mpr (h i)
  refine ⟨?_, ⟨?_, ?_⟩, ?_, ?_⟩
  · simp [Conserved, State.start, State.quiet, Pc.inside]
  · intro u v _ hu
    rw [hidle] at hu
    cases hu
  · intro v hv
    rw [hidle] at hv
    cases hv
  · intro i
    show 0 = if state i = EATING then 1 else 0
    rw [if_neg (h i).2]
  · exact fun i => ⟨fun _ => rfl, fun _ => hidle i⟩

section step
variable {s : State N} {i : Fin N}

/-- What a new label has in common with the old one, no philosopher loses. -/
theorem consumed_goto (s : State N) (i : Fin N) (pc : Pc) :
    (s.goto i pc).consumed = Function.update s.consumed i pc.holding := by
  funext j
  show (Function.update s.pc i pc j).holding = _
  by_cases hj : j = i
  · rw [hj, Function.update_self, Function.update_self]
  · rw [Function.update_of_ne hj, Function.update_of_ne hj]
    rfl

theorem Invariant.mutex_goto (h : Invariant s) {m : Nat} {pc : Pc}
    (hm : m + pc.inside.toNat = s.mutex + (s.pc i).inside.toNat) :
    Conserved m (fun j => (Function.update s.pc i pc j).inside.toNat) 1 := by
  refine h.mutex.move i ?_ ?_
  · intro j hj
    rw [Function.update_of_ne hj]
  · rw [Function.update_self]
    exact hm

theorem Invariant.engaged_goto (h : Invariant s) {t : Table N} {pc : Pc}
    (ht : ∀ j, j ≠ i → (t.phase j = .idle ↔ s.table.phase j = .idle))
    (hi : t.phase i = .idle ↔ pc.engaged = false) (j : Fin N) :
    t.phase j = .idle ↔ (Function.update s.pc i pc j).engaged = false := by
  by_cases hj : j = i
  · rw [hj, Function.update_self]
    exact hi
  · rw [Function.update_of_ne hj, ht j hj]
    exact h.engaged j

/-- A step that leaves the table and what the label says of it alone. -/
theorem Invariant.moved (h : Invariant s) {m : Nat} {pc : Pc}
    (hm : m + pc.inside.toNat = s.mutex + (s.pc i).inside.toNat)
    (hhold : pc.holding = (s.pc i).holding) (heng : pc.engaged = (s.pc i).engaged) :
    Invariant ({ s with mutex := m }.goto i pc) where
  mutex := h.mutex_goto hm
  settled := h.settled
  balanced := by
    rw [consumed_goto, Function.update_eq_self_iff.mpr hhold]
    exact h.balanced
  engaged := h.engaged_goto (fun j _ => Iff.rfl) (by rw [heng]; exact h.engaged i)

theorem Invariant.took (hN : 2 ≤ N) (h : Invariant s) (hpc : s.pc i = .takeSection) :
    Invariant ({ s with table := takeSection s.table i }.goto i .takeUnlock) := by
  have hidle : s.table.phase i = .idle := (h.engaged i).mpr (by rw [hpc]; rfl)
  refine ⟨h.mutex_goto (by rw [hpc]; rfl), settled_takeSection hN h.settled hidle, ?_, ?_⟩
  · rw [consumed_goto, Function.update_eq_self_iff.mpr (by
      show false = (s.pc i).holding
      rw [hpc]
      rfl)]
    exact h.balanced.takeSection hidle
  · have hphase : ∀ j, (takeSection s.table i).phase j = .idle
        ↔ Function.update s.table.phase i .waiting j = .idle := by
      intro j
      rw [phase_takeSection]
      exact tryAll_idle_iff [i] _ j
    refine h.engaged_goto (t := takeSection s.table i) ?_ ?_
    · intro j hj
      rw [hphase, Function.update_of_ne hj]
    · rw [hphase, Function.update_self]
      exact ⟨nofun, nofun⟩

/-- The credit goes from the semaphore to the philosopher. -/
theorem Invariant.passed (h : Invariant s) (hpc : s.pc i = .takeWait)
    (hpos : 0 < s.table.eaters i) :
    Invariant ({ s with table := { s.table with
      eaters := Function.update s.table.eaters i (s.table.eaters i - 1) } }.goto i .eat) := by
  refine ⟨h.mutex_goto (by rw [hpc]; rfl), h.settled, ?_, ?_⟩
  · rw [consumed_goto]
    intro j
    have hj := h.balanced j
    show Function.update s.table.eaters i (s.table.eaters i - 1) j
      + (Function.update s.consumed i true j).toNat = s.table.eating j
    by_cases hji : j = i
    · subst hji
      have hnot : s.consumed j = false := by
        show (s.pc j).holding = false
        rw [hpc]
        rfl
      rw [hnot, Bool.toNat_false] at hj
      rw [Function.update_self, Function.update_self, Bool.toNat_true]
      omega
    · rw [Function.update_of_ne hji, Function.update_of_ne hji]
      exact hj
  · exact h.engaged_goto (t := s.table) (fun j _ => Iff.rfl)
      (by rw [h.engaged i, hpc]; exact Iff.rfl)

theorem Invariant.put (hN : 2 ≤ N) (h : Invariant s) (hpc : s.pc i = .putSection) :
    Invariant ({ s with table := putSection s.table i }.goto i .putUnlock) := by
  refine ⟨h.mutex_goto (by rw [hpc]; rfl), settled_putSection hN h.settled i, ?_, ?_⟩
  · rw [consumed_goto]
    refine h.balanced.putSection ?_
    show (s.pc i).holding = true
    rw [hpc]
    rfl
  · have hphase : ∀ j, (putSection s.table i).phase j = .idle
        ↔ Function.update s.table.phase i .idle j = .idle := by
      intro j
      rw [phase_putSection]
      exact tryAll_idle_iff _ _ j
    refine h.engaged_goto (t := putSection s.table i) ?_ ?_
    · intro j hj
      rw [hphase, Function.update_of_ne hj]
    · rw [hphase, Function.update_self]
      exact ⟨fun _ => rfl, fun _ => rfl⟩

/-- **Every step keeps the invariant.** -/
theorem Invariant.next (hN : 2 ≤ N) (h : Invariant s) {s' : State N}
    (hstep : step s i = some s') : Invariant s' := by
  unfold step at hstep
  split at hstep
  next hpc =>
    injection hstep with hstep
    rw [← hstep]
    exact h.moved (by rw [hpc]; rfl) (by rw [hpc]; rfl) (by rw [hpc]; rfl)
  next hpc =>
    split at hstep
    · cases hstep
    · injection hstep with hstep
      rw [← hstep]
      refine h.moved ?_ (by rw [hpc]; rfl) (by rw [hpc]; rfl)
      rw [hpc]
      show s.mutex - 1 + 1 = s.mutex + 0
      omega
  next hpc =>
    injection hstep with hstep
    rw [← hstep]
    exact h.took hN hpc
  next hpc =>
    injection hstep with hstep
    rw [← hstep]
    exact h.moved (by rw [hpc]; rfl) (by rw [hpc]; rfl) (by rw [hpc]; rfl)
  next hpc =>
    split at hstep
    · cases hstep
    · injection hstep with hstep
      rw [← hstep]
      exact h.passed hpc (by omega)
  next hpc =>
    injection hstep with hstep
    rw [← hstep]
    exact h.moved (by rw [hpc]; rfl) (by rw [hpc]; rfl) (by rw [hpc]; rfl)
  next hpc =>
    split at hstep
    · cases hstep
    · injection hstep with hstep
      rw [← hstep]
      refine h.moved ?_ (by rw [hpc]; rfl) (by rw [hpc]; rfl)
      rw [hpc]
      show s.mutex - 1 + 1 = s.mutex + 0
      omega
  next hpc =>
    injection hstep with hstep
    rw [← hstep]
    exact h.put hN hpc
  next hpc =>
    injection hstep with hstep
    rw [← hstep]
    exact h.moved (by rw [hpc]; rfl) (by rw [hpc]; rfl) (by rw [hpc]; rfl)

end step

end ConcurrencyCrypto.Philosophers
