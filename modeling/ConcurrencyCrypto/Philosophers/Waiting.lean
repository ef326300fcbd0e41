/-
  ConcurrencyCrypto.Philosophers.Waiting
  ──────────────────────────────────────
  **HOW LONG A HUNGRY PHILOSOPHER CAN WAIT.**

  `put_sticks` looks at both neighbours, but only at that moment.  On a ring
  of two or three the neighbours of a philosopher keep each other from eating,
  so its turn comes behind at most one meal of another.  From four on they do
  not sit next to each other and can take turns for ever.

    • `waiting_of_ring` — a HUNGRY philosopher sees at most one meal end on
                          rings of two and three, and any number on all others.
-/
import ConcurrencyCrypto.Philosophers.Start

namespace ConcurrencyCrypto.Philosophers

open ConcurrencyCrypto.Library

variable {N : Nat}

/-! ## §1. Runs in which a philosopher stays HUNGRY. -/

/-- The meals that end with a step of philosopher `j`: sticks put down. -/
def State.meal (s : State N) (j : Fin N) : Fin N → Nat :=
  if s.pc j = .putSection then Pi.single j 1 else 0

/-- A run from `s` to `s'` in which `i` is HUNGRY all the time, with the meals
that the others end. -/
inductive HungryRun (i : Fin N) (s : State N) : State N → (Fin N → Nat) → Prop where
  | start (h : s.table.state i = HUNGRY) : HungryRun i s s 0
  | next {s' s'' : State N} {meals : Fin N → Nat} {j : Fin N} (h : HungryRun i s s' meals)
      (hstep : step s' j = some s'') (hungry : s''.table.state i = HUNGRY) :
      HungryRun i s s'' (meals + s'.meal j)

namespace HungryRun
variable {i : Fin N} {s s' s'' : State N} {meals meals' : Fin N → Nat}

theorem hungry (h : HungryRun i s s' meals) : s'.table.state i = HUNGRY := by
  cases h with
  | start h => exact h
  | next _ _ h => exact h

theorem trans (h : HungryRun i s s' meals) (h' : HungryRun i s' s'' meals') :
    HungryRun i s s'' (meals + meals') := by
  induction h' with
  | start _ =>
      rw [add_zero]
      exact h
  | next _ hstep hungry ih =>
      rw [← add_assoc]
      exact ih.next hstep hungry

/-- A step that does not end a meal. -/
theorem quiet {j : Fin N} (h : HungryRun i s s' meals) (hstep : step s' j = some s'')
    (hpc : s'.pc j ≠ .putSection) (hungry : s''.table.state i = HUNGRY) :
    HungryRun i s s'' meals := by
  have hnext := h.next hstep hungry
  have hmeal : s'.meal j = 0 := if_neg hpc
  rw [hmeal, add_zero] at hnext
  exact hnext

end HungryRun

/-! ## §2. What `test` and the sections do to an entry. -/

section table
variable {t : Table N} {i j : Fin N}

theorem test_of_not_hungry (h : t.state i ≠ HUNGRY) : test t i = t := by
  unfold test
  rw [if_neg h]

theorem test_of_blocked (h : t.state (LEFT i) = EATING ∨ t.state (RIGHT i) = EATING) :
    test t i = t := by
  unfold test
  split
  · rw [if_neg]
    intro hc
    exact h.elim hc.1 hc.2
  · rfl

theorem test_state_of_ne (hij : i ≠ j) : (test t j).state i = t.state i := by
  unfold test
  split
  · split
    · exact Function.update_of_ne hij _ _
    · rfl
  · rfl

/-- An entry that is HUNGRY behind its test is blocked. -/
theorem blocked_of_test (h : (test t i).state i = HUNGRY) :
    t.state (LEFT i) = EATING ∨ t.state (RIGHT i) = EATING := by
  by_contra hnone
  obtain ⟨hl, hr⟩ := not_or.mp hnone
  by_cases hi : t.state i = HUNGRY
  · rw [test_of_free hi hl hr] at h
    exact absurd (h.symm.trans (Function.update_self i EATING t.state)) (by decide)
  · rw [test_of_not_hungry hi] at h
    exact hi h

theorem setState_of_ne (hij : i ≠ j) (x : Int32) : (t.setState j x).state i = t.state i :=
  Function.update_of_ne hij _ _

theorem setState_self (x : Int32) : (t.setState j x).state j = x :=
  Function.update_self _ _ _

end table

/-! ## §3. Two or three philosophers. -/

section small
variable {s s' : State N} {i j : Fin N}

/-- On a ring of two or three, the neighbours of `i` are the same or sit next
to each other, and there is nobody else. -/
theorem small_ring (hN : 2 ≤ N) (hsmall : N ≤ 3) (i : Fin N) :
    (LEFT i = RIGHT i ∨ Neighbours (RIGHT i) (LEFT i)) ∧
      (∀ j, j = i ∨ j = LEFT i ∨ j = RIGHT i) := by
  have hcases : N = 2 ∨ N = 3 := by omega
  rcases hcases with rfl | rfl
  · revert i
    unfold Neighbours
    decide
  · revert i
    unfold Neighbours
    decide

/-- **The next meal decides.**  Once the right neighbour eats, it is the only
one that can put sticks down, and then `i` is served first. -/
theorem no_meal_of_right_eats (hN : 2 ≤ N) (hsmall : N ≤ 3) (hinv : Invariant s)
    (hi : s.table.state i = HUNGRY) (hright : s.table.state (RIGHT i) = EATING)
    (hpc : s.pc j = .putSection) : (putSection s.table j).state i ≠ HUNGRY := by
  have heating : s.table.state j = EATING :=
    (hinv.eating_iff j).mpr (Or.inr (by rw [hpc]; rfl))
  obtain ⟨hring, hall⟩ := small_ring hN hsmall i
  -- so it is the right neighbour
  have hj : j = RIGHT i := by
    rcases hall j with rfl | rfl | rfl
    · exact absurd (hi.symm.trans heating) (by decide)
    · rcases hring with heq | hnext
      · exact heq
      · exact absurd (phaseOf_granted_iff.mpr heating)
          (hinv.settled.exclusive _ _ hnext (phaseOf_granted_iff.mpr hright))
    · rfl
  have hleft : ((s.table.setState j THINKING).state (LEFT i)) ≠ EATING := by
    rcases hring with heq | hnext
    · rw [heq, ← hj, setState_self]
      decide
    · rw [setState_of_ne (by rw [hj]; exact (hnext.ne hN).symm)]
      intro hc
      exact hinv.settled.exclusive _ _ hnext (phaseOf_granted_iff.mpr hright)
        (phaseOf_granted_iff.mpr hc)
  have hij : i ≠ j := by
    rw [hj]
    exact (RIGHT_ne hN i).symm
  have hstate : (s.table.setState j THINKING).state i = HUNGRY := by
    rw [setState_of_ne hij]
    exact hi
  have hserved : (test (s.table.setState j THINKING) i).state i = EATING := by
    rw [test_of_free hstate hleft (by rw [← hj, setState_self]; decide)]
    exact Function.update_self _ _ _
  unfold putSection
  have hLEFT : LEFT j = i := by rw [hj, LEFT_RIGHT]
  rw [hLEFT]
  -- the second test is of another entry, or finds the claim granted
  intro hc
  by_cases hagain : i = RIGHT j
  · rw [← hagain, test_of_not_hungry (by rw [hserved]; decide), hserved] at hc
    exact absurd hc (by decide)
  · rw [test_state_of_ne hagain, hserved] at hc
    exact absurd hc (by decide)

/-- A meal of the left neighbour that leaves `i` HUNGRY was followed by a grant
to the right one. -/
theorem right_eats_of_meal (hN : 2 ≤ N) (hsmall : N ≤ 3) (hinv : Invariant s)
    (hi : s.table.state i = HUNGRY) (hpc : s.pc j = .putSection)
    (hungry : (putSection s.table j).state i = HUNGRY) :
    (putSection s.table j).state (RIGHT i) = EATING := by
  have heating : s.table.state j = EATING :=
    (hinv.eating_iff j).mpr (Or.inr (by rw [hpc]; rfl))
  have hij : j ≠ i := by
    intro heq
    rw [heq] at heating
    exact absurd (hi.symm.trans heating) (by decide)
  have hright : j ≠ RIGHT i := by
    intro heq
    rw [heq] at heating
    exact no_meal_of_right_eats hN hsmall hinv hi heating hpc hungry
  have hj : j = LEFT i := ((small_ring hN hsmall i).2 j).resolve_left hij |>.resolve_right hright
  have hRIGHT : RIGHT j = i := by rw [hj, RIGHT_LEFT]
  unfold putSection at hungry ⊢
  rw [hRIGHT] at hungry ⊢
  have hsame : ∀ k, k ≠ i → (test (test (s.table.setState j THINKING) (LEFT j)) i).state k
      = (test (s.table.setState j THINKING) (LEFT j)).state k :=
    fun k hk => test_state_of_ne hk
  rw [hsame _ (RIGHT_ne hN i)]
  refine (blocked_of_test hungry).resolve_left ?_
  -- the left neighbour has just put its sticks down
  rw [← hj]
  by_cases hself : j = LEFT j
  · exact absurd hself (Neighbours.ne hN (Or.inl rfl))
  · rw [test_state_of_ne hself, setState_self]
    decide

/-- Steps that end no meal leave EATING entries alone. -/
theorem eating_of_quiet (hstep : step s j = some s') (hpc : s.pc j ≠ .putSection) {k : Fin N}
    (hinv : Invariant s) (hk : s.table.state k = EATING) : s'.table.state k = EATING := by
  unfold step at hstep
  split at hstep
  next =>
    injection hstep with hstep
    rw [← hstep]
    exact hk
  next =>
    split at hstep
    · cases hstep
    · injection hstep with hstep
      rw [← hstep]
      exact hk
  next hsection =>
    injection hstep with hstep
    rw [← hstep]
    -- whoever takes sticks was not EATING
    have hidle : s.table.phase j = .idle := (hinv.engaged j).mpr (by rw [hsection]; rfl)
    have hkj : k ≠ j := by
      intro heq
      rw [heq] at hk
      exact (phaseOf_idle_iff.mp hidle).2 hk
    show (test (s.table.setState j HUNGRY) j).state k = EATING
    rw [test_state_of_ne hkj, setState_of_ne hkj]
    exact hk
  next =>
    injection hstep with hstep
    rw [← hstep]
    exact hk
  next =>
    split at hstep
    · cases hstep
    · injection hstep with hstep
      rw [← hstep]
      exact hk
  next =>
    injection hstep with hstep
    rw [← hstep]
    exact hk
  next =>
    split at hstep
    · cases hstep
    · injection hstep with hstep
      rw [← hstep]
      exact hk
  next hsection => exact absurd hsection hpc
  next =>
    injection hstep with hstep
    rw [← hstep]
    exact hk

theorem step_putSection (hpc : s.pc j = .putSection) (hstep : step s j = some s') :
    s'.table = putSection s.table j := by
  unfold step at hstep
  rw [hpc] at hstep
  injection hstep with hstep
  rw [← hstep]
  rfl

/-- **At most one meal**, and behind it the right neighbour eats. -/
theorem HungryRun.meals_le (hN : 2 ≤ N) (hsmall : N ≤ 3) {meals : Fin N → Nat}
    (hinv : Invariant s) (h : HungryRun i s s' meals) :
    Invariant s' ∧ ∑ j, meals j ≤ 1 ∧
      (∑ j, meals j = 1 → s'.table.state (RIGHT i) = EATING) := by
  induction h with
  | start _ =>
      refine ⟨hinv, ?_, ?_⟩
      · simp
      · simp
  | @next s' s'' meals j h hstep hungry ih =>
      obtain ⟨hinv', hle, heats⟩ := ih
      refine ⟨hinv'.next hN hstep, ?_⟩
      by_cases hpc : s'.pc j = .putSection
      · have htable := step_putSection hpc hstep
        rw [htable] at hungry ⊢
        have hmeal : s'.meal j = Pi.single j 1 := if_pos hpc
        have hsum : ∑ k, (meals + s'.meal j) k = ∑ k, meals k + 1 := by
          rw [hmeal]
          show ∑ k, (meals k + (Pi.single j 1 : Fin N → Nat) k) = _
          rw [Finset.sum_add_distrib, Finset.sum_pi_single']
          simp
        rw [hsum]
        -- a first meal; there is no second
        have hzero : ∑ k, meals k = 0 := by
          by_contra hne
          exact no_meal_of_right_eats hN hsmall hinv' h.hungry (heats (by omega)) hpc hungry
        rw [hzero]
        exact ⟨Nat.le_refl _, fun _ =>
          right_eats_of_meal hN hsmall hinv' h.hungry hpc hungry⟩
      · have hmeal : s'.meal j = 0 := if_neg hpc
        rw [hmeal, add_zero]
        exact ⟨hle, fun hone => eating_of_quiet hstep hpc hinv' (heats hone)⟩

end small

/-! ## §4. Four or more. -/

section large
variable {i j : Fin N} {t : Table N} {pc : Fin N → Pc}

/-- Philosopher `j` is at `p`, the others where `pc` says. -/
def State.turn (pc : Fin N → Pc) (t : Table N) (j : Fin N) (m : Nat) (p : Pc) : State N :=
  { mutex := m, table := t, pc := Function.update pc j p }

@[simp] theorem turn_pc (m : Nat) (p : Pc) : (State.turn pc t j m p).pc j = p :=
  Function.update_self _ _ _

@[simp] theorem turn_table (m : Nat) (p : Pc) : (State.turn pc t j m p).table = t := rfl

@[simp] theorem turn_mutex (m : Nat) (p : Pc) : (State.turn pc t j m p).mutex = m := rfl

@[simp] theorem turn_goto (m m' : Nat) (t' : Table N) (p p' : Pc) :
    ({ mutex := m', table := t', pc := (State.turn pc t j m p).pc } : State N).goto j p'
      = State.turn pc t' j m' p' := by
  unfold State.goto State.turn
  rw [Function.update_idem]

@[simp] theorem turn_goto_self (m : Nat) (p p' : Pc) :
    (State.turn pc t j m p).goto j p' = State.turn pc t j m p' := by
  unfold State.goto State.turn
  rw [Function.update_idem]

theorem turn_eq {p : Pc} (h : pc j = p) (m : Nat) :
    State.turn pc t j m p = { mutex := m, table := t, pc := pc } := by
  unfold State.turn
  rw [Function.update_eq_self_iff.mpr h.symm]

/-- Where the neighbours do not eat, a request is granted. -/
theorem takeSection_granted (hN : 2 ≤ N) (hcredit : t.eaters j = 0)
    (hl : t.state (LEFT j) ≠ EATING) (hr : t.state (RIGHT j) ≠ EATING) :
    takeSection t j
      = { state := Function.update t.state j EATING
          eaters := Function.update t.eaters j 1 } := by
  have hleft : LEFT j ≠ j := (Neighbours.ne hN (Or.inl rfl)).symm
  unfold takeSection
  rw [test_of_free (setState_self HUNGRY) (by rw [setState_of_ne hleft]; exact hl)
    (by rw [setState_of_ne (RIGHT_ne hN j)]; exact hr)]
  show Table.mk (Function.update (Function.update t.state j HUNGRY) j EATING)
    (Function.update t.eaters j (t.eaters j + 1)) = _
  rw [Function.update_idem, hcredit]

/-- The wait that follows consumes the credit. -/
theorem step_takeWait_granted (hcredit : t.eaters j = 0) (hsection : takeSection t j
      = { state := Function.update t.state j EATING
          eaters := Function.update t.eaters j 1 }) :
    step (State.turn pc (takeSection t j) j 1 .takeWait) j
      = some (State.turn pc (t.setState j EATING) j 1 .eat) := by
  have hback : Function.update t.eaters j (1 - 1) = t.eaters :=
    Function.update_eq_self_iff.mpr hcredit.symm
  have hconsumed : { takeSection t j with
      eaters := Function.update (takeSection t j).eaters j ((takeSection t j).eaters j - 1) }
      = t.setState j EATING := by
    rw [hsection]
    show Table.mk _ (Function.update (Function.update t.eaters j 1) j
      (Function.update t.eaters j 1 j - 1)) = _
    rw [Function.update_self, Function.update_idem, hback]
    rfl
  have hone : (takeSection t j).eaters j ≠ 0 := by
    rw [hsection]
    show Function.update t.eaters j 1 j ≠ 0
    rw [Function.update_self]
    exact Nat.one_ne_zero
  simp only [step, turn_pc, turn_table, if_neg hone, hconsumed, turn_mutex, turn_goto]

/-- Where the neighbours do not eat, `j` alone goes from its thoughts to its
meal. -/
theorem reaches_eat (hN : 2 ≤ N) (hcredit : t.eaters j = 0)
    (hl : t.state (LEFT j) ≠ EATING) (hr : t.state (RIGHT j) ≠ EATING) :
    ReachesBy (· = j) step (State.turn pc t j 1 .think)
      (State.turn pc (t.setState j EATING) j 1 .eat) := by
  refine (reachesBy_of_run [j, j, j, j] (by simp) ?_).tail
    ⟨j, rfl, step_takeWait_granted hcredit (takeSection_granted hN hcredit hl hr)⟩
  simp [runActions, step]

/-- Beside an eating neighbour, `j` goes from its thoughts to its wait. -/
theorem reaches_wait (hN : 2 ≤ N)
    (hblocked : t.state (LEFT j) = EATING ∨ t.state (RIGHT j) = EATING) :
    Reaches step (State.turn pc t j 1 .think)
      (State.turn pc (t.setState j HUNGRY) j 1 .takeWait) := by
  have hleft : LEFT j ≠ j := (Neighbours.ne hN (Or.inl rfl)).symm
  have hsection : takeSection t j = t.setState j HUNGRY := by
    refine test_of_blocked ?_
    rw [setState_of_ne hleft, setState_of_ne (RIGHT_ne hN j)]
    exact hblocked
  refine reaches_of_run [j, j, j, j] ?_
  simp [runActions, step, hsection]

/-- The same beside a philosopher that stays HUNGRY. -/
theorem takes (hN : 2 ≤ N) (hi : t.state i = HUNGRY) (hij : i ≠ j) (hcredit : t.eaters j = 0)
    (hl : t.state (LEFT j) ≠ EATING) (hr : t.state (RIGHT j) ≠ EATING) :
    HungryRun i (State.turn pc t j 1 .think)
      (State.turn pc (t.setState j EATING) j 1 .eat) 0 := by
  have hsection := takeSection_granted hN hcredit hl hr
  have hstays : (takeSection t j).state i = HUNGRY := by
    rw [hsection]
    exact (Function.update_of_ne hij _ _).trans hi
  -- think, lock, section, unlock, and the wait on its own semaphore
  have h0 : HungryRun i (State.turn pc t j 1 .think) (State.turn pc t j 1 .think) 0 := .start hi
  have h1 : HungryRun i _ (State.turn pc t j 1 .takeLock) 0 :=
    h0.quiet (j := j) (by simp [step]) (by simp) hi
  have h2 : HungryRun i _ (State.turn pc t j 0 .takeSection) 0 :=
    h1.quiet (j := j) (by simp [step]) (by simp) hi
  have h3 : HungryRun i _ (State.turn pc (takeSection t j) j 0 .takeUnlock) 0 :=
    h2.quiet (j := j) (by simp [step]) (by simp) hstays
  have h4 : HungryRun i _ (State.turn pc (takeSection t j) j 1 .takeWait) 0 :=
    h3.quiet (j := j) (by simp [step]) (by simp) hstays
  exact h4.quiet (step_takeWait_granted hcredit hsection) (by simp)
    ((setState_of_ne hij EATING).trans hi)

/-- Where `put_sticks` finds nobody to serve, `j` goes from its meal to its
thoughts. -/
theorem puts (hi : t.state i = HUNGRY) (hij : i ≠ j)
    (hnobody : putSection t j = t.setState j THINKING) :
    HungryRun i (State.turn pc t j 1 .eat) (State.turn pc (t.setState j THINKING) j 1 .think)
      (Pi.single j 1) := by
  have hstays : (t.setState j THINKING).state i = HUNGRY := (setState_of_ne hij THINKING).trans hi
  have h0 : HungryRun i (State.turn pc t j 1 .eat) (State.turn pc t j 1 .eat) 0 := .start hi
  have h1 : HungryRun i _ (State.turn pc t j 1 .putLock) 0 :=
    h0.quiet (j := j) (by simp [step]) (by simp) hi
  have h2 : HungryRun i _ (State.turn pc t j 0 .putSection) 0 :=
    h1.quiet (j := j) (by simp [step]) (by simp) hi
  have hmeal : (State.turn pc t j 0 .putSection).meal j = Pi.single j 1 := if_pos (turn_pc 0 _)
  have h3 : HungryRun i _ (State.turn pc (t.setState j THINKING) j 0 .putUnlock)
      (0 + (State.turn pc t j 0 .putSection).meal j) :=
    h2.next (j := j) (by simp [step, hnobody]) hstays
  rw [hmeal, zero_add] at h3
  exact h3.quiet (j := j) (by simp [step]) (by simp) hstays

/-- **A meal beside a HUNGRY philosopher.**  While its other neighbour `k`
eats, `j` ends its meal and begins the next one. -/
theorem meal_beside (hN : 2 ≤ N) {k o : Fin N} (hij : i ≠ j) (hkj : k ≠ j) (hoj : o ≠ j)
    (hsides : (LEFT j = i ∧ RIGHT j = o) ∨ (LEFT j = o ∧ RIGHT j = i))
    (hk : k = LEFT i ∨ k = RIGHT i) (hi : t.state i = HUNGRY) (ho : t.state o = THINKING)
    (hkeats : t.state k = EATING) (hjeats : t.state j = EATING) (hcredit : t.eaters j = 0) :
    HungryRun i (State.turn pc t j 1 .eat) (State.turn pc t j 1 .eat) (Pi.single j 1) := by
  have hi' : (t.setState j THINKING).state i = HUNGRY := (setState_of_ne hij THINKING).trans hi
  have ho' : (t.setState j THINKING).state o = THINKING := (setState_of_ne hoj THINKING).trans ho
  have hk' : (t.setState j THINKING).state k = EATING :=
    (setState_of_ne hkj THINKING).trans hkeats
  have htesti : test (t.setState j THINKING) i = t.setState j THINKING :=
    test_of_blocked (by
      rcases hk with rfl | rfl
      · exact Or.inl hk'
      · exact Or.inr hk')
  have htesto : test (t.setState j THINKING) o = t.setState j THINKING :=
    test_of_not_hungry (by rw [ho']; decide)
  have hi_ne : (t.setState j THINKING).state i ≠ EATING := by
    rw [hi']
    decide
  have ho_ne : (t.setState j THINKING).state o ≠ EATING := by
    rw [ho']
    decide
  have hput : putSection t j = t.setState j THINKING := by
    unfold putSection
    rcases hsides with ⟨hl, hr⟩ | ⟨hl, hr⟩
    · rw [hl, hr, htesti, htesto]
    · rw [hl, hr, htesto, htesti]
  have htakes : HungryRun i (State.turn pc (t.setState j THINKING) j 1 .think)
      (State.turn pc ((t.setState j THINKING).setState j EATING) j 1 .eat) 0 := by
    refine takes hN hi' hij hcredit ?_ ?_
    · rcases hsides with ⟨hl, -⟩ | ⟨hl, -⟩
      · rw [hl]
        exact hi_ne
      · rw [hl]
        exact ho_ne
    · rcases hsides with ⟨-, hr⟩ | ⟨-, hr⟩
      · rw [hr]
        exact ho_ne
      · rw [hr]
        exact hi_ne
  have hback : (t.setState j THINKING).setState j EATING = t := by
    show Table.mk (Function.update (Function.update t.state j THINKING) j EATING) t.eaters = t
    rw [Function.update_idem, Function.update_eq_self_iff.mpr hjeats.symm]
  rw [hback] at htakes
  have hround := (puts hi hij hput).trans htakes
  rw [add_zero] at hround
  exact hround

/-- From four on, all who sit around `i` are different. -/
theorem large_ring (hN : 4 ≤ N) (i : Fin N) :
    LEFT i ≠ RIGHT i ∧ LEFT (LEFT i) ≠ i ∧ LEFT (LEFT i) ≠ RIGHT i ∧
      RIGHT (RIGHT i) ≠ i ∧ RIGHT (RIGHT i) ≠ LEFT i := by
  have hleft : ∀ k : Fin N, (LEFT k).val = if k.val = 0 then N - 1 else k.val - 1 := by
    intro k
    have hk := k.isLt
    show (k.val + N - 1) % N = _
    split
    next h => rw [h, Nat.zero_add, Nat.mod_eq_of_lt (by omega)]
    next h => rw [show k.val + N - 1 = k.val - 1 + N by omega, Nat.add_mod_right,
      Nat.mod_eq_of_lt (by omega)]
  have hright : ∀ k : Fin N, (RIGHT k).val = if k.val + 1 = N then 0 else k.val + 1 := by
    intro k
    have hk := k.isLt
    show (k.val + 1) % N = _
    split
    next h => rw [h, Nat.mod_self]
    next h => exact Nat.mod_eq_of_lt (by omega)
  have hi := i.isLt
  simp only [Ne, Fin.ext_iff, hleft, hright]
  split_ifs <;> omega

/-- Nobody wants to eat. -/
def Table.quiet : Table N := { state := fun _ => THINKING, eaters := fun _ => 0 }

/-- The left neighbour of `i` eats … -/
def Table.leftEats (i : Fin N) : Table N := Table.quiet.setState (LEFT i) EATING

/-- … `i` goes hungry … -/
def Table.betweenWaits (i : Fin N) : Table N := (Table.leftEats i).setState i HUNGRY

/-- … and the right neighbour eats. -/
def Table.bothEat (i : Fin N) : Table N := (Table.betweenWaits i).setState (RIGHT i) EATING

/-- Where the philosophers are then. -/
def leftAtMeal (i : Fin N) : Fin N → Pc := Function.update (fun _ => .think) (LEFT i) .eat

def betweenAtWait (i : Fin N) : Fin N → Pc := Function.update (leftAtMeal i) i .takeWait

def bothAtMeal (i : Fin N) : Fin N → Pc := Function.update (betweenAtWait i) (RIGHT i) .eat

/-- The state in which they are. -/
def State.bothAtMeals (i : Fin N) : State N :=
  { mutex := 1, table := .bothEat i, pc := bothAtMeal i }

theorem leftEats_left (i : Fin N) : (Table.leftEats i).state (LEFT i) = EATING :=
  setState_self _

theorem betweenWaits_between (i : Fin N) : (Table.betweenWaits i).state i = HUNGRY :=
  setState_self _

theorem turn_right (i : Fin N) :
    State.turn (bothAtMeal i) (.bothEat i) (RIGHT i) 1 .eat = .bothAtMeals i :=
  turn_eq (Function.update_self _ _ _) 1

section beside
variable (hN : 4 ≤ N) (i : Fin N)
include hN

theorem betweenWaits_behind : (Table.betweenWaits i).state (RIGHT (RIGHT i)) = THINKING :=
  have hring := large_ring hN i
  (setState_of_ne hring.2.2.2.1 HUNGRY).trans (setState_of_ne hring.2.2.2.2 EATING)

/-- What the table says around `i`, from left to right. -/
theorem bothEat_around : (Table.bothEat i).state (LEFT (LEFT i)) = THINKING ∧
    (Table.bothEat i).state (LEFT i) = EATING ∧ (Table.bothEat i).state i = HUNGRY ∧
    (Table.bothEat i).state (RIGHT i) = EATING ∧
    (Table.bothEat i).state (RIGHT (RIGHT i)) = THINKING := by
  have hN2 : 2 ≤ N := Nat.le_trans (by decide) hN
  obtain ⟨hLR, hLLi, hLLR, -, -⟩ := large_ring hN i
  have hLi : LEFT i ≠ i := (Neighbours.ne hN2 (Or.inl rfl)).symm
  have hLLL : LEFT (LEFT i) ≠ LEFT i := (Neighbours.ne hN2 (Or.inl rfl)).symm
  refine ⟨?_, ?_, ?_, setState_self _, ?_⟩
  · exact (setState_of_ne hLLR EATING).trans
      ((setState_of_ne hLLi HUNGRY).trans (setState_of_ne hLLL EATING))
  · exact (setState_of_ne hLR EATING).trans
      ((setState_of_ne hLi HUNGRY).trans (leftEats_left i))
  · exact (setState_of_ne (RIGHT_ne hN2 i).symm EATING).trans (betweenWaits_between i)
  · exact (setState_of_ne (RIGHT_ne hN2 (RIGHT i)) EATING).trans (betweenWaits_behind hN i)

theorem turn_left : State.turn (bothAtMeal i) (.bothEat i) (LEFT i) 1 .eat = .bothAtMeals i := by
  have hN2 : 2 ≤ N := Nat.le_trans (by decide) hN
  have hLi : LEFT i ≠ i := (Neighbours.ne hN2 (Or.inl rfl)).symm
  exact turn_eq ((Function.update_of_ne (large_ring hN i).1 _ _).trans
    ((Function.update_of_ne hLi _ _).trans (Function.update_self _ _ _))) 1

/-- **Both neighbours come to eat around `i`.** -/
theorem reachable_bothAtMeals : Reachable (State.bothAtMeals i) := by
  have hN2 : 2 ≤ N := Nat.le_trans (by decide) hN
  obtain ⟨hLR, -, -, -, -⟩ := large_ring hN i
  have hLi : LEFT i ≠ i := (Neighbours.ne hN2 (Or.inl rfl)).symm
  have h1 : Reaches step (State.turn (fun _ => .think) .quiet (LEFT i) 1 .think)
      (State.turn (fun _ => .think) (.leftEats i) (LEFT i) 1 .eat) :=
    (reaches_eat hN2 rfl (by show THINKING ≠ EATING; decide)
      (by show THINKING ≠ EATING; decide)).reaches
  have h2 : Reaches step (State.turn (leftAtMeal i) (.leftEats i) i 1 .think)
      (State.turn (leftAtMeal i) (.betweenWaits i) i 1 .takeWait) :=
    reaches_wait hN2 (Or.inl (leftEats_left i))
  have h3 : Reaches step (State.turn (betweenAtWait i) (.betweenWaits i) (RIGHT i) 1 .think)
      (State.turn (betweenAtWait i) (.bothEat i) (RIGHT i) 1 .eat) := by
    refine (reaches_eat hN2 rfl ?_ ?_).reaches
    · rw [LEFT_RIGHT, betweenWaits_between]
      decide
    · rw [betweenWaits_behind hN]
      decide
  -- these are three parts of one run
  have hstart : State.turn (fun _ => .think) .quiet (LEFT i) 1 .think
      = (State.start fun _ => THINKING : State N) := turn_eq rfl 1
  have hnext : State.turn (fun _ => .think) (.leftEats i) (LEFT i) 1 .eat
      = State.turn (leftAtMeal i) (.leftEats i) i 1 .think :=
    (turn_eq (Function.update_of_ne hLi.symm _ _) 1).symm
  have hlast : State.turn (leftAtMeal i) (.betweenWaits i) i 1 .takeWait
      = State.turn (betweenAtWait i) (.betweenWaits i) (RIGHT i) 1 .think :=
    (turn_eq ((Function.update_of_ne (RIGHT_ne hN2 i) _ _).trans
      (Function.update_of_ne hLR.symm _ _)) 1).symm
  rw [hstart, hnext] at h1
  rw [hlast] at h2
  exact (h1.trans h2).trans h3

/-- **Two neighbours that take turns.**  The philosopher between them waits for
as many meals as they like. -/
theorem turns_beside (n : Nat) :
    HungryRun i (.bothAtMeals i) (.bothAtMeals i)
      (n • Pi.single (LEFT i) 1 + n • Pi.single (RIGHT i) 1) := by
  have hN2 : 2 ≤ N := Nat.le_trans (by decide) hN
  obtain ⟨hLR, -, -, -, -⟩ := large_ring hN i
  obtain ⟨hLL, hL, hi, hR, hRR⟩ := bothEat_around hN i
  have hLi : LEFT i ≠ i := (Neighbours.ne hN2 (Or.inl rfl)).symm
  have hLLL : LEFT (LEFT i) ≠ LEFT i := (Neighbours.ne hN2 (Or.inl rfl)).symm
  have hleft : HungryRun i (State.turn (bothAtMeal i) (.bothEat i) (LEFT i) 1 .eat)
      (State.turn (bothAtMeal i) (.bothEat i) (LEFT i) 1 .eat) (Pi.single (LEFT i) 1) :=
    meal_beside hN2 hLi.symm hLR.symm hLLL (Or.inr ⟨rfl, RIGHT_LEFT i⟩)
      (Or.inr rfl) hi hLL hR hL rfl
  have hright : HungryRun i (State.turn (bothAtMeal i) (.bothEat i) (RIGHT i) 1 .eat)
      (State.turn (bothAtMeal i) (.bothEat i) (RIGHT i) 1 .eat) (Pi.single (RIGHT i) 1) :=
    meal_beside hN2 (RIGHT_ne hN2 i).symm hLR (RIGHT_ne hN2 (RIGHT i))
      (Or.inl ⟨LEFT_RIGHT i, rfl⟩) (Or.inl rfl) hi hRR hL hR rfl
  rw [turn_left hN] at hleft
  rw [turn_right] at hright
  induction n with
  | zero =>
      rw [zero_smul, zero_smul, add_zero]
      exact .start hi
  | succ n ih =>
      have hround := ih.trans (hleft.trans hright)
      rw [add_add_add_comm, ← succ_nsmul, ← succ_nsmul] at hround
      exact hround

end beside

end large

/-! ## §5. The bound. -/

/-- **HOW LONG A HUNGRY PHILOSOPHER CAN WAIT.**  On a ring of two or three it is
served behind at most one meal of another, in every run.  On a ring of four or
more its two neighbours can each eat any number of times while it stays
HUNGRY. -/
theorem waiting_of_ring (hN : 2 ≤ N) :
    (N ≤ 3 → ∀ (i : Fin N) (s s' : State N) (meals : Fin N → Nat),
        Reachable s → HungryRun i s s' meals → ∑ j, meals j ≤ 1) ∧
      (4 ≤ N → ∀ (i : Fin N) (n : Nat), ∃ (s s' : State N) (meals : Fin N → Nat),
        Reachable s ∧ HungryRun i s s' meals ∧
          meals (LEFT i) = n ∧ meals (RIGHT i) = n) := by
  refine ⟨?_, ?_⟩
  · intro hsmall i s s' meals hs hrun
    exact (hrun.meals_le hN hsmall (hs.invariant hN)).2.1
  · intro hlarge i n
    have hLR := (large_ring hlarge i).1
    refine ⟨_, _, _, reachable_bothAtMeals hlarge i, turns_beside hlarge i n, ?_, ?_⟩
    · simp [hLR]
    · simp [hLR.symm]

/-- The five of the story. -/
theorem waiting_of_ring_five :
    (5 ≤ 3 → ∀ (i : Fin 5) (s s' : State 5) (meals : Fin 5 → Nat),
        Reachable s → HungryRun i s s' meals → ∑ j, meals j ≤ 1) ∧
      (4 ≤ 5 → ∀ (i : Fin 5) (n : Nat), ∃ (s s' : State 5) (meals : Fin 5 → Nat),
        Reachable s ∧ HungryRun i s s' meals ∧
          meals (LEFT i) = n ∧ meals (RIGHT i) = n) :=
  waiting_of_ring (by decide)

end ConcurrencyCrypto.Philosophers
