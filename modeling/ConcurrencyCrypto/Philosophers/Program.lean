/-
  ConcurrencyCrypto.Philosophers.Program
  ──────────────────────────────────────
  **MAIN, AND THE THREADS THAT SHARE ITS LOOP VARIABLE.**

  `main` gives every philosopher the address of its loop variable `i`, and
  goes on: a thread reads its number when it comes to run.  Where that number
  is no philosopher, the arrays are left.  The threads end in the step in
  which `main` returns: one that has not read its number by then would find
  the frame of `main` gone, and is not part of this model.

    • `Program.step`              — one step of main or of a thread,
    • `Program.Reachable.indices` — what has been read of `i` in any run.
-/
import ConcurrencyCrypto.Philosophers.Waiting

namespace ConcurrencyCrypto.Philosophers

open ConcurrencyCrypto.Library

variable {N : Nat}

/-! ## §1. The program. -/

/-- Where main is. -/
inductive MainPc where
  /-- The head of the creating loop. -/
  | create
  /-- `usleep(100000)`, then `i++`. -/
  | sleep
  /-- `pthread_join(philosophers[0], …)`: a philosopher never returns. -/
  | join
  | returned (code : Int)
  deriving DecidableEq

/-- Where a philosopher's thread is. -/
inductive ThreadPc where
  | unborn
  /-- `int i = *((int*)arg)`. -/
  | entry
  /-- In its loop, with its `i`. -/
  | loop (i : Nat) (pc : Pc)
  deriving DecidableEq

structure Program (N : Nat) where
  main : MainPc
  /-- The variable of main that all threads have the address of. -/
  i : Nat
  mutex : Nat
  table : Table N
  thread : Fin N → ThreadPc
  /-- An array was left. -/
  undefined : Bool

/-- The semaphores are initialised, `state` is what the state array holds. -/
def Program.start (state : Fin N → Int32) : Program N where
  main := .create
  i := 0
  mutex := 1
  table := { state := state, eaters := fun _ => 0 }
  thread := fun _ => .unborn
  undefined := false

/-- Who steps; `pthread_create` may fail. -/
inductive ProgramAction (N : Nat) where
  | main (created : Bool)
  | thread (k : Fin N)

def Program.mainStep (s : Program N) (created : Bool) : Option (Program N) :=
  match s.main with
  | .create =>
      if h : s.i < N then
        if created then
          some { s with thread := Function.update s.thread ⟨s.i, h⟩ .entry, main := .sleep }
        else some { s with main := .returned 2 }
      -- the joining loop starts with i = 0
      else some { s with i := 0, main := .join }
  | .sleep => some { s with i := s.i + 1, main := .create }
  | .join => none
  | .returned _ => none

/-- One step of `philosopher` under index `i`, with the arrays at hand. -/
def Program.ownStep (s : Program N) (k i : Fin N) (pc : Pc) : Option (Program N) :=
  (step (State.only s.mutex s.table i pc) i).map fun s' =>
    { s with
      mutex := s'.mutex
      table := s'.table
      thread := Function.update s.thread k (.loop i.val (s'.pc i)) }

/-- One step under an index outside the arrays: `take_sticks` gets as far as
its first access. -/
def Program.strayStep (s : Program N) (k : Fin N) (i : Nat) : Pc → Option (Program N)
  | .think => some { s with thread := Function.update s.thread k (.loop i .takeLock) }
  | .takeLock =>
      if s.mutex = 0 then none
      else some { s with
        mutex := s.mutex - 1
        thread := Function.update s.thread k (.loop i .takeSection) }
  | .takeSection => some { s with undefined := true }
  | _ => none

def Program.threadStep (s : Program N) (k : Fin N) : Option (Program N) :=
  match s.thread k with
  | .unborn => none
  | .entry => some { s with thread := Function.update s.thread k (.loop s.i .think) }
  | .loop i pc => if h : i < N then s.ownStep k ⟨i, h⟩ pc else s.strayStep k i pc

/-- One step of the program, until it returns or leaves an array. -/
def Program.step (s : Program N) (a : ProgramAction N) : Option (Program N) :=
  if s.undefined = true then none
  else
    match s.main with
    | .returned _ => none
    | _ =>
      match a with
      | .main created => s.mainStep created
      | .thread k => s.threadStep k

/-! ## §2. What a step does. -/

section steps
variable {s s' : Program N}

/-- What can become of a thread. -/
inductive ThreadEffect (s s' : Program N) (k : Fin N) : Prop where
  | read (hentry : s.thread k = .entry)
      (hs' : s' = { s with thread := Function.update s.thread k (.loop s.i .think) })
  | own (i : Fin N) (pc : Pc) (t : State N) (hloop : s.thread k = .loop i.val pc)
      (hstep : Philosophers.step (State.only s.mutex s.table i pc) i = some t)
      (hs' : s' = { s with
        mutex := t.mutex
        table := t.table
        thread := Function.update s.thread k (.loop i.val (t.pc i)) })
  | stray (i : Nat) (pc : Pc) (hloop : s.thread k = .loop i pc) (hi : N ≤ i)
      (hmain : s'.main = s.main) (hi' : s'.i = s.i)
      (hthread : s'.thread = s.thread ∨
        ∃ pc', s'.thread = Function.update s.thread k (.loop i pc'))

theorem strayStep_cases {k : Fin N} {i : Nat} {pc : Pc} (h : s.strayStep k i pc = some s') :
    s'.main = s.main ∧ s'.i = s.i ∧ (s'.thread = s.thread ∨
      ∃ pc', s'.thread = Function.update s.thread k (.loop i pc')) := by
  unfold Program.strayStep at h
  split at h
  · injection h with h
    rw [← h]
    exact ⟨rfl, rfl, Or.inr ⟨_, rfl⟩⟩
  · split at h
    · cases h
    · injection h with h
      rw [← h]
      exact ⟨rfl, rfl, Or.inr ⟨_, rfl⟩⟩
  · injection h with h
    rw [← h]
    exact ⟨rfl, rfl, Or.inl rfl⟩
  · cases h

theorem threadStep_effect {k : Fin N} (h : s.threadStep k = some s') : ThreadEffect s s' k := by
  unfold Program.threadStep at h
  split at h
  next => cases h
  next hentry =>
    injection h with h
    exact .read hentry h.symm
  next i pc hloop =>
    split at h
    next hi =>
      obtain ⟨t, hstep, hs'⟩ := Option.map_eq_some_iff.mp h
      exact .own ⟨i, hi⟩ pc t hloop hstep hs'.symm
    next hi =>
      obtain ⟨hmain, hi', hthread⟩ := strayStep_cases h
      exact .stray i pc hloop (Nat.le_of_not_lt hi) hmain hi' hthread

/-- The ways in which main steps. -/
inductive MainEffect (s s' : Program N) : Prop where
  | created (hmain : s.main = .create) (hi : s.i < N)
      (hs' : s' = { s with
        thread := Function.update s.thread ⟨s.i, hi⟩ .entry
        main := .sleep })
  | failed (hmain : s.main = .create) (hs' : s' = { s with main := .returned 2 })
  | joins (hmain : s.main = .create) (hi : N ≤ s.i)
      (hs' : s' = { s with
        i := 0
        main := .join })
  | counts (hmain : s.main = .sleep)
      (hs' : s' = { s with
        i := s.i + 1
        main := .create })

theorem mainStep_effect {created : Bool} (h : s.mainStep created = some s') :
    MainEffect s s' := by
  unfold Program.mainStep at h
  split at h
  next hmain =>
    split at h
    next hi =>
      split at h
      · injection h with h
        exact .created hmain hi h.symm
      · injection h with h
        exact .failed hmain h.symm
    next hi =>
      injection h with h
      exact .joins hmain (Nat.le_of_not_lt hi) h.symm
  next hmain =>
    injection h with h
    exact .counts hmain h.symm
  next => cases h
  next => cases h

theorem step_effect {a : ProgramAction N} (h : s.step a = some s') :
    s.undefined = false ∧ ((∃ created, a = .main created ∧ MainEffect s s') ∨
      ∃ k, a = .thread k ∧ ThreadEffect s s' k) := by
  unfold Program.step at h
  split at h
  · cases h
  next hdefined =>
    refine ⟨Bool.eq_false_iff.mpr hdefined, ?_⟩
    split at h
    · cases h
    · cases a with
      | main created => exact Or.inl ⟨created, rfl, mainStep_effect h⟩
      | thread k => exact Or.inr ⟨k, rfl, threadStep_effect h⟩

/-- A philosopher's step looks at nobody else's label. -/
theorem step_of_alone {t : State N} {i : Fin N} {m : Nat} {table : Table N} {pc : Pc}
    {u : State N} (h : step (State.only m table i pc) i = some u) (hm : t.mutex = m)
    (htable : t.table = table) (hpc : t.pc i = pc) :
    step t i = some { mutex := u.mutex, table := u.table
                      pc := Function.update t.pc i (u.pc i) } := by
  subst hm htable hpc
  unfold step at h ⊢
  rw [only_pc] at h
  cases hpc : t.pc i with
  | takeLock =>
      rw [hpc] at h
      by_cases hzero : t.mutex = 0
      · simp [hzero] at h
      · simp [hzero] at h
        rw [← h]
        simp [State.goto, hzero]
  | takeWait =>
      rw [hpc] at h
      by_cases hzero : t.table.eaters i = 0
      · simp [hzero] at h
      · simp [hzero] at h
        rw [← h]
        simp [State.goto, hzero]
  | putLock =>
      rw [hpc] at h
      by_cases hzero : t.mutex = 0
      · simp [hzero] at h
      · simp [hzero] at h
        rw [← h]
        simp [State.goto, hzero]
  | _ =>
      rw [hpc] at h
      injection h with h
      rw [← h]
      simp [State.goto]

end steps

/-! ## §3. Which indices are read. -/

/-- A state of some run of the program. -/
def Program.Reachable (state : Fin N → Int32) (s : Program N) : Prop :=
  Reaches Program.step (Program.start state) s

/-- **Where `i` is, and what was read of it.** -/
structure Indices (s : Program N) : Prop where
  i_le : s.i ≤ N
  asleep : s.main = .sleep → s.i < N
  joined : s.main = .join → s.i = 0
  behind : s.main ≠ .join → ∀ k : Fin N, s.thread k ≠ .unborn → k.val ≤ s.i
  read : ∀ (k : Fin N) v pc, s.thread k = .loop v pc → (k.val ≤ v ∧ v ≤ N) ∨ v = 0

section indices
variable {s s' : Program N}

theorem indices_start (state : Fin N → Int32) : Indices (Program.start state) where
  i_le := Nat.zero_le N
  asleep := nofun
  joined := nofun
  behind _ _ hk := absurd rfl hk
  read := nofun

/-- A thread in its loop stays under its index. -/
theorem Indices.looped (h : Indices s) {k : Fin N} {v : Nat} {pc pc' : Pc}
    (hloop : s.thread k = .loop v pc) (hmain : s'.main = s.main) (hi : s'.i = s.i)
    (hthread : s'.thread = Function.update s.thread k (.loop v pc')) : Indices s' := by
  refine ⟨by rw [hi]; exact h.i_le, by rw [hmain, hi]; exact h.asleep,
    by rw [hmain, hi]; exact h.joined, ?_, ?_⟩
  · intro hne j hj
    rw [hmain] at hne
    rw [hi]
    refine h.behind hne j ?_
    rw [hthread] at hj
    by_cases hjk : j = k
    · rw [hjk, hloop]
      exact nofun
    · rwa [Function.update_of_ne hjk] at hj
  · intro j w q hj
    rw [hthread] at hj
    by_cases hjk : j = k
    · rw [hjk, Function.update_self] at hj
      injection hj with hv _
      rw [hjk, ← hv]
      exact h.read k v pc hloop
    · rw [Function.update_of_ne hjk] at hj
      exact h.read j w q hj

theorem Indices.thread (h : Indices s) {k : Fin N} (heffect : ThreadEffect s s' k) :
    Indices s' := by
  cases heffect with
  | read hentry hs' =>
      have hborn : s.thread k ≠ .unborn := by
        rw [hentry]
        exact nofun
      rw [hs']
      refine ⟨h.i_le, h.asleep, h.joined, ?_, ?_⟩
      · intro hne j hj
        dsimp only at hj
        by_cases hjk : j = k
        · rw [hjk]
          exact h.behind hne k hborn
        · exact h.behind hne j (by rwa [Function.update_of_ne hjk] at hj)
      · intro j v pc hj
        dsimp only at hj
        by_cases hjk : j = k
        · rw [hjk, Function.update_self] at hj
          injection hj with hv _
          rw [hjk, ← hv]
          -- what is read is where main is
          by_cases hmain : s.main = .join
          · exact Or.inr (h.joined hmain)
          · exact Or.inl ⟨h.behind hmain k hborn, h.i_le⟩
        · rw [Function.update_of_ne hjk] at hj
          exact h.read j v pc hj
  | own i pc t hloop hstep hs' =>
      rw [hs']
      exact h.looped hloop rfl rfl rfl
  | stray i pc hloop hi hmain hi' hthread =>
      rcases hthread with hthread | ⟨pc', hthread⟩
      · have hsame : s'.thread = Function.update s.thread k (.loop i pc) := by
          rw [hthread, Function.update_eq_self_iff.mpr hloop.symm]
        exact h.looped hloop hmain hi' hsame
      · exact h.looped hloop hmain hi' hthread

theorem Indices.main (h : Indices s) (heffect : MainEffect s s') : Indices s' := by
  cases heffect with
  | created hmain hi hs' =>
      rw [hs']
      refine ⟨h.i_le, fun _ => hi, nofun, ?_, ?_⟩
      · intro _ j hj
        dsimp only at hj
        by_cases hji : j = ⟨s.i, hi⟩
        · rw [hji]
        · refine h.behind (by rw [hmain]; exact nofun) j ?_
          rwa [Function.update_of_ne hji] at hj
      · intro j v pc hj
        dsimp only at hj
        by_cases hji : j = ⟨s.i, hi⟩
        · rw [hji, Function.update_self] at hj
          cases hj
        · rw [Function.update_of_ne hji] at hj
          exact h.read j v pc hj
  | failed hmain hs' =>
      rw [hs']
      exact ⟨h.i_le, nofun, nofun, fun _ => h.behind (by rw [hmain]; exact nofun), h.read⟩
  | joins hmain hi hs' =>
      rw [hs']
      exact ⟨Nat.zero_le N, nofun, fun _ => rfl, fun hne => absurd rfl hne, h.read⟩
  | counts hmain hs' =>
      rw [hs']
      refine ⟨h.asleep hmain, nofun, nofun, ?_, h.read⟩
      intro _ j hj
      exact Nat.le_succ_of_le (h.behind (by rw [hmain]; exact nofun) j hj)

theorem Indices.step (h : Indices s) {a : ProgramAction N} (hstep : s.step a = some s') :
    Indices s' := by
  rcases (step_effect hstep).2 with ⟨_, _, heffect⟩ | ⟨k, _, heffect⟩
  · exact h.main heffect
  · exact h.thread heffect

theorem Program.Reachable.indices {state : Fin N → Int32} (h : Program.Reachable state s) :
    Indices s :=
  Reaches.invariant h (indices_start state) fun _ _ _ hs hstep => hs.step hstep

end indices

end ConcurrencyCrypto.Philosophers
