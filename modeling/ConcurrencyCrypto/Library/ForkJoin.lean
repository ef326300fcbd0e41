/-
  ConcurrencyCrypto.Library.ForkJoin
  ──────────────────────────────────
  **THREADS THAT ARE CREATED IN A LOOP AND JOINED IN A LOOP.**

  Thread `i` is created behind a write `prepare i` of the creating function,
  and all threads then step in any order on one memory.

  An `Outline` gives every thread an assertion about itself and the memory,
  from before it is created to behind its end, such that no other thread
  and no `prepare` of another one can break it.

    • `Outline.live`     — then all assertions hold in every state reached;
    • `Outline.returned` — behind the last join all threads are done, each as
      its own assertion says;
    • `Outline.progress` — if the assertions say that nobody gets stuck, there
      is always a step until then;
    • `Outline.length_le`— and if every thread has a bound, so have the runs.
-/
import ConcurrencyCrypto.Library.Transition

namespace ConcurrencyCrypto.Library

variable {μ τ : Type*}

/-! ## §1. The steps. -/

/-- `n` threads: what is written in front of the creation of each, where it
starts, what one step of it does, and where it has ended. -/
structure ForkJoin (μ τ : Type*) where
  n : Nat
  prepare : Nat → μ → μ
  entry : Nat → τ
  step : τ → μ → Option (τ × μ)
  done : τ → Bool
  stop : ∀ t m, done t = true → step t m = none

namespace ForkJoin

/-- Where the creating function is. -/
inductive Phase where
  /-- The head of the first loop, and the write. -/
  | fork (i : Nat)
  | create (i : Nat)
  /-- The head of the second loop, and the join. -/
  | join (i : Nat)
  | returned
  /-- A thread could not be created, and the process has ended. -/
  | exited
  deriving DecidableEq

structure State (μ τ : Type*) where
  mem : μ
  threads : Nat → Option τ
  main : Phase

/-- Nothing was done yet. -/
def State.start (m : μ) : State μ τ := ⟨m, fun _ => none, .fork 0⟩

/-- Who steps; `created` is how a creation ends. -/
inductive Action where
  | thread (i : Nat)
  | main (created : Bool)

variable (F : ForkJoin μ τ)

/-- One step of the creating function. -/
def mainStep (s : State μ τ) (created : Bool) : Option (State μ τ) :=
  match s.main with
  | .fork i =>
      if i < F.n then some { s with mem := F.prepare i s.mem, main := .create i }
      else some { s with main := .join 0 }
  | .create i =>
      if created then
        some { s with
          threads := Function.update s.threads i (some (F.entry i))
          main := .fork (i + 1) }
      else some { s with main := .exited }
  | .join i =>
      if i < F.n then
        match s.threads i with
        | some t => if F.done t then some { s with main := .join (i + 1) } else none
        | none => none
      else some { s with main := .returned }
  | .returned => none
  | .exited => none

/-- One step of thread `i`. -/
def threadStep (s : State μ τ) (i : Nat) : Option (State μ τ) :=
  if s.main = .exited then none
  else
    match s.threads i with
    | none => none
    | some t =>
        (F.step t s.mem).map fun r =>
          { s with mem := r.2, threads := Function.update s.threads i (some r.1) }

/-- One step of the whole. -/
def act (s : State μ τ) : Action → Option (State μ τ)
  | .thread i => F.threadStep s i
  | .main created => F.mainStep s created

/-! ## §2. What a step can be. -/

section steps
variable {F} {s s' : State μ τ}

theorem threadStep_cases {i : Nat} (h : F.threadStep s i = some s') :
    s.main ≠ .exited ∧ ∃ t t' m', s.threads i = some t ∧ F.step t s.mem = some (t', m') ∧
      s' = { s with mem := m', threads := Function.update s.threads i (some t') } := by
  unfold threadStep at h
  split at h
  next => cases h
  next hmain =>
    split at h
    next => cases h
    next t ht =>
      obtain ⟨⟨t', m'⟩, hstep, heq⟩ := Option.map_eq_some_iff.mp h
      exact ⟨hmain, t, t', m', ht, hstep, heq.symm⟩

theorem threadStep_eq {i : Nat} {t t' : τ} {m' : μ} (hmain : s.main ≠ .exited)
    (ht : s.threads i = some t) (hstep : F.step t s.mem = some (t', m')) :
    F.threadStep s i
      = some { s with mem := m', threads := Function.update s.threads i (some t') } := by
  unfold threadStep
  rw [if_neg hmain, ht]
  dsimp only
  rw [hstep]
  rfl

/-- **The steps of the creating function.** -/
theorem mainStep_cases {created : Bool} (h : F.mainStep s created = some s') :
    (∃ i, s.main = .fork i ∧ i < F.n ∧
      s' = { s with mem := F.prepare i s.mem, main := .create i }) ∨
    (∃ i, s.main = .fork i ∧ F.n ≤ i ∧ s' = { s with main := .join 0 }) ∨
    (∃ i, s.main = .create i ∧ s' = { s with
      threads := Function.update s.threads i (some (F.entry i)), main := .fork (i + 1) }) ∨
    (∃ i, s.main = .create i ∧ s' = { s with main := .exited }) ∨
    (∃ i t, s.main = .join i ∧ i < F.n ∧ s.threads i = some t ∧ F.done t = true ∧
      s' = { s with main := .join (i + 1) }) ∨
    (∃ i, s.main = .join i ∧ F.n ≤ i ∧ s' = { s with main := .returned }) := by
  unfold mainStep at h
  split at h
  next i hmain =>
    split at h
    next hlt =>
      injection h with h
      exact Or.inl ⟨i, hmain, hlt, h.symm⟩
    next hge =>
      injection h with h
      exact Or.inr (Or.inl ⟨i, hmain, Nat.le_of_not_lt hge, h.symm⟩)
  next i hmain =>
    split at h
    next =>
      injection h with h
      exact Or.inr (Or.inr (Or.inl ⟨i, hmain, h.symm⟩))
    next =>
      injection h with h
      exact Or.inr (Or.inr (Or.inr (Or.inl ⟨i, hmain, h.symm⟩)))
  next i hmain =>
    split at h
    next hlt =>
      split at h
      next t ht =>
        split at h
        next hdone =>
          injection h with h
          exact Or.inr (Or.inr (Or.inr (Or.inr (Or.inl ⟨i, t, hmain, hlt, ht, hdone, h.symm⟩))))
        next => cases h
      next => cases h
    next hge =>
      injection h with h
      exact Or.inr (Or.inr (Or.inr (Or.inr (Or.inr
        ⟨i, hmain, Nat.le_of_not_lt hge, h.symm⟩))))
  next => cases h
  next => cases h

/-- **The creating function can step**, unless it waits for a thread. -/
theorem mainStep_enabled (hret : s.main ≠ .returned) (hexit : s.main ≠ .exited)
    (hjoin : ∀ i, s.main = .join i → i < F.n → ∃ t, s.threads i = some t ∧ F.done t = true) :
    Enabled F.act s (.main true) := by
  show ∃ s', F.mainStep s true = some s'
  unfold mainStep
  cases hmain : s.main with
  | fork i =>
      dsimp only
      split <;> exact ⟨_, rfl⟩
  | create i => exact ⟨_, rfl⟩
  | join i =>
      dsimp only
      split
      next hi =>
        obtain ⟨t, ht, hdone⟩ := hjoin i hmain hi
        rw [ht]
        dsimp only
        rw [if_pos hdone]
        exact ⟨_, rfl⟩
      next => exact ⟨_, rfl⟩
  | returned => exact absurd hmain hret
  | exited => exact absurd hmain hexit

/-- An exited process does nothing. -/
theorem not_exited_of_act {a : Action} (h : F.act s a = some s') : s.main ≠ .exited := by
  intro hmain
  cases a with
  | thread i => exact (threadStep_cases h).1 hmain
  | main created =>
      unfold act mainStep at h
      rw [hmain] at h
      cases h

end steps

/-! ## §3. Outlines. -/

/-- An assertion for each thread, `none` standing for one that was not created
yet: kept by the thread's own steps, and not disturbed by the others. -/
structure Outline where
  Holds : Nat → Option τ → μ → Prop
  prepare_own : ∀ i m, Holds i none m → Holds i (some (F.entry i)) (F.prepare i m)
  prepare_other : ∀ i j t m, i ≠ j → Holds j t m → Holds j t (F.prepare i m)
  step_own : ∀ i t m t' m', Holds i (some t) m → F.step t m = some (t', m') →
    Holds i (some t') m'
  step_other : ∀ i j t u m t' m', i ≠ j → Holds i (some t) m → Holds j u m →
    F.step t m = some (t', m') → Holds j u m'

/-- How many threads were created. -/
def Phase.created (n : Nat) : Phase → Nat
  | .fork i => i
  | .create i => i
  | .join _ => n
  | .returned => n
  | .exited => 0

/-- How many were joined. -/
def Phase.joined (n : Nat) : Phase → Nat
  | .join i => i
  | .returned => n
  | _ => 0

/-- A thread, as its assertion sees it: the write in front of its creation is
already its own. -/
def State.view (s : State μ τ) (i : Nat) : Option τ :=
  if s.main = .create i then some (F.entry i) else s.threads i

variable {F}

/-- The invariant of all states but those of a process that has exited. -/
structure Live (O : F.Outline) (s : State μ τ) : Prop where
  created_le : s.main.created F.n ≤ F.n
  creating : ∀ i, s.main = .create i → i < F.n
  present : ∀ i, i < s.main.created F.n → ∃ t, s.threads i = some t
  absent : ∀ i, s.main.created F.n ≤ i → s.threads i = none
  joined : ∀ i, i < s.main.joined F.n → ∃ t, s.threads i = some t ∧ F.done t = true
  holds : ∀ i, i < F.n → O.Holds i (s.view F i) s.mem

namespace Live
variable {O : F.Outline} {s s' : State μ τ}

theorem start {m : μ} (h0 : ∀ i, i < F.n → O.Holds i none m) : Live O (State.start m) where
  created_le := Nat.zero_le _
  creating := by
    intro i h
    cases h
  present := by
    intro i h
    exact absurd h (Nat.not_lt_zero i)
  absent := fun _ _ => rfl
  joined := by
    intro i h
    exact absurd h (Nat.not_lt_zero i)
  holds := by
    intro i hi
    show O.Holds i (if Phase.fork 0 = .create i then _ else _) m
    rw [if_neg (by intro h; cases h)]
    exact h0 i hi

/-- A thread that exists is not being created. -/
theorem not_creating (h : Live O s) {i : Nat} {t : τ} (ht : s.threads i = some t) :
    s.main ≠ .create i := by
  intro hmain
  have hnone := h.absent i (by rw [hmain]; exact Nat.le_refl i)
  rw [hnone] at ht
  cases ht

/-- It is seen as it is. -/
theorem view_eq (h : Live O s) {i : Nat} {t : τ} (ht : s.threads i = some t) :
    s.view F i = some t := by
  unfold State.view
  rw [if_neg (h.not_creating ht), ht]

theorem lt_n (h : Live O s) {i : Nat} {t : τ} (ht : s.threads i = some t) : i < F.n := by
  by_contra hge
  have hnone := h.absent i (Nat.le_trans h.created_le (Nat.le_of_not_lt hge))
  rw [hnone] at ht
  cases ht

/-- **The step of a thread.** -/
theorem threadStep (h : Live O s) {i : Nat} (hstep : F.threadStep s i = some s') :
    Live O s' := by
  obtain ⟨-, t, t', m', ht, hown, rfl⟩ := threadStep_cases hstep
  have hi := h.lt_n ht
  have hholds := h.holds i hi
  rw [h.view_eq ht] at hholds
  refine ⟨h.created_le, h.creating, ?_, ?_, ?_, ?_⟩
  · intro j hj
    by_cases hij : j = i
    · rw [hij]
      exact ⟨t', Function.update_self i _ _⟩
    · obtain ⟨u, hu⟩ := h.present j hj
      exact ⟨u, (Function.update_of_ne hij _ _).trans hu⟩
  · intro j hj
    have hnone := h.absent j hj
    have hij : j ≠ i := by
      intro hij
      rw [hij, ht] at hnone
      cases hnone
    exact (Function.update_of_ne hij _ _).trans hnone
  · intro j hj
    -- a thread that was joined does not step any more
    obtain ⟨u, hu, hdone⟩ := h.joined j hj
    have hij : j ≠ i := by
      intro hij
      rw [hij, ht] at hu
      injection hu with hu
      rw [← hu] at hdone
      rw [F.stop t s.mem hdone] at hown
      cases hown
    exact ⟨u, (Function.update_of_ne hij _ _).trans hu, hdone⟩
  · intro j hj
    by_cases hij : j = i
    · have hview : State.view F { s with
          mem := m', threads := Function.update s.threads i (some t') } j = some t' := by
        subst hij
        unfold State.view
        rw [if_neg (h.not_creating ht)]
        exact Function.update_self j _ _
      rw [hview, hij]
      exact O.step_own i t s.mem t' m' hholds hown
    · have hview : State.view F { s with
          mem := m', threads := Function.update s.threads i (some t') } j = s.view F j := by
        unfold State.view
        dsimp only
        rw [Function.update_of_ne hij]
      rw [hview]
      exact O.step_other i j t _ s.mem t' m' (Ne.symm hij) hholds (h.holds j hj) hown

/-- The thread that is being created, and the others. -/
theorem view_create {i : Nat} (hmain : s.main = .create i) :
    s.view F i = some (F.entry i) := by
  unfold State.view
  rw [if_pos hmain]

theorem view_of_ne {i : Nat} (hmain : s.main ≠ .create i) : s.view F i = s.threads i := by
  unfold State.view
  rw [if_neg hmain]

/-- Outside a creation all threads are seen as they are. -/
theorem holds_threads (h : Live O s) (hmain : ∀ i, s.main ≠ .create i) {i : Nat} (hi : i < F.n) :
    O.Holds i (s.threads i) s.mem := by
  have hview := h.holds i hi
  rw [view_of_ne (hmain i)] at hview
  exact hview

/-- The creating function moves on, and creates nothing. -/
theorem moved (h : Live O s) (p : Phase) (hmain : ∀ i, s.main ≠ .create i)
    (hp : ∀ i, p ≠ .create i) (hcreated : p.created F.n = s.main.created F.n)
    (hjoined : ∀ i, i < p.joined F.n → ∃ t, s.threads i = some t ∧ F.done t = true) :
    Live O { s with main := p } := by
  refine ⟨?_, ?_, ?_, ?_, hjoined, ?_⟩
  · show p.created F.n ≤ F.n
    rw [hcreated]
    exact h.created_le
  · intro i hi
    exact absurd hi (hp i)
  · intro i hi
    exact h.present i (by rw [← hcreated]; exact hi)
  · intro i hi
    exact h.absent i (by rw [← hcreated]; exact hi)
  · intro i hi
    rw [view_of_ne (hp i)]
    exact h.holds_threads hmain hi

/-- The write in front of a creation. -/
theorem prepared (h : Live O s) {i : Nat} (hmain : s.main = .fork i) (hlt : i < F.n) :
    Live O { s with mem := F.prepare i s.mem, main := .create i } := by
  have hcreated := h.absent
  rw [hmain] at hcreated
  refine ⟨Nat.le_of_lt hlt, ?_, ?_, hcreated, ?_, ?_⟩
  · intro j hj
    injection hj with hj
    rw [← hj]
    exact hlt
  · intro j hj
    exact h.present j (by rw [hmain]; exact hj)
  · intro j hj
    exact absurd hj (Nat.not_lt_zero j)
  · intro j hj
    have hholds := h.holds_threads (by rw [hmain]; simp) hj
    by_cases hij : i = j
    · -- the thread that the write is for was not created yet
      rw [hij, view_create rfl]
      rw [h.absent j (by rw [hmain, hij]; exact Nat.le_refl j)] at hholds
      exact O.prepare_own j s.mem hholds
    · rw [view_of_ne (by intro hc; injection hc with hc; exact hij hc)]
      exact O.prepare_other i j _ s.mem hij hholds

/-- The creation itself: the new thread's assertion holds already. -/
theorem created (h : Live O s) {i : Nat} (hmain : s.main = .create i) :
    Live O { s with
      threads := Function.update s.threads i (some (F.entry i)), main := .fork (i + 1) } := by
  have hlt := h.creating i hmain
  refine ⟨hlt, ?_, ?_, ?_, ?_, ?_⟩
  · intro j hj
    cases hj
  · intro j hj
    by_cases hij : j = i
    · rw [hij]
      exact ⟨F.entry i, Function.update_self i _ _⟩
    · obtain ⟨t, ht⟩ := h.present j (by
        rw [hmain]
        exact Nat.lt_of_le_of_ne (Nat.le_of_lt_succ hj) hij)
      exact ⟨t, (Function.update_of_ne hij _ _).trans ht⟩
  · intro j hj
    have hij : j ≠ i := Nat.ne_of_gt hj
    exact (Function.update_of_ne hij _ _).trans
      (h.absent j (by rw [hmain]; exact Nat.le_of_lt hj))
  · intro j hj
    exact absurd hj (Nat.not_lt_zero j)
  · intro j hj
    have hview := h.holds j hj
    rw [view_of_ne (by intro hc; cases hc)]
    by_cases hij : i = j
    · subst hij
      rw [view_create hmain] at hview
      dsimp only
      rw [Function.update_self]
      exact hview
    · rw [view_of_ne (by rw [hmain]; intro hc; injection hc with hc; exact hij hc)] at hview
      dsimp only
      rw [Function.update_of_ne (Ne.symm hij)]
      exact hview

/-- **The step of the creating function.** -/
theorem mainStep (h : Live O s) {created : Bool} (hstep : F.mainStep s created = some s')
    (hs' : s'.main ≠ .exited) : Live O s' := by
  rcases mainStep_cases hstep with ⟨i, hmain, hlt, rfl⟩ | ⟨i, hmain, hge, rfl⟩ |
    ⟨i, hmain, rfl⟩ | ⟨i, hmain, rfl⟩ | ⟨i, t, hmain, hlt, ht, hdone, rfl⟩ | ⟨i, hmain, hge, rfl⟩
  · exact h.prepared hmain hlt
  · -- all threads were created
    have hle := h.created_le
    rw [hmain] at hle
    refine h.moved (.join 0) (by rw [hmain]; simp) (by simp) ?_ ?_
    · rw [hmain]
      exact Nat.le_antisymm hge hle
    · intro j hj
      exact absurd hj (Nat.not_lt_zero j)
  · exact h.created hmain
  · exact absurd rfl hs'
  · -- one more was joined
    refine h.moved (.join (i + 1)) (by rw [hmain]; simp) (by simp) (by rw [hmain]; rfl) ?_
    intro j hj
    by_cases hij : j = i
    · rw [hij]
      exact ⟨t, ht, hdone⟩
    · exact h.joined j (by
        rw [hmain]
        exact Nat.lt_of_le_of_ne (Nat.le_of_lt_succ hj) hij)
  · -- all were joined
    refine h.moved .returned (by rw [hmain]; simp) (by simp) (by rw [hmain]; rfl) ?_
    intro j hj
    exact h.joined j (by rw [hmain]; exact Nat.lt_of_lt_of_le hj hge)

end Live

/-- **Any step.** -/
theorem Live.act {O : F.Outline} {s s' : State μ τ} {a : Action} (h : Live O s)
    (hstep : F.act s a = some s') (hs' : s'.main ≠ .exited) : Live O s' := by
  cases a with
  | thread i => exact h.threadStep hstep
  | main created => exact h.mainStep hstep hs'

/-! ## §4. Whole runs. -/

section runs
variable (O : F.Outline) {m : μ} {s : State μ τ}

/-- **ALL ASSERTIONS HOLD IN EVERY STATE REACHED.** -/
theorem Outline.live (h0 : ∀ i, i < F.n → O.Holds i none m)
    (h : Reaches F.act (State.start m) s) (hs : s.main ≠ .exited) : Live O s := by
  refine Reaches.invariant (I := fun s => s.main ≠ .exited → Live O s) h
    (fun _ => Live.start h0) ?_ hs
  intro s a s' ih hstep hs'
  exact (ih (not_exited_of_act hstep)).act hstep hs'

/-- **Behind the last join** every thread is done, as its assertion says. -/
theorem Outline.returned (h0 : ∀ i, i < F.n → O.Holds i none m)
    (h : Reaches F.act (State.start m) s) (hs : s.main = .returned) {i : Nat} (hi : i < F.n) :
    ∃ t, F.done t = true ∧ O.Holds i (some t) s.mem := by
  have hlive := O.live h0 h (by rw [hs]; intro hc; cases hc)
  obtain ⟨t, ht, hdone⟩ := hlive.joined i (by rw [hs]; exact hi)
  have hholds := hlive.holds_threads (by rw [hs]; intro j hc; cases hc) hi
  rw [ht] at hholds
  exact ⟨t, hdone, hholds⟩

/-- The assertions exclude that a thread gets stuck. -/
def Outline.Goes : Prop :=
  ∀ i t m, O.Holds i (some t) m → F.done t = false → ∃ t' m', F.step t m = some (t', m')

/-- **Every thread that was created and is not done can step.** -/
theorem Outline.thread_goes (hgo : O.Goes) (h0 : ∀ i, i < F.n → O.Holds i none m)
    (h : Reaches F.act (State.start m) s) (hs : s.main ≠ .exited) {i : Nat} {t : τ}
    (ht : s.threads i = some t) (hdone : F.done t = false) :
    Enabled F.act s (.thread i) := by
  have hlive := O.live h0 h hs
  have hholds := hlive.holds i (hlive.lt_n ht)
  rw [hlive.view_eq ht] at hholds
  obtain ⟨t', m', hstep⟩ := hgo i t s.mem hholds hdone
  exact ⟨_, threadStep_eq hs ht hstep⟩

/-- **THERE IS ALWAYS A STEP** until the last join is over. -/
theorem Outline.progress (hgo : O.Goes) (h0 : ∀ i, i < F.n → O.Holds i none m)
    (h : Reaches F.act (State.start m) s) (hret : s.main ≠ .returned) (hs : s.main ≠ .exited) :
    ∃ a, Enabled F.act s a := by
  have hlive := O.live h0 h hs
  by_cases hwait : ∃ i t, s.main = .join i ∧ s.threads i = some t ∧ F.done t = false
  · -- the thread that is waited for can go on
    obtain ⟨i, t, -, ht, hdone⟩ := hwait
    exact ⟨.thread i, O.thread_goes hgo h0 h hs ht hdone⟩
  · refine ⟨.main true, mainStep_enabled hret hs ?_⟩
    intro i hmain hi
    obtain ⟨t, ht⟩ := hlive.present i (by rw [hmain]; exact hi)
    refine ⟨t, ht, ?_⟩
    by_contra hdone
    exact hwait ⟨i, t, hmain, ht, Bool.eq_false_iff.mpr hdone⟩

end runs

/-! ## §5. Bounded runs. -/

section bounded
variable (O : F.Outline) (cost : τ → Nat)

/-- The steps of the creating function that are left. -/
def Phase.left (n : Nat) : Phase → Nat
  | .fork i => 2 * (n - i) + n + 2
  | .create i => 2 * (n - i) + n + 1
  | .join i => n - i + 1
  | .returned => 0
  | .exited => 0

/-- All steps that are left, if those of a thread are at most its cost. -/
def weight (F : ForkJoin μ τ) (cost : τ → Nat) (s : State μ τ) : Nat :=
  s.main.left F.n + ∑ i ∈ Finset.range F.n, cost ((s.threads i).getD (F.entry i))

/-- Every step of a thread lowers its cost. -/
def Outline.Lowers : Prop :=
  ∀ i t m t' m', O.Holds i (some t) m → F.step t m = some (t', m') → cost t' < cost t

variable {O cost}

theorem Live.weight_threadStep {s s' : State μ τ} (h : Live O s) (hcost : O.Lowers cost) {i : Nat}
    (hstep : F.threadStep s i = some s') : F.weight cost s' < F.weight cost s := by
  obtain ⟨-, t, t', m', ht, hown, rfl⟩ := threadStep_cases hstep
  have hi := h.lt_n ht
  have hholds := h.holds i hi
  rw [h.view_eq ht] at hholds
  have hlt := hcost i t s.mem t' m' hholds hown
  have hself : cost ((Function.update s.threads i (some t') i).getD (F.entry i))
      < cost ((s.threads i).getD (F.entry i)) := by
    rw [Function.update_self, ht]
    exact hlt
  refine Nat.add_lt_add_left (Finset.sum_lt_sum ?_ ⟨i, Finset.mem_range.mpr hi, hself⟩) _
  intro j _
  by_cases hij : j = i
  · rw [hij]
    exact Nat.le_of_lt hself
  · dsimp only
    rw [Function.update_of_ne hij]

theorem Live.weight_mainStep {s s' : State μ τ} (h : Live O s) {created : Bool}
    (hstep : F.mainStep s created = some s') : F.weight cost s' < F.weight cost s := by
  unfold weight
  rcases mainStep_cases hstep with ⟨i, hmain, hlt, rfl⟩ | ⟨i, hmain, hge, rfl⟩ |
    ⟨i, hmain, rfl⟩ | ⟨i, hmain, rfl⟩ | ⟨i, t, hmain, hlt, ht, hdone, rfl⟩ | ⟨i, hmain, hge, rfl⟩
  · rw [hmain]
    dsimp only [Phase.left]
    omega
  · rw [hmain]
    dsimp only [Phase.left]
    omega
  · -- the new thread was counted before
    have hlt := h.creating i hmain
    have hnone := h.absent i (by rw [hmain]; exact Nat.le_refl i)
    have hsame : ∀ j, (Function.update s.threads i (some (F.entry i)) j).getD (F.entry j)
        = (s.threads j).getD (F.entry j) := by
      intro j
      by_cases hij : j = i
      · rw [hij, Function.update_self, hnone]
        rfl
      · rw [Function.update_of_ne hij]
    rw [hmain]
    dsimp only [Phase.left]
    simp only [hsame]
    omega
  · rw [hmain]
    dsimp only [Phase.left]
    omega
  · rw [hmain]
    dsimp only [Phase.left]
    omega
  · rw [hmain]
    dsimp only [Phase.left]
    omega

/-- **NO RUN IS LONGER THAN THE WEIGHT AT FIRST.** -/
theorem Outline.length_le (hcost : O.Lowers cost) {m : μ} (h0 : ∀ i, i < F.n → O.Holds i none m)
    {as : List Action} {s : State μ τ} (h : runActions F.act (State.start m) as = some s) :
    as.length ≤ F.weight cost (State.start m) := by
  have hle := length_le_of_measure (fun s => s.main ≠ .exited → Live O s) (F.weight cost) (by
    intro s a s' hs hstep
    have hlive := hs (not_exited_of_act hstep)
    refine ⟨fun hs' => hlive.act hstep hs', ?_⟩
    cases a with
    | thread i => exact hlive.weight_threadStep hcost hstep
    | main created => exact hlive.weight_mainStep hstep) as (fun _ => Live.start h0) h
  omega

end bounded

end ForkJoin

end ConcurrencyCrypto.Library
