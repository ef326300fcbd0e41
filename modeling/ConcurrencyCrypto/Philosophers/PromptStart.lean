/-
  ConcurrencyCrypto.Philosophers.PromptStart
  ──────────────────────────────────────────
  **WHEN EVERY THREAD READS ITS INDEX IN TIME.**

  "The usleep reduces the risk but is not a guarantee", says the comment in
  main.  Where it does what it is there for, the program is the machine of
  philosophers with their own indices.

    • `prompt_start_refines` — the simulation, and what carries over with it.
-/
import ConcurrencyCrypto.Philosophers.Program

namespace ConcurrencyCrypto.Philosophers

open ConcurrencyCrypto.Library

variable {N : Nat}

/-! ## §1. When all is as intended. -/

/-- Where the thread is in its loop; until it has its index it has done
nothing. -/
def ThreadPc.pc : ThreadPc → Pc
  | .loop _ pc => pc
  | _ => .think

/-- Thread `k` as philosopher `k`. -/
def Program.view (s : Program N) : State N :=
  { mutex := s.mutex, table := s.table, pc := fun k => (s.thread k).pc }

/-- Every index that was read is the thread's own. -/
def Program.Own (s : Program N) : Prop :=
  ∀ (k : Fin N) v pc, s.thread k = .loop v pc → v = k.val

section refinement
variable {s s' : Program N}

theorem view_update (s : Program N) (k : Fin N) (t : ThreadPc) :
    (fun j => (Function.update s.thread k t j).pc)
      = Function.update (fun j => (s.thread j).pc) k t.pc := by
  funext j
  by_cases hj : j = k
  · rw [hj, Function.update_self, Function.update_self]
  · rw [Function.update_of_ne hj, Function.update_of_ne hj]

/-- A thread that does not move in its loop is not seen to move. -/
theorem view_pc_idle (s : Program N) {k : Fin N} {t : ThreadPc} (h : (s.thread k).pc = t.pc) :
    (fun j => (Function.update s.thread k t j).pc) = fun j => (s.thread j).pc := by
  rw [view_update, Function.update_eq_self_iff.mpr h.symm]

/-- **A step under one's own index** is a step of the machine of philosophers,
or none that is seen. -/
theorem view_step (hown : s.Own) {a : ProgramAction N} (hstep : s.step a = some s')
    (hborn : ∀ h : s.i < N, s.main = .create → s.thread ⟨s.i, h⟩ = .unborn) :
    s'.undefined = false ∧ (s'.view = s.view ∨ ∃ k, step s.view k = some s'.view) := by
  obtain ⟨hdefined, ⟨_, _, heffect⟩ | ⟨k, _, heffect⟩⟩ := step_effect hstep
  · cases heffect with
    | created hmain hi hs' =>
        rw [hs']
        refine ⟨hdefined, Or.inl ?_⟩
        unfold Program.view
        rw [view_pc_idle s (by rw [hborn hi hmain]; rfl)]
    | failed hmain hs' =>
        rw [hs']
        exact ⟨hdefined, Or.inl rfl⟩
    | joins hmain hi hs' =>
        rw [hs']
        exact ⟨hdefined, Or.inl rfl⟩
    | counts hmain hs' =>
        rw [hs']
        exact ⟨hdefined, Or.inl rfl⟩
  · cases heffect with
    | read hentry hs' =>
        rw [hs']
        refine ⟨hdefined, Or.inl ?_⟩
        unfold Program.view
        rw [view_pc_idle s (by rw [hentry]; rfl)]
    | own i pc t hloop hown' hs' =>
        obtain rfl : i = k := Fin.ext (hown k i.val pc hloop)
        rw [hs']
        refine ⟨hdefined, Or.inr ⟨i, ?_⟩⟩
        have hview := step_of_alone (t := s.view) hown' rfl rfl (by
          show (s.thread i).pc = pc
          rw [hloop]
          rfl)
        rw [hview]
        unfold Program.view
        rw [view_update]
        rfl
    | stray i pc hloop hi hmain hi' hthread =>
        have hk := hown k i pc hloop
        have := k.isLt
        omega

/-- The program with a `usleep` that is long enough: main counts on only when
every thread has read its index. -/
def Program.promptStep (s : Program N) (a : ProgramAction N) : Option (Program N) :=
  match a with
  | .main created =>
      if s.main = .sleep ∧ ∃ k, s.thread k = .entry then none else s.step (.main created)
  | .thread k => s.step (.thread k)

theorem step_of_promptStep {a : ProgramAction N} (h : s.promptStep a = some s') :
    s.step a = some s' := by
  unfold Program.promptStep at h
  cases a with
  | main created =>
      simp only at h
      split at h
      · cases h
      · exact h
  | thread k => exact h

/-- **What a long sleep ensures**: a thread that has not read its index is the
one main has just created. -/
structure Prompt (s : Program N) : Prop where
  waiting : ∀ k : Fin N, s.thread k = .entry → s.main = .sleep ∧ k.val = s.i
  own : s.Own
  /-- Nobody was created twice. -/
  ahead : s.main = .create → ∀ k : Fin N, s.i ≤ k.val → s.thread k = .unborn
  asleep : s.main = .sleep → ∀ k : Fin N, s.i < k.val → s.thread k = .unborn

theorem Prompt.own_update (h : Prompt s) {k : Fin N} {t : ThreadPc}
    (ht : ∀ v pc, t = .loop v pc → v = k.val) (j : Fin N) (v : Nat) (pc : Pc)
    (hj : Function.update s.thread k t j = .loop v pc) : v = j.val := by
  by_cases hjk : j = k
  · rw [hjk, Function.update_self] at hj
    rw [hjk]
    exact ht v pc hj
  · rw [Function.update_of_ne hjk] at hj
    exact h.own j v pc hj

/-- A thread moves in its loop, or into it. -/
theorem Prompt.thread (h : Prompt s) {k : Fin N} {v : Nat} {pc : Pc} (hv : v = k.val)
    (hborn : s.thread k ≠ .unborn) {m : Nat} {table : Table N} :
    Prompt { s with mutex := m, table := table
                    thread := Function.update s.thread k (.loop v pc) } := by
  have hother : ∀ j : Fin N, s.thread j = .unborn →
      Function.update s.thread k (.loop v pc) j = .unborn := by
    intro j hj
    have hjk : j ≠ k := by
      intro heq
      rw [heq] at hj
      exact hborn hj
    rw [Function.update_of_ne hjk]
    exact hj
  refine ⟨?_, ?_, fun hmain j hj => hother j (h.ahead hmain j hj),
    fun hmain j hj => hother j (h.asleep hmain j hj)⟩
  · intro j hj
    dsimp only at hj
    by_cases hjk : j = k
    · rw [hjk, Function.update_self] at hj
      cases hj
    · rw [Function.update_of_ne hjk] at hj
      exact h.waiting j hj
  · exact h.own_update (by
      intro w q hw
      injection hw with hw _
      rw [← hw]
      exact hv)

theorem Prompt.step (h : Prompt s) {a : ProgramAction N} (hstep : s.promptStep a = some s') :
    Prompt s' := by
  have hplain := step_of_promptStep hstep
  rcases (step_effect hplain).2 with ⟨created, rfl, heffect⟩ | ⟨k, -, heffect⟩
  · cases heffect with
    | created hmain hi hs' =>
        rw [hs']
        refine ⟨?_, h.own_update nofun, nofun, ?_⟩
        · intro j hj
          dsimp only at hj
          by_cases hji : j = ⟨s.i, hi⟩
          · rw [hji]
            exact ⟨rfl, rfl⟩
          · rw [Function.update_of_ne hji] at hj
            have hsleep := (h.waiting j hj).1
            rw [hmain] at hsleep
            cases hsleep
        · intro _ j hj
          dsimp only at hj ⊢
          have hji : j ≠ ⟨s.i, hi⟩ := by
            intro heq
            rw [heq] at hj
            exact Nat.lt_irrefl _ hj
          rw [Function.update_of_ne hji]
          exact h.ahead hmain j (Nat.le_of_lt hj)
    | failed hmain hs' =>
        rw [hs']
        refine ⟨?_, h.own, nofun, nofun⟩
        intro j hj
        have hsleep := (h.waiting j hj).1
        rw [hmain] at hsleep
        cases hsleep
    | joins hmain hi hs' =>
        rw [hs']
        refine ⟨?_, h.own, nofun, nofun⟩
        intro j hj
        have hsleep := (h.waiting j hj).1
        rw [hmain] at hsleep
        cases hsleep
    | counts hmain hs' =>
        -- nobody is still to read
        have hread : ∀ j, s.thread j ≠ .entry := by
          intro j hj
          have hnone : s.promptStep (.main created) = none := if_pos ⟨hmain, j, hj⟩
          rw [hnone] at hstep
          cases hstep
        rw [hs']
        exact ⟨fun j hj => absurd hj (hread j), h.own,
          fun _ j hj => h.asleep hmain j hj, nofun⟩
  · cases heffect with
    | read hentry hs' =>
        rw [hs']
        exact h.thread (h.waiting k hentry).2.symm (by rw [hentry]; exact nofun)
    | own i pc t hloop hown' hs' =>
        rw [hs']
        exact h.thread (h.own k i.val pc hloop) (by rw [hloop]; exact nofun)
    | stray i pc hloop hi hmain hi' hthread =>
        have hk := h.own k i pc hloop
        have := k.isLt
        omega

theorem prompt_start (state : Fin N → Int32) : Prompt (Program.start state) where
  waiting := nofun
  own := nofun
  ahead _ _ _ := rfl
  asleep := nofun

/-- **A PROMPT START IS THE PROTOCOL.**  If main counts on only when every thread
has read its index, then in every run thread `k` is philosopher `k`, no array
is left, and the program has come where the machine of philosophers can come
from the same state array.  So neighbours never eat together and nobody is
forgotten, if no entry of the array reads as HUNGRY or EATING at first. -/
theorem prompt_start_refines {state : Fin N → Int32} {s : Program N}
    (h : Reaches Program.promptStep (Program.start state) s) :
    s.Own ∧ s.undefined = false ∧ Reaches step (State.start state) s.view ∧
      (2 ≤ N → (∀ i, state i ≠ HUNGRY ∧ state i ≠ EATING) →
        s.view.Excludes ∧ s.view.NobodyForgotten) := by
  have hall : Prompt s ∧ s.undefined = false ∧ Reaches step (State.start state) s.view := by
    refine h.invariant (I := fun s => Prompt s ∧ s.undefined = false ∧
      Reaches step (State.start state) s.view)
      ⟨prompt_start state, rfl, Relation.ReflTransGen.refl⟩ ?_
    intro s a s' hs hstep
    obtain ⟨hprompt, -, hreach⟩ := hs
    obtain ⟨hdefined, hview⟩ := view_step hprompt.own (step_of_promptStep hstep)
      (fun hi hmain => hprompt.ahead hmain ⟨s.i, hi⟩ (Nat.le_refl _))
    refine ⟨hprompt.step hstep, hdefined, ?_⟩
    rcases hview with heq | ⟨k, hk⟩
    · rw [heq]
      exact hreach
    · exact hreach.tail ⟨k, hk⟩
  obtain ⟨hprompt, hdefined, hreach⟩ := hall
  refine ⟨hprompt.own, hdefined, hreach, ?_⟩
  intro hN hclean
  have hinv := Invariant.of_reaches hN hclean hreach
  exact ⟨fun i j hij => hinv.exclude hij, hinv.nobodyForgotten⟩

/-- Two threads are created and read their indices; then the first takes its
sticks. -/
def promptRun : List (ProgramAction 2) :=
  [.main true, .thread ⟨0, Nat.two_pos⟩, .main true, .main true,
    .thread ⟨1, Nat.one_lt_two⟩] ++ List.replicate 5 (.thread ⟨0, Nat.two_pos⟩)

theorem prompt_start_refines_two : ∃ s : Program 2, s.thread 0 = .loop 0 .eat ∧
    s.Own ∧ s.undefined = false ∧ Reaches step (State.start fun _ => THINKING) s.view ∧
      (2 ≤ 2 → (∀ _ : Fin 2, THINKING ≠ HUNGRY ∧ THINKING ≠ EATING) →
        s.view.Excludes ∧ s.view.NobodyForgotten) := by
  obtain ⟨s, hs, heat⟩ : ∃ s : Program 2,
      Reaches Program.promptStep (Program.start fun _ => THINKING) s ∧
        s.thread 0 = .loop 0 .eat :=
    exists_reaches promptRun (fun s : Program 2 => s.thread 0) (by decide +kernel)
  exact ⟨s, heat, prompt_start_refines hs⟩

end refinement

end ConcurrencyCrypto.Philosophers
