/-
  ConcurrencyCrypto.Library.Fairness
  ──────────────────────────────────
  **BOUNDED WORK, AND RUNS UNDER A FAIR SCHEDULER.**

  The threads of a system are of two kinds.  Some work: each of their steps
  lowers a measure.  The others only idle along, and may do so for ever.

    • `work_le_of_measure` — no run has more working steps than the measure
                             is at first;
    • `Endless.not_fair`   — where some working thread can always step, a run
                             without end starves one of them.
-/
import ConcurrencyCrypto.Library.Transition

namespace ConcurrencyCrypto.Library

variable {σ α ι : Type*}

/-! ## §1. Bounded work. -/

/-- **The variant rule for some of the steps**: those that `works` names lower
the measure, and the others do not raise it. -/
theorem work_le_of_measure {step : σ → α → Option σ} (works : α → Bool) (I : σ → Prop)
    (measure : σ → Nat) (hkeep : ∀ s a s', I s → step s a = some s' → I s')
    (hwork : ∀ s a s', I s → step s a = some s' →
      measure s' + (works a).toNat ≤ measure s) (as : List α) :
    ∀ {s s' : σ}, I s → runActions step s as = some s' →
      as.countP works + measure s' ≤ measure s := by
  induction as with
  | nil =>
      intro s s' _ h
      injection h with h
      rw [h, List.countP_nil, Nat.zero_add]
  | cons a as ih =>
      intro s s' hI h
      obtain ⟨s₁, hfirst, hrest⟩ := Option.bind_eq_some_iff.mp h
      have hle := ih (hkeep s a s₁ hI hfirst) hrest
      have hstep := hwork s a s₁ hI hfirst
      rw [List.countP_cons]
      cases hcase : works a with
      | true =>
          rw [hcase, Bool.toNat_true] at hstep
          show as.countP works + 1 + measure s' ≤ measure s
          omega
      | false =>
          rw [hcase, Bool.toNat_false] at hstep
          show as.countP works + 0 + measure s' ≤ measure s
          omega

/-! ## §2. Runs without end. -/

/-- A run without end. -/
structure Endless (step : σ → α → Option σ) where
  state : Nat → σ
  action : Nat → α
  next : ∀ n, step (state n) (action n) = some (state (n + 1))

/-- Thread `i` can step. -/
def ThreadEnabled (thread : α → ι) (step : σ → α → Option σ) (s : σ) (i : ι) : Prop :=
  ∃ a, thread a = i ∧ Enabled step s a

namespace Endless
variable {step : σ → α → Option σ}

/-- **Weak fairness** towards thread `i`: once it can step in all states to
come, it does step. -/
def Fair (thread : α → ι) (r : Endless step) (i : ι) : Prop :=
  ∀ n, (∀ m, n ≤ m → ThreadEnabled thread step (r.state m) i) →
    ∃ m, n ≤ m ∧ thread (r.action m) = i

theorem invariant (r : Endless step) {I : σ → Prop} (h0 : I (r.state 0))
    (hkeep : ∀ s a s', I s → step s a = some s' → I s') (n : Nat) : I (r.state n) := by
  induction n with
  | zero => exact h0
  | succ n ih => exact hkeep _ _ _ ih (r.next n)

/-- From some time on the measure has its least value. -/
theorem exists_least (r : Endless step) (measure : σ → Nat) :
    ∃ n, ∀ m, measure (r.state n) ≤ measure (r.state m) := by
  obtain ⟨v, ⟨n, rfl⟩, hmin⟩ := WellFounded.has_min Nat.lt_wfRel.wf
    (Set.range fun n => measure (r.state n)) ⟨_, ⟨0, rfl⟩⟩
  exact ⟨n, fun m => Nat.le_of_not_lt (hmin _ ⟨m, rfl⟩)⟩

/-- **A RUN WITHOUT END IS NOT FAIR**, if working threads lower a measure that
no other thread raises, wherever there is a step some working thread can take
one, and no other thread ever stops a working one. -/
theorem not_fair (r : Endless step) (thread : α → ι) (works : ι → Bool) {I : σ → Prop}
    (measure : σ → Nat) (h0 : I (r.state 0))
    (hkeep : ∀ s a s', I s → step s a = some s' → I s')
    (hwork : ∀ s a s', I s → step s a = some s' →
      measure s' + (works (thread a)).toNat ≤ measure s)
    (hgo : ∀ s a, I s → Enabled step s a →
      ∃ i, works i = true ∧ ThreadEnabled thread step s i)
    (hstay : ∀ s a s' i, I s → step s a = some s' → works (thread a) = false →
      works i = true → ThreadEnabled thread step s i → ThreadEnabled thread step s' i) :
    ∃ i, works i = true ∧ ¬ r.Fair thread i := by
  obtain ⟨n, hleast⟩ := r.exists_least measure
  have hinv := r.invariant h0 hkeep
  have hsame : ∀ m, n ≤ m → measure (r.state m) = measure (r.state n) := by
    intro m hm
    induction m, hm using Nat.le_induction with
    | base => rfl
    | succ m hm ih =>
        have hle := hwork _ _ _ (hinv m) (r.next m)
        have hn := hleast (m + 1)
        omega
  -- behind the least value nobody works
  have hidle : ∀ m, n ≤ m → works (thread (r.action m)) = false := by
    intro m hm
    have hstep := hwork _ _ _ (hinv m) (r.next m)
    rw [hsame m hm, hsame (m + 1) (Nat.le_succ_of_le hm)] at hstep
    rw [← Bool.not_eq_true, ← Bool.toNat_eq_one]
    omega
  -- so a thread that can work then waits for ever
  obtain ⟨i, hi, hgo⟩ := hgo _ _ (hinv n) ⟨_, r.next n⟩
  have hwaits : ∀ m, n ≤ m → ThreadEnabled thread step (r.state m) i := by
    intro m hm
    induction m, hm using Nat.le_induction with
    | base => exact hgo
    | succ m hm ih => exact hstay _ _ _ i (hinv m) (r.next m) (hidle m hm) hi ih
  refine ⟨i, hi, ?_⟩
  intro hfair
  obtain ⟨m, hm, hthread⟩ := hfair n hwaits
  have hnot := hidle m hm
  rw [hthread, hi] at hnot
  cases hnot

end Endless

end ConcurrencyCrypto.Library
