/-
  ConcurrencyCrypto.Library.Transition
  ────────────────────────────────────
  **SYSTEMS THAT TAKE ONE STEP AFTER ANOTHER.**

  A system is a partial function `step s a`: what action `a` does in state
  `s`, if it can be taken there.  Several threads are one system whose actions
  say who steps, so a run is an interleaving.
-/
import Mathlib

namespace ConcurrencyCrypto.Library

variable {σ α : Type*}

/-- The action can be taken. -/
def Enabled (step : σ → α → Option σ) (s : σ) (a : α) : Prop := ∃ s', step s a = some s'

theorem not_enabled_iff {step : σ → α → Option σ} {s : σ} {a : α} :
    ¬ Enabled step s a ↔ step s a = none := by
  unfold Enabled
  cases step s a with
  | none => simp
  | some s' => simp

/-- Some sequence of actions leads from the first state to the second. -/
def Reaches (step : σ → α → Option σ) : σ → σ → Prop :=
  Relation.ReflTransGen fun s s' => ∃ a, step s a = some s'

/-- Some sequence of actions leads there, each of them as `ok` says. -/
def ReachesBy (ok : α → Prop) (step : σ → α → Option σ) : σ → σ → Prop :=
  Relation.ReflTransGen fun s s' => ∃ a, ok a ∧ step s a = some s'

/-- Some sequence of actions leads there, each of them as `ok` says of the
state it is taken in. -/
def ReachesWhile (ok : σ → α → Prop) (step : σ → α → Option σ) : σ → σ → Prop :=
  Relation.ReflTransGen fun s s' => ∃ a, ok s a ∧ step s a = some s'

/-- The state after a sequence of actions, if all can be taken. -/
def runActions (step : σ → α → Option σ) : σ → List α → Option σ
  | s, [] => some s
  | s, a :: as => (step s a).bind fun s' => runActions step s' as

/-- **The invariant rule**: what holds at first and is kept by every step
holds in every state reached. -/
theorem Reaches.invariant {step : σ → α → Option σ} {I : σ → Prop} {s₀ s : σ}
    (h : Reaches step s₀ s) (h0 : I s₀)
    (hstep : ∀ s a s', I s → step s a = some s' → I s') : I s := by
  induction h with
  | refl => exact h0
  | tail _ hlast ih =>
      obtain ⟨a, ha⟩ := hlast
      exact hstep _ a _ ih ha

/-- The invariant rule for runs of such actions. -/
theorem ReachesBy.invariant {ok : α → Prop} {step : σ → α → Option σ} {I : σ → Prop} {s₀ s : σ}
    (h : ReachesBy ok step s₀ s) (h0 : I s₀)
    (hstep : ∀ s a s', I s → ok a → step s a = some s' → I s') : I s := by
  induction h with
  | refl => exact h0
  | tail _ hlast ih =>
      obtain ⟨a, hok, ha⟩ := hlast
      exact hstep _ a _ ih hok ha

/-- The invariant rule for runs on a condition. -/
theorem ReachesWhile.invariant {ok : σ → α → Prop} {step : σ → α → Option σ} {I : σ → Prop}
    {s₀ s : σ} (h : ReachesWhile ok step s₀ s) (h0 : I s₀)
    (hstep : ∀ s a s', I s → ok s a → step s a = some s' → I s') : I s := by
  induction h with
  | refl => exact h0
  | tail _ hlast ih =>
      obtain ⟨a, hok, ha⟩ := hlast
      exact hstep _ a _ ih hok ha

/-- Such actions are actions. -/
theorem ReachesBy.reaches {ok : α → Prop} {step : σ → α → Option σ} {s s' : σ}
    (h : ReachesBy ok step s s') : Reaches step s s' := by
  induction h with
  | refl => exact Relation.ReflTransGen.refl
  | tail _ hlast ih =>
      obtain ⟨a, -, ha⟩ := hlast
      exact ih.tail ⟨a, ha⟩

/-- A concrete run reaches its last state. -/
theorem reaches_of_run {step : σ → α → Option σ} (as : List α) :
    ∀ {s s' : σ}, runActions step s as = some s' → Reaches step s s' := by
  induction as with
  | nil =>
      intro s s' h
      injection h with h
      rw [h]
      exact Relation.ReflTransGen.refl
  | cons a as ih =>
      intro s s' h
      obtain ⟨s₁, hstep, hrest⟩ := Option.bind_eq_some_iff.mp h
      exact Relation.ReflTransGen.head ⟨a, hstep⟩ (ih hrest)

theorem reachesBy_of_run {ok : α → Prop} {step : σ → α → Option σ} (as : List α) :
    ∀ {s s' : σ}, (∀ a ∈ as, ok a) → runActions step s as = some s' → ReachesBy ok step s s' := by
  induction as with
  | nil =>
      intro s s' _ h
      injection h with h
      rw [h]
      exact Relation.ReflTransGen.refl
  | cons a as ih =>
      intro s s' hok h
      obtain ⟨s₁, hstep, hrest⟩ := Option.bind_eq_some_iff.mp h
      exact Relation.ReflTransGen.head ⟨a, hok a List.mem_cons_self, hstep⟩
        (ih (fun a' ha' => hok a' (List.mem_cons_of_mem a ha')) hrest)

/-- A concrete run on a condition that can be tested. -/
theorem reachesWhile_of_run {ok : σ → α → Prop} [∀ s a, Decidable (ok s a)]
    {step : σ → α → Option σ} (as : List α) : ∀ {s s' : σ},
      runActions (fun s a => if ok s a then step s a else none) s as = some s' →
        ReachesWhile ok step s s' := by
  induction as with
  | nil =>
      intro s s' h
      injection h with h
      rw [h]
      exact Relation.ReflTransGen.refl
  | cons a as ih =>
      intro s s' h
      obtain ⟨s₁, hstep, hrest⟩ := Option.bind_eq_some_iff.mp h
      obtain ⟨hok, hstep⟩ := Option.ite_none_right_eq_some.mp hstep
      exact Relation.ReflTransGen.head ⟨a, hok, hstep⟩ (ih hrest)

/-- Then it is a run. -/
theorem ReachesWhile.reaches {ok : σ → α → Prop} {step : σ → α → Option σ} {s s' : σ}
    (h : ReachesWhile ok step s s') : Reaches step s s' :=
  h.invariant (I := Reaches step s) Relation.ReflTransGen.refl
    fun _ a _ hs _ hstep => hs.tail ⟨a, hstep⟩

/-- **The variant rule**: where every step lowers a measure, no run has more
steps than the measure is at first. -/
theorem length_le_of_measure {step : σ → α → Option σ} (I : σ → Prop) (measure : σ → Nat)
    (hstep : ∀ s a s', I s → step s a = some s' → I s' ∧ measure s' < measure s)
    (as : List α) : ∀ {s s' : σ}, I s → runActions step s as = some s' →
      as.length + measure s' ≤ measure s := by
  induction as with
  | nil =>
      intro s s' _ h
      injection h with h
      rw [h, List.length_nil, Nat.zero_add]
  | cons a as ih =>
      intro s s' hI h
      obtain ⟨s₁, hfirst, hrest⟩ := Option.bind_eq_some_iff.mp h
      obtain ⟨hI₁, hlt⟩ := hstep s a s₁ hI hfirst
      have hle := ih hI₁ hrest
      rw [List.length_cons]
      omega

/-- **Running to the end**: where every such step lowers a measure, such steps
lead to a state that allows none of them. -/
theorem exists_end_of_measure (ok : α → Prop) {step : σ → α → Option σ} (I : σ → Prop)
    (measure : σ → Nat)
    (hstep : ∀ s a s', I s → ok a → step s a = some s' → I s' ∧ measure s' < measure s)
    (s : σ) (h : I s) :
    ∃ s', ReachesBy ok step s s' ∧ I s' ∧ ∀ a, ok a → step s' a = none := by
  induction hm : measure s using Nat.strong_induction_on generalizing s with
  | _ m ih =>
      by_cases hend : ∀ a, ok a → step s a = none
      · exact ⟨s, Relation.ReflTransGen.refl, h, hend⟩
      · obtain ⟨a, ha⟩ := not_forall.mp hend
        obtain ⟨hok, hgoes⟩ := Classical.not_imp.mp ha
        obtain ⟨s₁, hs₁⟩ := Option.ne_none_iff_exists'.mp hgoes
        obtain ⟨hI₁, hlt⟩ := hstep s a s₁ h hok hs₁
        obtain ⟨s', hreach, hI', hstuck⟩ := ih (measure s₁) (by omega) s₁ hI₁ rfl
        exact ⟨s', Relation.ReflTransGen.head ⟨a, hok, hs₁⟩ hreach, hI', hstuck⟩

/-- What can be read off the end of a concrete run. -/
theorem exists_reaches {β : Type*} {step : σ → α → Option σ} {s : σ} (as : List α) (f : σ → β)
    {b : β} (h : (runActions step s as).map f = some b) :
    ∃ s', Reaches step s s' ∧ f s' = b := by
  obtain ⟨s', hs', hf⟩ := Option.map_eq_some_iff.mp h
  exact ⟨s', reaches_of_run as hs', hf⟩

end ConcurrencyCrypto.Library
