/-
  ConcurrencyCrypto.Library.Lifo
  ──────────────────────────────
  **HISTORIES OF A LAST-IN-FIRST-OUT STACK.**

  A history is a list of completed operations.  It is legal if a sequential
  stack, started empty, answers each `pop` as the history says.  From that:

    • `run_perm`    — what was pushed is what was popped and what is left;
    • `pop_matches` — between a push and the pop that returns its value,
                      everything pushed has been popped again.
-/
import Mathlib

namespace ConcurrencyCrypto.Library

namespace Lifo

variable {α : Type*} [DecidableEq α]

/-- A completed operation. -/
inductive Event (α : Type*) where
  | push (v : α)
  | pop (v : α)
  deriving DecidableEq, Repr

/-- The sequential stack, top first. -/
def apply : List α → Event α → Option (List α)
  | st, .push v => some (v :: st)
  | [], .pop _ => none
  | x :: st, .pop v => if x = v then some st else none

/-- The stack after a history, if it is legal. -/
def run : List α → List (Event α) → Option (List α)
  | st, [] => some st
  | st, e :: es => (apply st e).bind fun st' => run st' es

/-- Everything pushed in the history is popped in it, and nothing else is. -/
def Balanced (es : List (Event α)) : Prop := run [] es = some []

/-- The values pushed, in order. -/
def pushed : List (Event α) → List α
  | [] => []
  | .push v :: es => v :: pushed es
  | .pop _ :: es => pushed es

/-- The values popped, in order. -/
def popped : List (Event α) → List α
  | [] => []
  | .push _ :: es => popped es
  | .pop v :: es => v :: popped es

/-! ## §1. Runs. -/

theorem apply_pop_iff {st st' : List α} {v : α} :
    apply st (.pop v) = some st' ↔ st = v :: st' := by
  cases st with
  | nil => exact ⟨nofun, nofun⟩
  | cons x st =>
      show (if x = v then some st else none) = some st' ↔ _
      by_cases hx : x = v
      · rw [if_pos hx, hx]
        simp
      · rw [if_neg hx]
        simp [hx]

theorem run_append (es fs : List (Event α)) :
    ∀ st : List α, run st (es ++ fs) = (run st es).bind fun st' => run st' fs := by
  induction es with
  | nil => intro st; rfl
  | cons e es ih =>
      intro st
      show (apply st e).bind (fun st' => run st' (es ++ fs)) = _
      cases hstep : apply st e with
      | none => simp [run, hstep]
      | some st' => simp [run, hstep, ih st']

theorem run_concat (es : List (Event α)) (e : Event α) (st : List α) :
    run st (es ++ [e]) = (run st es).bind fun st' => apply st' e := by
  rw [run_append]
  congr 1
  funext st'
  show (apply st' e).bind some = apply st' e
  cases apply st' e <;> rfl

/-- **Nothing is lost and nothing returned twice.** -/
theorem run_perm (es : List (Event α)) :
    ∀ {st st' : List α}, run st es = some st' →
      (st ++ pushed es).Perm (popped es ++ st') := by
  induction es with
  | nil =>
      intro st st' h
      injection h with h
      rw [h]
      simp [pushed, popped]
  | cons e es ih =>
      intro st st' h
      obtain ⟨st₁, hstep, hrest⟩ := Option.bind_eq_some_iff.mp h
      have hperm := ih hrest
      cases e with
      | push v =>
          injection hstep with hstep
          rw [← hstep] at hperm
          show (st ++ v :: pushed es).Perm (popped es ++ st')
          exact List.perm_middle.trans hperm
      | pop v =>
          rw [apply_pop_iff.mp hstep]
          show (v :: (st₁ ++ pushed es)).Perm (v :: (popped es ++ st'))
          exact hperm.cons v

/-! ## §2. Which push a pop answers. -/

/-- A legal history stays legal on top of other values, which it leaves
alone. -/
theorem run_above (es : List (Event α)) (below : List α) :
    ∀ {st st' : List α}, run st es = some st' →
      run (st ++ below) es = some (st' ++ below) := by
  induction es with
  | nil =>
      intro st st' h
      injection h with h
      rw [h]
      rfl
  | cons e es ih =>
      intro st st' h
      obtain ⟨st₁, hstep, hrest⟩ := Option.bind_eq_some_iff.mp h
      refine Option.bind_eq_some_iff.mpr ⟨st₁ ++ below, ?_, ih hrest⟩
      cases e with
      | push v =>
          injection hstep with hstep
          rw [← hstep]
          rfl
      | pop v =>
          rw [apply_pop_iff.mp hstep]
          exact apply_pop_iff.mpr rfl

/-- The top value was pushed, and what came after its push is balanced. -/
theorem top_pushed (es : List (Event α)) :
    ∀ {v : α} {st : List α}, run [] es = some (v :: st) →
      ∃ before after, es = before ++ .push v :: after ∧ Balanced after ∧
        run [] before = some st := by
  -- on the number of events: below a pop lies the push of the value under it
  induction hn : es.length using Nat.strong_induction_on generalizing es with
  | h n ih =>
      intro v st h
      rcases List.eq_nil_or_concat es with rfl | ⟨es', e, rfl⟩
      · cases h
      · rw [List.concat_eq_append] at hn h ⊢
        rw [run_concat] at h
        obtain ⟨st₁, hrun, hlast⟩ := Option.bind_eq_some_iff.mp h
        have hlen : es'.length < n := by
          rw [← hn, List.length_append]
          exact Nat.lt_succ_self _
        cases e with
        | push w =>
            injection hlast with hlast
            injection hlast with hw hst
            subst hw hst
            exact ⟨es', [], rfl, rfl, hrun⟩
        | pop w =>
            rw [apply_pop_iff] at hlast
            subst hlast
            obtain ⟨b₁, a₁, hes', hbal₁, hrun₁⟩ := ih _ hlen es' rfl hrun
            have hb₁ : b₁.length < n := by
              have := congrArg List.length hes'
              rw [List.length_append, List.length_cons] at this
              omega
            obtain ⟨b₂, a₂, hb₁', hbal₂, hrun₂⟩ := ih _ hb₁ b₁ rfl hrun₁
            refine ⟨b₂, a₂ ++ .push w :: a₁ ++ [.pop w], ?_, ?_, hrun₂⟩
            · rw [hes', hb₁']
              simp
            · -- balanced, then a matched pair around something balanced
              have habove : run [w] a₁ = some [w] := run_above a₁ [w] hbal₁
              have hpair : run [] (.push w :: a₁) = some [w] := habove
              unfold Balanced
              rw [run_concat, run_append, hbal₂, Option.bind_some, hpair]
              exact apply_pop_iff.mpr rfl

/-- **A pop returns the latest value not yet popped.** -/
theorem pop_matches {es after : List (Event α)} {v : α} {st : List α}
    (h : run [] (es ++ .pop v :: after) = some st) :
    ∃ before between, es = before ++ .push v :: between ∧ Balanced between := by
  rw [run_append] at h
  obtain ⟨st₁, hrun, hrest⟩ := Option.bind_eq_some_iff.mp h
  obtain ⟨st₂, hpop, -⟩ := Option.bind_eq_some_iff.mp hrest
  rw [apply_pop_iff.mp hpop] at hrun
  obtain ⟨before, between, heq, hbal, -⟩ := top_pushed es hrun
  exact ⟨before, between, heq, hbal⟩

end Lifo

end ConcurrencyCrypto.Library
