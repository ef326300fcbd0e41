/-
  ConcurrencyCrypto.Library.Conflicts
  ───────────────────────────────────
  **GRANTING CONFLICTING CLAIMS.**

  Users claim something that conflicts with what certain other users claim.
  A claim is granted when no conflicting claim is; it is looked at when it is
  made and, if it had to wait, again when a conflicting one is given back.

    • `Settled` — no two conflicting claims are granted, and whoever waits
      does so because of a granted claim;
    • `Settled.request`, `Settled.release` — both operations keep it, if a
      release looks at all users in conflict again.
-/
import Mathlib

namespace ConcurrencyCrypto.Library

/-- What a user has of its claim. -/
inductive Phase where
  | idle
  | waiting
  | granted
  deriving DecidableEq, Repr

section conflicts
variable {V : Type*} [DecidableEq V] (conflict : V → V → Prop)

/-- No claim in conflict with that of `v` is granted. -/
def Free (p : V → Phase) (v : V) : Prop := ∀ u, conflict v u → p u ≠ .granted

open Classical in
/-- Look at the claim of `v`: grant it if it waits and can be granted. -/
noncomputable def tryGrant (p : V → Phase) (v : V) : V → Phase :=
  if p v = .waiting ∧ Free conflict p v then Function.update p v .granted else p

/-- Look at some claims, one after the other. -/
noncomputable def tryAll (p : V → Phase) (vs : List V) : V → Phase :=
  vs.foldl (tryGrant conflict) p

/-- No two conflicting claims are granted. -/
def Exclusive (p : V → Phase) : Prop :=
  ∀ u v, conflict u v → p u = .granted → p v ≠ .granted

/-- The claims of these users wait for a reason. -/
def Justified (p : V → Phase) (v : V) : Prop :=
  p v = .waiting → ∃ u, conflict v u ∧ p u = .granted

/-- **Conflicts are settled.** -/
structure Settled (p : V → Phase) : Prop where
  exclusive : Exclusive conflict p
  justified : ∀ v, Justified conflict p v

variable {conflict}

/-! ## §1. Looking at one claim. -/

theorem tryGrant_of_ne (p : V → Phase) {u v : V} (h : u ≠ v) :
    tryGrant conflict p v u = p u := by
  unfold tryGrant
  split
  · exact Function.update_of_ne h _ _
  · rfl

/-- A grant is not taken back. -/
theorem tryGrant_granted {p : V → Phase} {u : V} (v : V) (h : p u = .granted) :
    tryGrant conflict p v u = .granted := by
  by_cases huv : u = v
  · subst huv
    unfold tryGrant
    rw [if_neg (by rw [h]; exact fun hc => nomatch hc.1), h]
  · rw [tryGrant_of_ne p huv, h]

/-- Looking neither makes nor ends a claim. -/
theorem tryGrant_idle_iff (p : V → Phase) (u v : V) :
    tryGrant conflict p v u = .idle ↔ p u = .idle := by
  by_cases huv : u = v
  · subst huv
    unfold tryGrant
    split
    next h => rw [Function.update_self, h.1]; exact ⟨nofun, nofun⟩
    next => exact Iff.rfl
  · rw [tryGrant_of_ne p huv]

/-- **Looking at a claim keeps the grants compatible.** -/
theorem Exclusive.tryGrant (hsymm : ∀ u v, conflict u v → conflict v u)
    (hirr : ∀ v, ¬ conflict v v) {p : V → Phase} (h : Exclusive conflict p) (w : V) :
    Exclusive conflict (Library.tryGrant conflict p w) := by
  unfold Library.tryGrant
  split
  next hw =>
    obtain ⟨-, hfree⟩ := hw
    intro u v huv hu
    by_cases huw : u = w
    · subst huw
      have hvu : v ≠ u := fun hc => hirr u (hc ▸ huv)
      rw [Function.update_of_ne hvu]
      exact hfree v huv
    · rw [Function.update_of_ne huw] at hu
      by_cases hvw : v = w
      · subst hvw
        exact absurd hu (hfree u (hsymm u v huv))
      · rw [Function.update_of_ne hvw]
        exact h u v huv hu
  next => exact h

/-- A claim that has been looked at waits for a reason. -/
theorem justified_tryGrant_self (p : V → Phase) (v : V) :
    Justified conflict (tryGrant conflict p v) v := by
  intro hwait
  unfold tryGrant at hwait ⊢
  split at hwait
  · rw [Function.update_self] at hwait
    cases hwait
  next hnot =>
    rw [if_neg hnot]
    by_contra hnone
    exact hnot ⟨hwait, fun u hu hg => hnone ⟨u, hu, hg⟩⟩

/-- Reasons to wait stay when other claims are looked at. -/
theorem Justified.tryGrant {p : V → Phase} {v : V} (h : Justified conflict p v) (w : V) :
    Justified conflict (Library.tryGrant conflict p w) v := by
  by_cases hvw : v = w
  · subst hvw
    exact justified_tryGrant_self p v
  · intro hwait
    rw [tryGrant_of_ne p hvw] at hwait
    obtain ⟨u, hu, hg⟩ := h hwait
    exact ⟨u, hu, tryGrant_granted w hg⟩

/-- **After a look at all claims that may wait for none, all is settled.** -/
theorem settled_tryAll (hsymm : ∀ u v, conflict u v → conflict v u)
    (hirr : ∀ v, ¬ conflict v v) (vs : List V) :
    ∀ (p : V → Phase), Exclusive conflict p →
      (∀ v, v ∉ vs → Justified conflict p v) → Settled conflict (tryAll conflict p vs) := by
  induction vs with
  | nil =>
      intro p hex hj
      exact ⟨hex, fun v => hj v List.not_mem_nil⟩
  | cons w vs ih =>
      intro p hex hj
      refine ih (tryGrant conflict p w) (hex.tryGrant hsymm hirr w) ?_
      intro v hv
      by_cases hvw : v = w
      · subst hvw
        exact justified_tryGrant_self p v
      · exact (hj v (by simp [hvw, hv])).tryGrant w

/-! ## §2. The operations. -/

namespace Settled

variable {p : V → Phase}

/-- **A new claim**, looked at once. -/
theorem request (hsymm : ∀ u v, conflict u v → conflict v u) (hirr : ∀ v, ¬ conflict v v)
    (h : Settled conflict p) {v : V} (hv : p v = .idle) :
    Settled conflict (tryAll conflict (Function.update p v .waiting) [v]) := by
  -- the waiting claim takes nothing away from the others
  have hgranted : ∀ u, Function.update p v .waiting u = .granted ↔ p u = .granted := by
    intro u
    by_cases huv : u = v
    · subst huv
      rw [Function.update_self, hv]
      exact ⟨nofun, nofun⟩
    · rw [Function.update_of_ne huv]
  refine settled_tryAll hsymm hirr [v] _ ?_ ?_
  · intro u w huw hu hw
    exact h.exclusive u w huw ((hgranted u).mp hu) ((hgranted w).mp hw)
  · intro u hu hwait
    rw [Function.update_of_ne (by simpa using hu)] at hwait
    obtain ⟨w, huw, hw⟩ := h.justified u hwait
    exact ⟨w, huw, (hgranted w).mpr hw⟩

/-- **A claim given back**: whoever may have waited for it is looked at. -/
theorem release (hsymm : ∀ u v, conflict u v → conflict v u) (hirr : ∀ v, ¬ conflict v v)
    (h : Settled conflict p) (v : V) {vs : List V} (hvs : ∀ u, conflict u v → u ∈ vs) :
    Settled conflict (tryAll conflict (Function.update p v .idle) vs) := by
  refine settled_tryAll hsymm hirr vs _ ?_ ?_
  · intro u w huw hu hw
    have hgranted : ∀ x, Function.update p v .idle x = .granted → p x = .granted := by
      intro x hx
      by_cases hxv : x = v
      · rw [hxv, Function.update_self] at hx
        cases hx
      · rwa [Function.update_of_ne hxv] at hx
    exact h.exclusive u w huw (hgranted u hu) (hgranted w hw)
  · intro u hu hwait
    by_cases huv : u = v
    · rw [huv, Function.update_self] at hwait
      cases hwait
    · rw [Function.update_of_ne huv] at hwait
      obtain ⟨w, huw, hw⟩ := h.justified u hwait
      -- the one `u` waits for is not `v`, or `u` would be on the list
      have hwv : w ≠ v := fun hc => hu (hvs u (hc ▸ huw))
      exact ⟨w, huw, by rw [Function.update_of_ne hwv, hw]⟩

end Settled

theorem tryAll_idle_iff (vs : List V) :
    ∀ (p : V → Phase) (u : V), tryAll conflict p vs u = .idle ↔ p u = .idle := by
  induction vs with
  | nil => exact fun p u => Iff.rfl
  | cons w vs ih => exact fun p u => (ih _ u).trans (tryGrant_idle_iff p u w)

end conflicts

end ConcurrencyCrypto.Library
