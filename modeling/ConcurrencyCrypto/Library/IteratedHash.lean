/-
  ConcurrencyCrypto.Library.IteratedHash
  ──────────────────────────────────────
  **CHAINS OF A COMPRESSION FUNCTION.**

  An iterated hash feeds one block after the other, with the value so far,
  into a compression function.  `Chained f h xs h'` says that the inputs `xs`
  of a run lead from `h` to `h'`.

  `collision_or_suffix` is the Merkle–Damgård argument: two runs from one
  start to one end contain a collision of `f`, unless the blocks of one are
  the last blocks of the other.
-/
import Mathlib

namespace ConcurrencyCrypto.Library

variable {H B : Type*}

/-- The inputs of a run, each starting from the last one's output. -/
def Chained (f : H → B → H) : H → List (H × B) → H → Prop
  | h, [], h' => h = h'
  | h, x :: xs, h' => x.1 = h ∧ Chained f (f x.1 x.2) xs h'

/-- Two different inputs with one output. -/
def Collides (f : H → B → H) (x y : H × B) : Prop := x ≠ y ∧ f x.1 x.2 = f y.1 y.2

variable {f : H → B → H}

theorem Chained.single (f : H → B → H) (h : H) (b : B) : Chained f h [(h, b)] (f h b) :=
  ⟨rfl, rfl⟩

theorem Chained.trans {xs ys : List (H × B)} :
    ∀ {h h₁ h₂ : H}, Chained f h xs h₁ → Chained f h₁ ys h₂ → Chained f h (xs ++ ys) h₂ := by
  induction xs with
  | nil =>
      intro h h₁ h₂ hxs hys
      have hxs : h = h₁ := hxs
      rw [hxs]
      exact hys
  | cons x xs ih =>
      intro h h₁ h₂ hxs hys
      exact ⟨hxs.1, ih hxs.2 hys⟩

/-- The last input of a run. -/
theorem chained_concat {xs : List (H × B)} {x : H × B} :
    ∀ {h h' : H}, Chained f h (xs ++ [x]) h' ↔ Chained f h xs x.1 ∧ f x.1 x.2 = h' := by
  induction xs with
  | nil =>
      intro h h'
      constructor
      · rintro ⟨hx, hf⟩
        exact ⟨hx.symm, hf⟩
      · rintro ⟨hx, hf⟩
        exact ⟨Eq.symm hx, hf⟩
  | cons y xs ih =>
      intro h h'
      constructor
      · rintro ⟨hy, hrest⟩
        obtain ⟨hxs, hf⟩ := ih.mp hrest
        exact ⟨⟨hy, hxs⟩, hf⟩
      · rintro ⟨⟨hy, hxs⟩, hf⟩
        exact ⟨hy, ih.mpr ⟨hxs, hf⟩⟩

/-- **The Merkle–Damgård argument.** -/
theorem collision_or_suffix {h : H} (xs : List (H × B)) :
    ∀ (ys : List (H × B)) (h' : H), Chained f h xs h' → Chained f h ys h' →
      (∃ x ∈ xs, ∃ y ∈ ys, Collides f x y) ∨
        xs.map Prod.snd <:+ ys.map Prod.snd ∨ ys.map Prod.snd <:+ xs.map Prod.snd := by
  -- from the last input of both runs backwards
  induction xs using List.reverseRecOn with
  | nil =>
      intro ys h' _ _
      exact Or.inr (Or.inl (List.nil_suffix))
  | append_singleton xs x ih =>
      intro ys h' hxs hys
      rcases List.eq_nil_or_concat ys with rfl | ⟨ys, y, rfl⟩
      · exact Or.inr (Or.inr (List.nil_suffix))
      · rw [List.concat_eq_append] at hys ⊢
        obtain ⟨hxs, hfx⟩ := chained_concat.mp hxs
        obtain ⟨hys, hfy⟩ := chained_concat.mp hys
        by_cases hxy : x = y
        · -- the same input: the runs agree up to it
          subst hxy
          rcases ih ys x.1 hxs hys with ⟨a, ha, b, hb, hab⟩ | hsuffix | hsuffix
          · exact Or.inl ⟨a, List.mem_append_left _ ha, b, List.mem_append_left _ hb, hab⟩
          · refine Or.inr (Or.inl ?_)
            rw [List.map_append, List.map_append]
            exact List.suffix_append_self_iff.mpr hsuffix
          · refine Or.inr (Or.inr ?_)
            rw [List.map_append, List.map_append]
            exact List.suffix_append_self_iff.mpr hsuffix
        · exact Or.inl ⟨x, by simp, y, by simp, hxy, hfx.trans hfy.symm⟩

end ConcurrencyCrypto.Library
