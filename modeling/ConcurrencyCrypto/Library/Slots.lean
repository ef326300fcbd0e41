/-
  ConcurrencyCrypto.Library.Slots
  ───────────────────────────────
  **STRAIGHT-LINE CODE THROUGH POINTERS INTO AN ARRAY.**

  A routine that is handed pointers to some slots of an array and updates
  them in place, statement after statement.  Where the pointers are
  different,

    • `run_eq_onSlots`  — it does to those slots what it does to variables
      of its own, and nothing to the others,
    • `run_undo`        — the undoing statements in reverse order undo it,
    • `foldl_onSlots`   — calls on disjoint columns of slots, in any order,
      are one parallel step.
-/
import Mathlib

namespace ConcurrencyCrypto.Library

variable {ι κ π α : Type*}

/-! ## §1. One group of slots. -/

section onSlots
variable {s : κ → ι} (f g : (κ → α) → κ → α) (v : ι → α)

/-- `v`, its slots `s` replaced by what `f` makes of them. -/
noncomputable def onSlots (s : κ → ι) (f : (κ → α) → κ → α) (v : ι → α) : ι → α :=
  Function.extend s (f (v ∘ s)) v

theorem onSlots_slot (hs : Function.Injective s) (k : κ) :
    onSlots s f v (s k) = f (v ∘ s) k :=
  hs.extend_apply _ _ k

theorem onSlots_other {i : ι} (hi : ∀ k, s k ≠ i) : onSlots s f v i = v i :=
  Function.extend_apply' _ _ i fun ⟨k, hk⟩ => hi k hk

theorem onSlots_comp (hs : Function.Injective s) : onSlots s f v ∘ s = f (v ∘ s) := by
  funext k
  exact onSlots_slot f v hs k

/-- **Two steps on the same slots are one step.** -/
theorem onSlots_onSlots (hs : Function.Injective s) :
    onSlots s g (onSlots s f v) = onSlots s (g ∘ f) v := by
  funext i
  by_cases hi : ∃ k, s k = i
  · obtain ⟨k, rfl⟩ := hi
    rw [onSlots_slot g _ hs, onSlots_slot (g ∘ f) v hs, onSlots_comp f v hs]
    rfl
  · have hi' : ∀ k, s k ≠ i := fun k hk => hi ⟨k, hk⟩
    rw [onSlots_other g _ hi', onSlots_other f v hi', onSlots_other (g ∘ f) v hi']

theorem onSlots_id (hs : Function.Injective s) : onSlots s id v = v := by
  funext i
  by_cases hi : ∃ k, s k = i
  · obtain ⟨k, rfl⟩ := hi
    exact onSlots_slot id v hs k
  · exact onSlots_other id v fun k hk => hi ⟨k, hk⟩

/-- Undoing on the slots undoes. -/
theorem onSlots_leftInverse (hs : Function.Injective s) {f g : (κ → α) → κ → α}
    (h : Function.LeftInverse g f) : Function.LeftInverse (onSlots s g) (onSlots s f) := by
  intro v
  rw [onSlots_onSlots f g v hs, h.comp_eq_id, onSlots_id v hs]

end onSlots

/-! ## §2. Statements. -/

/-- `*target = op(*target, *source)`. -/
structure Assign (κ α : Type*) where
  target : κ
  source : κ
  op : α → α → α

section run
variable [DecidableEq ι] [DecidableEq κ]

/-- One statement, the pointers being `s`. -/
def Assign.exec (s : κ → ι) (v : ι → α) (st : Assign κ α) : ι → α :=
  Function.update v (s st.target) (st.op (v (s st.target)) (v (s st.source)))

/-- The statements `p`, the pointers being `s`. -/
def runAssigns (s : κ → ι) (p : List (Assign κ α)) (v : ι → α) : ι → α :=
  p.foldl (Assign.exec s) v

theorem Assign.exec_eq_onSlots {s : κ → ι} (hs : Function.Injective s) (st : Assign κ α)
    (v : ι → α) : st.exec s v = onSlots s (fun x => st.exec id x) v := by
  funext i
  unfold Assign.exec
  by_cases hi : ∃ k, s k = i
  · obtain ⟨k, rfl⟩ := hi
    rw [onSlots_slot _ v hs]
    by_cases hk : k = st.target
    · subst hk
      simp
    · rw [Function.update_of_ne fun hc => hk (hs hc)]
      exact (Function.update_of_ne (f := v ∘ s) hk _).symm
  · rw [onSlots_other _ v (fun k hk => hi ⟨k, hk⟩), Function.update_of_ne]
    exact fun hc => hi ⟨st.target, hc.symm⟩

/-- **Code through different pointers acts on its slots alone.** -/
theorem run_eq_onSlots {s : κ → ι} (hs : Function.Injective s) (p : List (Assign κ α)) :
    ∀ v : ι → α, runAssigns s p v = onSlots s (runAssigns id p) v := by
  induction p with
  | nil =>
      intro v
      exact (onSlots_id v hs).symm
  | cons st p ih =>
      intro v
      show runAssigns s p (st.exec s v) = _
      rw [ih, st.exec_eq_onSlots hs, onSlots_onSlots _ _ v hs]
      rfl

/-- `st'` takes back what `st` did. -/
structure Assign.Undoes (st' st : Assign κ α) : Prop where
  target_eq : st'.target = st.target
  source_eq : st'.source = st.source
  apart : st.source ≠ st.target
  op_op : ∀ x y, st'.op (st.op x y) y = x

theorem Assign.Undoes.exec_exec {st' st : Assign κ α} (h : st'.Undoes st) (x : κ → α) :
    st'.exec id (st.exec id x) = x := by
  unfold Assign.exec
  simp only [id_eq, h.target_eq, h.source_eq, Function.update_self,
    Function.update_of_ne h.apart, h.op_op, Function.update_idem, Function.update_eq_self]

/-- **The undoing statements in reverse order undo the code.** -/
theorem run_undo {p' p : List (Assign κ α)} (h : List.Forall₂ Assign.Undoes p' p) :
    Function.LeftInverse (runAssigns id p'.reverse) (runAssigns (α := α) id p) := by
  intro x
  induction h generalizing x with
  | nil => rfl
  | @cons st' st p' p hst _ ih =>
      show runAssigns id (st' :: p').reverse (runAssigns id p (st.exec id x)) = x
      rw [List.reverse_cons, runAssigns, List.foldl_append]
      show st'.exec id (runAssigns id p'.reverse (runAssigns id p (st.exec id x))) = x
      rw [ih, hst.exec_exec]

end run

/-! ## §3. Arrays. -/

section arrays
variable {n : Nat}

/-- One statement as a store into the array. -/
def Assign.store (s : κ → Fin n) (v : Vector α n) (st : Assign κ α) : Vector α n :=
  v.set (s st.target) (st.op v[s st.target] v[s st.source])

/-- The statements `p` as stores. -/
def storeAll (s : κ → Fin n) (p : List (Assign κ α)) (v : Vector α n) : Vector α n :=
  p.foldl (Assign.store s) v

theorem get_set (v : Vector α n) (i : Fin n) (x : α) :
    (v.set i x i.isLt).get = Function.update v.get i x := by
  funext j
  rw [Vector.get_eq_getElem]
  by_cases hj : j = i
  · rw [hj, Function.update_self, Vector.getElem_set_self]
  · have hne : (i : Nat) ≠ j := fun hc => hj (Fin.ext hc.symm)
    rw [Function.update_of_ne hj, Vector.getElem_set_ne _ _ hne, Vector.get_eq_getElem]

/-- The first statement, its result being `v'`. -/
theorem storeAll_cons {s : κ → Fin n} {v : Vector α n} (v' : Vector α n) {st : Assign κ α}
    {p : List (Assign κ α)} (h : st.store s v = v') :
    storeAll s (st :: p) v = storeAll s p v' := by
  rw [← h]
  rfl

theorem storeAll_get (s : κ → Fin n) (p : List (Assign κ α)) :
    ∀ v : Vector α n, (storeAll s p v).get = runAssigns s p v.get := by
  induction p with
  | nil =>
      intro v
      rfl
  | cons st p ih =>
      intro v
      show (storeAll s p (st.store s v)).get = runAssigns s p (st.exec s v.get)
      rw [ih]
      exact congrArg (runAssigns s p) (get_set v _ _)

/-- **Undoing stores.** -/
theorem storeAll_undo [DecidableEq κ] {s : κ → Fin n} (hs : Function.Injective s)
    {p' p : List (Assign κ α)} (h : List.Forall₂ Assign.Undoes p' p) :
    Function.LeftInverse (storeAll s p'.reverse) (storeAll s p) := by
  intro v
  have hget : (storeAll s p'.reverse (storeAll s p v)).get = v.get := by
    rw [storeAll_get, storeAll_get, run_eq_onSlots hs, run_eq_onSlots hs]
    exact onSlots_leftInverse hs (run_undo h) v.get
  exact Vector.ext fun i hi => congrFun hget ⟨i, hi⟩

end arrays

/-! ## §4. Disjoint columns of slots. -/

section columns
variable (e : κ × π ≃ ι) (f : (κ → α) → κ → α)

/-- `f` on every column at once; `e (k, p)` is slot `k` of column `p`. -/
def inParallel (v : ι → α) (i : ι) : α :=
  f (fun k => v (e (k, (e.symm i).2))) (e.symm i).1

@[simp] theorem inParallel_apply (v : ι → α) (k : κ) (p : π) :
    inParallel e f v (e (k, p)) = f (fun k => v (e (k, p))) k := by
  simp [inParallel]

theorem column_injective (p : π) : Function.Injective fun k => e (k, p) := by
  intro k k' h
  simpa using h

/-- **Calls on the columns, one after the other in any order, are one
parallel step** on these columns. -/
theorem foldl_onSlots (ps : List π) :
    ∀ v : ι → α, ps.Nodup → ∀ k q,
      (q ∈ ps → ps.foldl (fun v p => onSlots (fun k => e (k, p)) f v) v (e (k, q))
        = f (fun k => v (e (k, q))) k) ∧
      (q ∉ ps → ps.foldl (fun v p => onSlots (fun k => e (k, p)) f v) v (e (k, q))
        = v (e (k, q))) := by
  induction ps with
  | nil =>
      intro v _ k q
      exact ⟨fun hq => absurd hq List.not_mem_nil, fun _ => rfl⟩
  | cons p ps ih =>
      intro v hnodup k q
      obtain ⟨hp, hps⟩ := List.nodup_cons.mp hnodup
      obtain ⟨hmem, hnot⟩ := ih (onSlots (fun k => e (k, p)) f v) hps k q
      -- the first call leaves the columns other than `p` alone
      have hother : q ≠ p → ∀ k', onSlots (fun k => e (k, p)) f v (e (k', q))
          = v (e (k', q)) := by
        intro hqp k'
        refine onSlots_other f v ?_
        intro k₀ hk₀
        have := (Prod.mk.inj (e.injective hk₀)).2
        exact hqp this.symm
      rw [List.foldl_cons, List.mem_cons]
      constructor
      · intro hq
        by_cases hqp : q = p
        · subst hqp
          rw [hnot hp]
          exact onSlots_slot f v (column_injective e q) k
        · rw [hmem (hq.resolve_left hqp)]
          exact congrArg (fun w => f w k) (funext (hother hqp))
      · intro hq
        have hq' := not_or.mp hq
        rw [hnot hq'.2, hother hq'.1]

/-- All columns, each once. -/
theorem foldl_onSlots_eq (ps : List π) (hnodup : ps.Nodup) (hall : ∀ p, p ∈ ps)
    (v : ι → α) :
    ps.foldl (fun v p => onSlots (fun k => e (k, p)) f v) v = inParallel e f v := by
  funext i
  obtain ⟨⟨k, q⟩, rfl⟩ := e.surjective i
  rw [(foldl_onSlots e f ps v hnodup k q).1 (hall q), inParallel_apply]

end columns

end ConcurrencyCrypto.Library
