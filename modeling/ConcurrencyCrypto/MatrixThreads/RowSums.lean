/-
  ConcurrencyCrypto.MatrixThreads.RowSums
  ───────────────────────────────────────
  `matrix_threads.c`: `create_threads` runs one thread for each row; the
  threads that run `sum_of_rows` replace the last entry of their rows by the
  row's sum, and `calculate_sum_of_rows` adds up the last column.

  The numbers `N` of rows and `M` of columns are parameters.  A step is one
  read or write of the shared memory, one addition, one test of a loop, one
  `pthread_create` or one `pthread_join`.

    • `total_is_schedule_independent` — the total is the sum of all entries,
      however the threads interleave;
    • `row_sums_end`                  — and all runs end.
-/
import ConcurrencyCrypto.Library.ForkJoin

namespace ConcurrencyCrypto.MatrixThreads

open ConcurrencyCrypto.Library

/-! ## §1. The code. -/

/-- The matrix, and the array `indices` of `create_threads`, whose entries
have no value at first. -/
structure Memory where
  matrix_threads : Nat → Nat → Int
  indices : Nat → Option Int

/-- A value of type `int`. -/
abbrev IsInt (x : Int) : Prop := -2 ^ 31 ≤ x ∧ x < 2 ^ 31

/-- `sum + x`, undefined on overflow. -/
def checkedAdd (sum x : Int) : Option Int :=
  if IsInt (sum + x) then some (sum + x) else none

/-- Indices inside the matrix. -/
abbrev InMatrix (N M : Nat) (row : Int) (j : Nat) : Prop := 0 ≤ row ∧ row < N ∧ j < M

/-- `matrix_threads[row][j]`. -/
def entryAt (N M : Nat) (m : Memory) (row : Int) (j : Nat) : Option Int :=
  if InMatrix N M row j then some (m.matrix_threads row.toNat j) else none

/-- `matrix_threads[row][j] = x`. -/
def setEntry (N M : Nat) (m : Memory) (row : Int) (j : Nat) (x : Int) : Option Memory :=
  if InMatrix N M row j then
    some { m with
      matrix_threads := Function.update m.matrix_threads row.toNat
        (Function.update (m.matrix_threads row.toNat) j x) }
  else none

/-- Where a thread in `sum_of_rows` is, with its variables. -/
inductive SumThread where
  /-- `int row = *(int *)arg; int sum = 0;` with `arg` as `&indices[i]`. -/
  | entry (i : Nat)
  /-- `j < M`, and the read of `matrix_threads[row][j]`. -/
  | test (row sum : Int) (j : Nat)
  /-- `sum += ...; j++`. -/
  | add (row sum : Int) (j : Nat) (element : Int)
  /-- `matrix_threads[row][M - 1] = sum`. -/
  | store (row sum : Int)
  | finished
  deriving DecidableEq

/-- One step of `sum_of_rows`. -/
def sumStep (N M : Nat) : SumThread → Memory → Option (SumThread × Memory)
  | .entry i, m => (m.indices i).map fun row => (.test row 0 0, m)
  | .test row sum j, m =>
      if j < M then (entryAt N M m row j).map fun element => (.add row sum j element, m)
      else some (.store row sum, m)
  | .add row sum j element, m =>
      (checkedAdd sum element).map fun sum => (.test row sum (j + 1), m)
  | .store row sum, m => (setEntry N M m row (M - 1) sum).map fun m => (.finished, m)
  | .finished, _ => none

/-- A thread function: where it starts with `&indices[i]`, its steps, and its
end. -/
structure ThreadFunction (τ : Type) where
  entry : Nat → τ
  step : τ → Memory → Option (τ × Memory)
  done : τ → Bool
  stop : ∀ t m, done t = true → step t m = none

def sum_of_rows (N M : Nat) : ThreadFunction SumThread where
  entry := .entry
  step := sumStep N M
  done t := decide (t = .finished)
  stop := by
    intro t m h
    rw [of_decide_eq_true h]
    rfl

/-- `create_threads(func)`. -/
def create_threads {τ : Type} (N : Nat) (func : ThreadFunction τ) : ForkJoin Memory τ where
  n := N
  -- indices[i] = i
  prepare i m := { m with indices := Function.update m.indices i (some i) }
  entry := func.entry
  step := func.step
  done := func.done
  stop := func.stop

/-- `total_sum += matrix_threads[i][M - 1]`. -/
def addRow (N M : Nat) (m : Memory) (total_sum : Int) (i : Nat) : Option Int :=
  (entryAt N M m i (M - 1)).bind fun x => checkedAdd total_sum x

/-- The total that `calculate_sum_of_rows` prints. -/
def calculate_sum_of_rows (N M : Nat) (m : Memory) : Option Int :=
  (List.range N).foldlM (addRow N M m) 0

/-- The threads are about to be created. -/
def started (a : Nat → Nat → Int) : ForkJoin.State Memory SumThread :=
  ForkJoin.State.start ⟨a, fun _ => none⟩

/-! ## §2. What each thread knows. -/

/-- The sum of the first `j` entries of row `i`. -/
def rowSum (a : Nat → Nat → Int) (i j : Nat) : Int := ∑ l ∈ Finset.range j, a i l

/-- The sum of the first `i` rows. -/
def totalSum (M : Nat) (a : Nat → Nat → Int) (i : Nat) : Int :=
  ∑ k ∈ Finset.range i, rowSum a k M

/-- All sums that are computed are values of type `int`. -/
structure SumsFit (N M : Nat) (a : Nat → Nat → Int) : Prop where
  row : ∀ i j, i < N → j ≤ M → IsInt (rowSum a i j)
  total : ∀ i, i ≤ N → IsInt (totalSum M a i)

theorem rowSum_succ (a : Nat → Nat → Int) (i j : Nat) :
    rowSum a i (j + 1) = rowSum a i j + a i j :=
  Finset.sum_range_succ _ _

theorem totalSum_succ (M : Nat) (a : Nat → Nat → Int) (i : Nat) :
    totalSum M a (i + 1) = totalSum M a i + rowSum a i M :=
  Finset.sum_range_succ _ _

/-- Thread `i` at its place: its own row is the old one until it has stored
the sum, and no other row is in it. -/
def At (M : Nat) (a : Nat → Nat → Int) (i : Nat) (m : Memory) : Option SumThread → Prop
  | none => m.matrix_threads i = a i
  | some (.entry k) => k = i ∧ m.indices i = some (i : Int) ∧ m.matrix_threads i = a i
  | some (.test row sum j) =>
      row = i ∧ j ≤ M ∧ sum = rowSum a i j ∧ m.matrix_threads i = a i
  | some (.add row sum j element) =>
      row = i ∧ j < M ∧ sum = rowSum a i j ∧ element = a i j ∧ m.matrix_threads i = a i
  | some (.store row sum) => row = i ∧ sum = rowSum a i M ∧ m.matrix_threads i = a i
  | some .finished => m.matrix_threads i = Function.update (a i) (M - 1) (rowSum a i M)

/-- It is about row `i` and `indices[i]` only. -/
theorem At.congr {M : Nat} {a : Nat → Nat → Int} {i : Nat} {m m' : Memory}
    {t : Option SumThread} (h : At M a i m t)
    (hrow : m'.matrix_threads i = m.matrix_threads i) (hindex : m'.indices i = m.indices i) :
    At M a i m' t := by
  cases t with
  | none => exact hrow.trans h
  | some t =>
      cases t with
      | entry k => exact ⟨h.1, hindex.trans h.2.1, hrow.trans h.2.2⟩
      | test row sum j => exact ⟨h.1, h.2.1, h.2.2.1, hrow.trans h.2.2.2⟩
      | add row sum j element => exact ⟨h.1, h.2.1, h.2.2.1, h.2.2.2.1, hrow.trans h.2.2.2.2⟩
      | store row sum => exact ⟨h.1, h.2.1, hrow.trans h.2.2⟩
      | finished => exact hrow.trans h

section steps
variable {N M : Nat} {a : Nat → Nat → Int} {i : Nat} {m : Memory}

theorem entryAt_eq (hi : i < N) {j : Nat} (hj : j < M) :
    entryAt N M m i j = some (m.matrix_threads i j) := by
  unfold entryAt
  rw [if_pos ⟨Int.natCast_nonneg i, Int.ofNat_lt.mpr hi, hj⟩, Int.toNat_natCast]

theorem setEntry_eq (hi : i < N) {j : Nat} (hj : j < M) (x : Int) :
    setEntry N M m i j x = some { m with
      matrix_threads := Function.update m.matrix_threads i
        (Function.update (m.matrix_threads i) j x) } := by
  unfold setEntry
  rw [if_pos ⟨Int.natCast_nonneg i, Int.ofNat_lt.mpr hi, hj⟩, Int.toNat_natCast]

/-- What a step of thread `i` does: it keeps what the thread knows, and
touches nothing but the thread's row. -/
def Steps (N M : Nat) (a : Nat → Nat → Int) (i : Nat) (m : Memory) (t : SumThread) : Prop :=
  ∃ t' m', sumStep N M t m = some (t', m') ∧ At M a i m' (some t') ∧
    m'.indices = m.indices ∧ ∀ k, k ≠ i → m'.matrix_threads k = m.matrix_threads k

/-- A step that writes nothing. -/
theorem steps_of_local {t t' : SumThread} (hstep : sumStep N M t m = some (t', m))
    (h : At M a i m (some t')) : Steps N M a i m t :=
  ⟨t', m, hstep, h, rfl, fun _ _ => rfl⟩

/-- **Every step of a thread that has not finished**, if the sums fit. -/
theorem At.steps {t : SumThread} (h : At M a i m (some t)) (hi : i < N) (hM : 1 ≤ M)
    (hfit : SumsFit N M a) (hrun : t ≠ .finished) : Steps N M a i m t := by
  cases t with
  | entry k =>
      obtain ⟨rfl, hindex, hrow⟩ := h
      refine @steps_of_local N M a k m _ (.test k 0 0) ?_ ⟨rfl, Nat.zero_le M, ?_, hrow⟩
      · show (m.indices k).map _ = _
        rw [hindex]
        rfl
      · exact (Finset.sum_range_zero _).symm
  | test row sum j =>
      obtain ⟨rfl, hj, hsum, hrow⟩ := h
      rcases Nat.lt_or_ge j M with hlt | hge
      · refine @steps_of_local N M a i m _ (.add i sum j (a i j)) ?_ ⟨rfl, hlt, hsum, rfl, hrow⟩
        show (if j < M then _ else _) = _
        rw [if_pos hlt, entryAt_eq hi hlt, hrow]
        rfl
      · obtain rfl : j = M := Nat.le_antisymm hj hge
        refine @steps_of_local N j a i m _ (.store i sum) ?_ ⟨rfl, hsum, hrow⟩
        show (if j < j then _ else _) = _
        rw [if_neg (Nat.lt_irrefl j)]
  | add row sum j element =>
      obtain ⟨rfl, hj, rfl, rfl, hrow⟩ := h
      refine @steps_of_local N M a i m _ (.test i (rowSum a i (j + 1)) (j + 1)) ?_
        ⟨rfl, hj, rfl, hrow⟩
      show (checkedAdd (rowSum a i j) (a i j)).map _ = _
      unfold checkedAdd
      rw [← rowSum_succ, if_pos (hfit.row i (j + 1) hi hj)]
      rfl
  | store row sum =>
      -- the only write, and it is to the thread's own row
      obtain ⟨rfl, rfl, hrow⟩ := h
      have hlast : M - 1 < M := Nat.sub_lt hM Nat.one_pos
      refine ⟨.finished, { m with
        matrix_threads := Function.update m.matrix_threads i
          (Function.update (m.matrix_threads i) (M - 1) (rowSum a i M)) }, ?_, ?_, rfl, ?_⟩
      · show (setEntry N M m i (M - 1) (rowSum a i M)).map _ = _
        rw [setEntry_eq hi hlast]
        rfl
      · show Function.update m.matrix_threads i _ i = _
        rw [Function.update_self, hrow]
      · intro k hk
        exact Function.update_of_ne hk _ _
  | finished => exact absurd rfl hrun

/-- The same, for a step that is known. -/
theorem At.step {t t' : SumThread} {m' : Memory} (h : At M a i m (some t)) (hi : i < N)
    (hM : 1 ≤ M) (hfit : SumsFit N M a) (hstep : sumStep N M t m = some (t', m')) :
    At M a i m' (some t') ∧ m'.indices = m.indices ∧
      ∀ k, k ≠ i → m'.matrix_threads k = m.matrix_threads k := by
  have hrun : t ≠ .finished := by
    intro ht
    rw [ht] at hstep
    cases hstep
  obtain ⟨u, v, hstep', hrest⟩ := h.steps hi hM hfit hrun
  rw [hstep] at hstep'
  injection hstep' with hpair
  injection hpair with htu hmv
  rw [htu, hmv]
  exact hrest

/-- **The outline of `sum_of_rows`**: no thread disturbs another. -/
def outline (hM : 1 ≤ M) (hfit : SumsFit N M a) :
    (create_threads N (sum_of_rows N M)).Outline where
  Holds i t m := i < N ∧ At M a i m t
  prepare_own := by
    intro i m h
    exact ⟨h.1, rfl, Function.update_self i _ _, h.2⟩
  prepare_other := by
    intro i j t m hij h
    exact ⟨h.1, h.2.congr rfl (Function.update_of_ne (Ne.symm hij) _ _)⟩
  step_own := by
    intro i t m t' m' h hstep
    exact ⟨h.1, (h.2.step h.1 hM hfit hstep).1⟩
  step_other := by
    intro i j t u m t' m' hij h hu hstep
    obtain ⟨-, hindices, hrows⟩ := h.2.step h.1 hM hfit hstep
    exact ⟨hu.1, hu.2.congr (hrows j (Ne.symm hij)) (by rw [hindices])⟩

theorem outline_goes (hM : 1 ≤ M) (hfit : SumsFit N M a) : (outline hM hfit).Goes := by
  intro i t m h hdone
  obtain ⟨t', m', hstep, -⟩ := h.2.steps h.1 hM hfit (of_decide_eq_false hdone)
  exact ⟨t', m', hstep⟩

theorem outline_start (hM : 1 ≤ M) (hfit : SumsFit N M a) :
    ∀ i, i < (create_threads N (sum_of_rows N M)).n →
      (outline hM hfit).Holds i none ⟨a, fun _ => none⟩ :=
  fun _ hi => ⟨hi, rfl⟩

/-- The steps that a thread has left: two for each element. -/
def SumThread.left (M : Nat) : SumThread → Nat
  | .entry _ => 2 * M + 3
  | .test _ _ j => 2 * (M - j) + 2
  | .add _ _ j _ => 2 * (M - j) + 1
  | .store _ _ => 1
  | .finished => 0

theorem outline_lowers (hM : 1 ≤ M) (hfit : SumsFit N M a) :
    (outline hM hfit).Lowers (SumThread.left M) := by
  intro i t m t' m' h hstep
  cases t with
  | entry k =>
      obtain ⟨row, -, hpair⟩ := Option.map_eq_some_iff.mp hstep
      injection hpair with ht _
      rw [← ht]
      show 2 * (M - 0) + 2 < 2 * M + 3
      omega
  | test row sum j =>
      replace hstep : (if j < M then (entryAt N M m row j).map fun element =>
          (SumThread.add row sum j element, m) else some (.store row sum, m))
        = some (t', m') := hstep
      split at hstep
      next hlt =>
        obtain ⟨element, -, hpair⟩ := Option.map_eq_some_iff.mp hstep
        injection hpair with ht _
        rw [← ht]
        exact Nat.lt_succ_self _
      next =>
        injection hstep with hpair
        injection hpair with ht _
        rw [← ht]
        show 1 < 2 * (M - j) + 2
        omega
  | add row sum j element =>
      have hj : j < M := h.2.2.1
      obtain ⟨sum', -, hpair⟩ := Option.map_eq_some_iff.mp hstep
      injection hpair with ht _
      rw [← ht]
      show 2 * (M - (j + 1)) + 2 < 2 * (M - j) + 1
      omega
  | store row sum =>
      obtain ⟨v, -, hpair⟩ := Option.map_eq_some_iff.mp hstep
      injection hpair with ht _
      rw [← ht]
      exact Nat.one_pos
  | finished => cases hstep

end steps

/-! ## §3. The total. -/

section total
variable {N M : Nat} {a : Nat → Nat → Int} {m : Memory}

/-- **The last column is added up.** -/
theorem calculate_sum_of_rows_eq (hM : 1 ≤ M) (hfit : SumsFit N M a)
    (hlast : ∀ i, i < N → m.matrix_threads i (M - 1) = rowSum a i M) :
    calculate_sum_of_rows N M m = some (totalSum M a N) := by
  have hrows : ∀ n, n ≤ N →
      (List.range n).foldlM (addRow N M m) 0 = some (totalSum M a n) := by
    -- the loop from its end: the last row comes behind all others
    intro n
    induction n with
    | zero => exact fun _ => rfl
    | succ n ih =>
        intro hn
        rw [List.range_succ, List.foldlM_append, ih (Nat.le_of_lt hn)]
        have hadd : addRow N M m (totalSum M a n) n = some (totalSum M a (n + 1)) := by
          unfold addRow
          rw [entryAt_eq hn (Nat.sub_lt hM Nat.one_pos), hlast n hn]
          show checkedAdd (totalSum M a n) (rowSum a n M) = _
          unfold checkedAdd
          rw [← totalSum_succ, if_pos (hfit.total (n + 1) hn)]
        show (addRow N M m (totalSum M a n) n).bind _ = _
        rw [hadd]
        rfl
  exact hrows N (Nat.le_refl N)

end total

/-- **THE TOTAL DOES NOT DEPEND ON THE SCHEDULE.**  Whatever order the threads
step in: when `create_threads` has returned, `calculate_sum_of_rows` gives
the sum of all entries that the matrix had, and only the last column has
changed; and until then no thread is stuck, and there is always a step. -/
theorem total_is_schedule_independent (N M : Nat) (a : Nat → Nat → Int) (hM : 1 ≤ M)
    (hfit : SumsFit N M a) (s : ForkJoin.State Memory SumThread)
    (hs : Reaches (create_threads N (sum_of_rows N M)).act (started a) s) :
    (s.main = .returned →
      calculate_sum_of_rows N M s.mem
          = some (∑ i ∈ Finset.range N, ∑ j ∈ Finset.range M, a i j) ∧
        ∀ i j, i < N → j < M → j ≠ M - 1 → s.mem.matrix_threads i j = a i j) ∧
    (s.main ≠ .exited →
      (∀ i t, s.threads i = some t → t ≠ .finished →
        Enabled (create_threads N (sum_of_rows N M)).act s (.thread i)) ∧
      (s.main ≠ .returned → ∃ x, Enabled (create_threads N (sum_of_rows N M)).act s x)) := by
  have h0 := outline_start hM hfit
  have hgo := outline_goes hM hfit
  constructor
  · intro hret
    -- every thread has finished, and its row is the old one but for the sum
    have hrow : ∀ i, i < N →
        s.mem.matrix_threads i = Function.update (a i) (M - 1) (rowSum a i M) := by
      intro i hi
      obtain ⟨t, hdone, hholds⟩ := (outline hM hfit).returned h0 hs hret hi
      obtain rfl : t = .finished := of_decide_eq_true hdone
      exact hholds.2
    constructor
    · refine calculate_sum_of_rows_eq hM hfit ?_
      intro i hi
      rw [hrow i hi, Function.update_self]
    · intro i j hi _ hj
      rw [hrow i hi, Function.update_of_ne hj]
  · intro hrun
    constructor
    · intro i t ht hfinished
      exact (outline hM hfit).thread_goes hgo h0 hs hrun ht (decide_eq_false hfinished)
    · intro hret
      exact (outline hM hfit).progress hgo h0 hs hret hrun

/-- Two rows, 1 2 and 3 4. -/
def twoRows (i j : Nat) : Int := 2 * i + j + 1

theorem twoRows_fit : SumsFit 2 2 twoRows where
  row := by
    intro i j hi hj
    interval_cases i <;> interval_cases j <;> decide
  total := by
    intro i hi
    interval_cases i <;> decide

/-- Both threads are created, and then take turns. -/
def takingTurns : List ForkJoin.Action :=
  List.replicate 5 (.main true)
    ++ (List.replicate 7 [ForkJoin.Action.thread 1, .thread 0]).flatten
    ++ List.replicate 3 (.main true)

/-- The threads take turns, and the total is 10. -/
theorem total_is_schedule_independent_two :
    ∃ s, Reaches (create_threads 2 (sum_of_rows 2 2)).act (started twoRows) s ∧
      s.main = .returned ∧ calculate_sum_of_rows 2 2 s.mem = some 10 := by
  obtain ⟨s, hs, hret⟩ := @exists_reaches _ _ _ (create_threads 2 (sum_of_rows 2 2)).act
    (started twoRows) takingTurns (fun s => s.main) .returned (by decide +kernel)
  refine ⟨s, hs, hret, ?_⟩
  rw [((total_is_schedule_independent 2 2 twoRows (by decide) twoRows_fit s hs).1 hret).1]
  rfl

/-- **All runs end**: three steps of `create_threads` for each row and two
more, and for each row `2 * M + 3` of its thread. -/
theorem row_sums_end (N M : Nat) (a : Nat → Nat → Int) (hM : 1 ≤ M) (hfit : SumsFit N M a)
    (as : List ForkJoin.Action) (s : ForkJoin.State Memory SumThread)
    (hs : runActions (create_threads N (sum_of_rows N M)).act (started a) as = some s) :
    as.length ≤ 3 * N + 2 + N * (2 * M + 3) := by
  have hle : as.length
      ≤ (create_threads N (sum_of_rows N M)).weight (SumThread.left M) (started a) :=
    (outline hM hfit).length_le (outline_lowers hM hfit) (outline_start hM hfit) hs
  have hweight : (create_threads N (sum_of_rows N M)).weight (SumThread.left M) (started a)
      = 2 * (N - 0) + N + 2 + ∑ _i ∈ Finset.range N, (2 * M + 3) := rfl
  rw [hweight, Finset.sum_const, Finset.card_range, smul_eq_mul] at hle
  omega

end ConcurrencyCrypto.MatrixThreads
