/-
  ConcurrencyCrypto.MatrixThreads.FillRows
  ────────────────────────────────────────
  **THE WHOLE OF `matrix_threads.c`.**

  `main` lets one set of threads fill the rows with random numbers, prints
  the matrix, lets a second set add up the rows, and prints the total.  The
  threads of one set draw from one `rand`, in the order in which they get to
  it, so every schedule fills another matrix; but each prints the sum of what
  it has shown.

    • `prints_matrix_and_sum` — what the program has printed when it returns;
    • `program_ends`          — and that it does, with no step undefined.
-/
import ConcurrencyCrypto.Library.Text
import ConcurrencyCrypto.MatrixThreads.RowSums

namespace ConcurrencyCrypto.MatrixThreads

open ConcurrencyCrypto.Library

/-! ## §1. The code. -/

/-- The memory, and how often `rand` was called. -/
structure FillMemory where
  mem : Memory
  calls : Nat

/-- Where a thread in `fill_row` is, with its variables. -/
inductive FillThread where
  /-- `int row = *(int *)arg;` with `arg` as `&indices[i]`. -/
  | entry (i : Nat)
  /-- `j < M`. -/
  | test (row : Int) (j : Nat)
  /-- `rand() % 101`. -/
  | draw (row : Int) (j : Nat)
  /-- `matrix_threads[row][j] = ...; j++`. -/
  | store (row : Int) (j : Nat) (value : Int)
  | finished
  deriving DecidableEq

/-- The value of `rand() % 101` that call `k` of `rand` gives. -/
def drawn (rand : Nat → Nat) (k : Nat) : Int := ((rand k % 101 : Nat) : Int)

/-- One step of `fill_row`; `rand k` is what call `k` of `rand` returns. -/
def fillStep (N M : Nat) (rand : Nat → Nat) :
    FillThread → FillMemory → Option (FillThread × FillMemory)
  | .entry i, m => (m.mem.indices i).map fun row => (.test row 0, m)
  | .test row j, m => if j < M then some (.draw row j, m) else some (.finished, m)
  | .draw row j, m => some (.store row j (drawn rand m.calls), { m with calls := m.calls + 1 })
  | .store row j value, m =>
      (setEntry N M m.mem row j value).map fun mem => (.test row (j + 1), { m with mem := mem })
  | .finished, _ => none

/-- `create_threads(fill_row)`. -/
def fill_rows (N M : Nat) (rand : Nat → Nat) : ForkJoin FillMemory FillThread where
  n := N
  -- indices[i] = i
  prepare i m := { m with mem := { m.mem with
    indices := Function.update m.mem.indices i (some i) } }
  entry := .entry
  step := fillStep N M rand
  done t := decide (t = .finished)
  stop := by
    intro t m h
    rw [of_decide_eq_true h]
    rfl

/-- `create_threads(sum_of_rows)`. -/
abbrev sum_rows (N M : Nat) : ForkJoin Memory SumThread := create_threads N (sum_of_rows N M)

/-- What `print_matrix` prints for one entry. -/
def entryText (M j : Nat) (x : Int) : CString :=
  decimal x ++ str " " ++ if j + 1 < M then str ", " else []

def rowText (M : Nat) (row : Nat → Int) : CString :=
  str "  \x7b " ++ (List.range M).flatMap (fun j => entryText M j (row j)) ++ str "\x7d\n"

/-- `print_matrix`. -/
def print_matrix (N M : Nat) (a : Nat → Nat → Int) : CString :=
  str "Filled Matrix:\n" ++ str "\x7b\n" ++ (List.range N).flatMap (fun i => rowText M (a i))
    ++ str "\x7d\n"

/-- The line that `calculate_sum_of_rows` prints. -/
def totalText (total_sum : Int) : CString :=
  str "Total sum of all rows: " ++ decimal total_sum ++ str "\n"

/-- Where main is.  Its own steps come between the threads of the two sets, so
its prints are one step each. -/
inductive Stage where
  | filling (s : ForkJoin.State FillMemory FillThread)
  | printing (m : Memory)
  | summing (s : ForkJoin.State Memory SumThread)
  | adding (m : Memory)
  | returned
  /-- `perror("Failed to create thread"); exit(EXIT_FAILURE)`. -/
  | exited

structure Program where
  stage : Stage
  output : CString

/-- The global matrix is zero at first. -/
def fillStart : FillMemory := { mem := ⟨fun _ _ => 0, fun _ => none⟩, calls := 0 }

def Program.start : Program := { stage := .filling (ForkJoin.State.start fillStart), output := [] }

/-- `create_threads(sum_of_rows)` has an array `indices` of its own. -/
def sumStart (m : Memory) : ForkJoin.State Memory SumThread := started m.matrix_threads

/-- One step of the program; the threads take theirs in any order. -/
def Program.step (N M : Nat) (rand : Nat → Nat) (p : Program) (a : ForkJoin.Action) :
    Option Program :=
  match p.stage with
  | .filling s =>
      if s.main = .returned then some { p with stage := .printing s.mem.mem }
      else if s.main = .exited then some { p with stage := .exited }
      else ((fill_rows N M rand).act s a).map fun s' => { p with stage := .filling s' }
  | .printing m =>
      some { stage := .summing (sumStart m)
             output := p.output ++ print_matrix N M m.matrix_threads }
  | .summing s =>
      if s.main = .returned then some { p with stage := .adding s.mem }
      else if s.main = .exited then some { p with stage := .exited }
      else ((sum_rows N M).act s a).map fun s' => { p with stage := .summing s' }
  | .adding m =>
      (calculate_sum_of_rows N M m).map fun total_sum =>
        { stage := .returned, output := p.output ++ totalText total_sum }
  | .returned => none
  | .exited => none

/-! ## §2. What a filling thread knows. -/

/-- The value is `rand() % 101`. -/
abbrev Drawable (x : Int) : Prop := 0 ≤ x ∧ x ≤ 100

/-- The first `j` entries of row `i` are filled. -/
def Filled (i j : Nat) (m : FillMemory) : Prop :=
  ∀ l, l < j → Drawable (m.mem.matrix_threads i l)

/-- Thread `i` at its place. -/
def FillsAt (M i : Nat) (m : FillMemory) : Option FillThread → Prop
  | none => True
  | some (.entry k) => k = i ∧ m.mem.indices i = some (i : Int)
  | some (.test row j) => row = i ∧ j ≤ M ∧ Filled i j m
  | some (.draw row j) => row = i ∧ j < M ∧ Filled i j m
  | some (.store row j value) => row = i ∧ j < M ∧ Drawable value ∧ Filled i j m
  | some .finished => Filled i M m

section fill
variable {N M : Nat} {rand : Nat → Nat} {i : Nat} {m : FillMemory}

theorem drawable_drawn (rand : Nat → Nat) (k : Nat) : Drawable (drawn rand k) := by
  have hlt : rand k % 101 < 101 := Nat.mod_lt _ (by decide)
  unfold drawn
  constructor
  · exact Int.natCast_nonneg _
  · omega

theorem Filled.congr {j : Nat} {m' : FillMemory} (h : Filled i j m)
    (hrow : m'.mem.matrix_threads i = m.mem.matrix_threads i) : Filled i j m' := by
  intro l hl
  rw [hrow]
  exact h l hl

/-- One more entry. -/
theorem Filled.succ {j : Nat} {value : Int} {m' : FillMemory} (h : Filled i j m)
    (hvalue : Drawable value)
    (hrow : m'.mem.matrix_threads i = Function.update (m.mem.matrix_threads i) j value) :
    Filled i (j + 1) m' := by
  intro l hl
  rw [hrow]
  by_cases hlj : l = j
  · rw [hlj, Function.update_self]
    exact hvalue
  · rw [Function.update_of_ne hlj]
    exact h l (by omega)

/-- It is about row `i` and `indices[i]` only. -/
theorem FillsAt.congr {m' : FillMemory} {t : Option FillThread} (h : FillsAt M i m t)
    (hrow : m'.mem.matrix_threads i = m.mem.matrix_threads i)
    (hindex : m'.mem.indices i = m.mem.indices i) : FillsAt M i m' t := by
  cases t with
  | none => trivial
  | some t =>
      cases t with
      | entry k => exact ⟨h.1, hindex.trans h.2⟩
      | test row j => exact ⟨h.1, h.2.1, h.2.2.congr hrow⟩
      | draw row j => exact ⟨h.1, h.2.1, h.2.2.congr hrow⟩
      | store row j value => exact ⟨h.1, h.2.1, h.2.2.1, h.2.2.2.congr hrow⟩
      | finished => exact Filled.congr h hrow

/-- What a step of thread `i` does. -/
def FillSteps (N M : Nat) (rand : Nat → Nat) (i : Nat) (m : FillMemory) (t : FillThread) :
    Prop :=
  ∃ t' m', fillStep N M rand t m = some (t', m') ∧ FillsAt M i m' (some t') ∧
    m'.mem.indices = m.mem.indices ∧
    ∀ k, k ≠ i → m'.mem.matrix_threads k = m.mem.matrix_threads k

theorem fillSteps_of_local {t t' : FillThread} (hstep : fillStep N M rand t m = some (t', m))
    (h : FillsAt M i m (some t')) : FillSteps N M rand i m t :=
  ⟨t', m, hstep, h, rfl, fun _ _ => rfl⟩

/-- **Every step of a thread that has not finished.** -/
theorem FillsAt.steps (rand : Nat → Nat) {t : FillThread} (h : FillsAt M i m (some t))
    (hi : i < N) (hrun : t ≠ .finished) : FillSteps N M rand i m t := by
  cases t with
  | entry k =>
      obtain ⟨rfl, hindex⟩ := h
      refine @fillSteps_of_local N M rand k m _ (.test k 0) ?_
        ⟨rfl, Nat.zero_le M, fun l hl => absurd hl (Nat.not_lt_zero l)⟩
      show (m.mem.indices k).map _ = _
      rw [hindex]
      rfl
  | test row j =>
      obtain ⟨rfl, hj, hfilled⟩ := h
      rcases Nat.lt_or_ge j M with hlt | hge
      · exact @fillSteps_of_local N M rand i m _ (.draw i j) (if_pos hlt) ⟨rfl, hlt, hfilled⟩
      · obtain rfl : j = M := Nat.le_antisymm hj hge
        exact @fillSteps_of_local N j rand i m _ .finished (if_neg (Nat.lt_irrefl j)) hfilled
  | draw row j =>
      obtain ⟨rfl, hj, hfilled⟩ := h
      exact ⟨.store i j (drawn rand m.calls), { m with calls := m.calls + 1 }, rfl,
        ⟨rfl, hj, drawable_drawn rand m.calls, hfilled⟩, rfl, fun _ _ => rfl⟩
  | store row j value =>
      -- the only write, and it is to the thread's own row
      obtain ⟨rfl, hj, hvalue, hfilled⟩ := h
      refine ⟨.test i (j + 1), { m with mem := { m.mem with
        matrix_threads := Function.update m.mem.matrix_threads i
          (Function.update (m.mem.matrix_threads i) j value) } }, ?_,
        ⟨rfl, hj, hfilled.succ hvalue ?_⟩, rfl, ?_⟩
      · show (setEntry N M m.mem i j value).map _ = _
        rw [setEntry_eq hi hj]
        rfl
      · exact Function.update_self _ _ _
      · intro k hk
        exact Function.update_of_ne hk _ _
  | finished => exact absurd rfl hrun

theorem FillsAt.step {t t' : FillThread} {m' : FillMemory} (h : FillsAt M i m (some t))
    (hi : i < N) (hstep : fillStep N M rand t m = some (t', m')) :
    FillsAt M i m' (some t') ∧ m'.mem.indices = m.mem.indices ∧
      ∀ k, k ≠ i → m'.mem.matrix_threads k = m.mem.matrix_threads k := by
  have hrun : t ≠ .finished := by
    intro ht
    rw [ht] at hstep
    cases hstep
  obtain ⟨u, v, hstep', hrest⟩ := h.steps rand hi hrun
  rw [hstep] at hstep'
  injection hstep' with hpair
  injection hpair with htu hmv
  rw [htu, hmv]
  exact hrest

variable (N M rand)

/-- **The outline of `fill_row`.** -/
def fillOutline : (fill_rows N M rand).Outline where
  Holds i t m := i < N ∧ FillsAt M i m t
  prepare_own := by
    intro i m h
    exact ⟨h.1, rfl, Function.update_self i _ _⟩
  prepare_other := by
    intro i j t m hij h
    exact ⟨h.1, h.2.congr rfl (Function.update_of_ne (Ne.symm hij) _ _)⟩
  step_own := by
    intro i t m t' m' h hstep
    exact ⟨h.1, (h.2.step h.1 hstep).1⟩
  step_other := by
    intro i j t u m t' m' hij h hu hstep
    obtain ⟨-, hindices, hrows⟩ := h.2.step h.1 hstep
    exact ⟨hu.1, hu.2.congr (hrows j (Ne.symm hij)) (by rw [hindices])⟩

theorem fillOutline_goes : (fillOutline N M rand).Goes := by
  intro i t m h hdone
  obtain ⟨t', m', hstep, -⟩ := h.2.steps rand h.1 (of_decide_eq_false hdone)
  exact ⟨t', m', hstep⟩

theorem fillOutline_start :
    ∀ i, i < (fill_rows N M rand).n → (fillOutline N M rand).Holds i none fillStart :=
  fun _ hi => ⟨hi, trivial⟩

end fill

/-- The steps that a filling thread has left: three for each entry. -/
def FillThread.left (M : Nat) : FillThread → Nat
  | .entry _ => 3 * M + 2
  | .test _ j => 3 * (M - j) + 1
  | .draw _ j => 3 * (M - j)
  | .store _ j _ => 3 * (M - j) - 1
  | .finished => 0

theorem fillOutline_lowers (N M : Nat) (rand : Nat → Nat) :
    (fillOutline N M rand).Lowers (FillThread.left M) := by
  intro i t m t' m' h hstep
  cases t with
  | entry k =>
      obtain ⟨row, -, hpair⟩ := Option.map_eq_some_iff.mp hstep
      injection hpair with ht _
      rw [← ht]
      show 3 * (M - 0) + 1 < 3 * M + 2
      omega
  | test row j =>
      replace hstep : (if j < M then some (FillThread.draw row j, m) else some (.finished, m))
        = some (t', m') := hstep
      split at hstep
      next hlt =>
        injection hstep with hpair
        injection hpair with ht _
        rw [← ht]
        exact Nat.lt_succ_self _
      next =>
        injection hstep with hpair
        injection hpair with ht _
        rw [← ht]
        exact Nat.succ_pos _
  | draw row j =>
      have hj : j < M := h.2.2.1
      injection hstep with hpair
      injection hpair with ht _
      rw [← ht]
      show 3 * (M - j) - 1 < 3 * (M - j)
      omega
  | store row j value =>
      have hj : j < M := h.2.2.1
      obtain ⟨v, -, hpair⟩ := Option.map_eq_some_iff.mp hstep
      injection hpair with ht _
      rw [← ht]
      show 3 * (M - (j + 1)) + 1 < 3 * (M - j) - 1
      omega
  | finished => cases hstep

/-! ## §3. Random entries add up. -/

/-- All entries of the matrix are filled. -/
def InRange (N M : Nat) (a : Nat → Nat → Int) : Prop :=
  ∀ i j, i < N → j < M → Drawable (a i j)

section sums
variable {N M : Nat} {a : Nat → Nat → Int}

theorem rowSum_range (h : InRange N M a) {i : Nat} (hi : i < N) {j : Nat} (hj : j ≤ M) :
    0 ≤ rowSum a i j ∧ rowSum a i j ≤ 100 * j := by
  induction j with
  | zero => exact ⟨Int.le_refl _, Int.le_refl _⟩
  | succ j ih =>
      obtain ⟨hlow, hhigh⟩ := ih (Nat.le_of_succ_le hj)
      obtain ⟨h0, h100⟩ := h i j hi hj
      rw [rowSum_succ]
      omega

theorem totalSum_range (h : InRange N M a) {i : Nat} (hi : i ≤ N) :
    0 ≤ totalSum M a i ∧ totalSum M a i ≤ 100 * (i * M : Nat) := by
  induction i with
  | zero => exact ⟨Int.le_refl _, by rw [Nat.zero_mul]; exact Int.le_refl _⟩
  | succ i ih =>
      obtain ⟨hlow, hhigh⟩ := ih (Nat.le_of_succ_le hi)
      obtain ⟨h0, h100⟩ := rowSum_range h hi (Nat.le_refl M)
      rw [totalSum_succ, Nat.succ_mul]
      omega

/-- **No sum of such entries overflows.** -/
theorem InRange.fits (h : InRange N M a) (hsize : 100 * (N * M) < 2 ^ 31) : SumsFit N M a := by
  constructor
  · intro i j hi hj
    obtain ⟨hlow, hhigh⟩ := rowSum_range h hi hj
    have hle : j ≤ N * M := Nat.le_trans hj (Nat.le_mul_of_pos_left M (by omega))
    constructor <;> omega
  · intro i hi
    obtain ⟨hlow, hhigh⟩ := totalSum_range h hi
    have hle : i * M ≤ N * M := Nat.mul_le_mul_right M hi
    constructor <;> omega

end sums

/-! ## §4. The program. -/

/-- **What has been printed, at each stage.** -/
inductive Good (N M : Nat) (rand : Nat → Nat) (p : Program) : Prop where
  | filling (s : ForkJoin.State FillMemory FillThread) (hstage : p.stage = .filling s)
      (hs : Reaches (fill_rows N M rand).act (ForkJoin.State.start fillStart) s)
      (hout : p.output = [])
  | printing (m : Memory) (hstage : p.stage = .printing m)
      (hm : InRange N M m.matrix_threads) (hout : p.output = [])
  | summing (a : Nat → Nat → Int) (s : ForkJoin.State Memory SumThread)
      (hstage : p.stage = .summing s) (ha : InRange N M a)
      (hs : Reaches (sum_rows N M).act (started a) s) (hout : p.output = print_matrix N M a)
  | adding (a : Nat → Nat → Int) (m : Memory) (hstage : p.stage = .adding m)
      (ha : InRange N M a) (hlast : ∀ i, i < N → m.matrix_threads i (M - 1) = rowSum a i M)
      (hout : p.output = print_matrix N M a)
  | returned (a : Nat → Nat → Int) (hstage : p.stage = .returned) (ha : InRange N M a)
      (hout : p.output = print_matrix N M a ++ totalText (totalSum M a N))
  | exited (hstage : p.stage = .exited)
      (hout : p.output = [] ∨ ∃ a, InRange N M a ∧ p.output = print_matrix N M a)

section program
variable {N M : Nat} {rand : Nat → Nat} {p p' : Program}

theorem step_filling {s : ForkJoin.State FillMemory FillThread} (hstage : p.stage = .filling s)
    (x : ForkJoin.Action) : p.step N M rand x =
      if s.main = .returned then some { p with stage := .printing s.mem.mem }
      else if s.main = .exited then some { p with stage := .exited }
      else ((fill_rows N M rand).act s x).map fun s' => { p with stage := .filling s' } := by
  unfold Program.step
  rw [hstage]

theorem step_printing {m : Memory} (hstage : p.stage = .printing m) (x : ForkJoin.Action) :
    p.step N M rand x = some { stage := .summing (sumStart m)
                               output := p.output ++ print_matrix N M m.matrix_threads } := by
  unfold Program.step
  rw [hstage]

theorem step_summing {s : ForkJoin.State Memory SumThread} (hstage : p.stage = .summing s)
    (x : ForkJoin.Action) : p.step N M rand x =
      if s.main = .returned then some { p with stage := .adding s.mem }
      else if s.main = .exited then some { p with stage := .exited }
      else ((sum_rows N M).act s x).map fun s' => { p with stage := .summing s' } := by
  unfold Program.step
  rw [hstage]

theorem step_adding {m : Memory} (hstage : p.stage = .adding m) {total_sum : Int}
    (htotal : calculate_sum_of_rows N M m = some total_sum) (x : ForkJoin.Action) :
    p.step N M rand x = some { stage := .returned
                               output := p.output ++ totalText total_sum } := by
  unfold Program.step
  rw [hstage]
  dsimp only
  rw [htotal]
  rfl

theorem step_over (h : p.stage = .returned ∨ p.stage = .exited) (x : ForkJoin.Action) :
    p.step N M rand x = none := by
  unfold Program.step
  rcases h with h | h
  · rw [h]
  · rw [h]

/-- Behind the first join all rows are filled. -/
theorem inRange_of_returned {s : ForkJoin.State FillMemory FillThread}
    (hs : Reaches (fill_rows N M rand).act (ForkJoin.State.start fillStart) s)
    (hret : s.main = .returned) : InRange N M s.mem.mem.matrix_threads := by
  intro i j hi hj
  obtain ⟨t, hdone, hholds⟩ :=
    (fillOutline N M rand).returned (fillOutline_start N M rand) hs hret hi
  obtain rfl : t = .finished := of_decide_eq_true hdone
  exact hholds.2 j hj

/-- Behind the second one the last column holds the sums. -/
theorem lastColumn_of_returned {a : Nat → Nat → Int} (hM : 1 ≤ M) (hfit : SumsFit N M a)
    {s : ForkJoin.State Memory SumThread} (hs : Reaches (sum_rows N M).act (started a) s)
    (hret : s.main = .returned) {i : Nat} (hi : i < N) :
    s.mem.matrix_threads i (M - 1) = rowSum a i M := by
  obtain ⟨t, hdone, hholds⟩ := (outline hM hfit).returned (outline_start hM hfit) hs hret hi
  obtain rfl : t = .finished := of_decide_eq_true hdone
  have hrow : s.mem.matrix_threads i = Function.update (a i) (M - 1) (rowSum a i M) := hholds.2
  rw [hrow, Function.update_self]

/-- **One step of the program.** -/
theorem Good.next (hM : 1 ≤ M) (hsize : 100 * (N * M) < 2 ^ 31) (h : Good N M rand p)
    {x : ForkJoin.Action} (hstep : p.step N M rand x = some p') : Good N M rand p' := by
  cases h with
  | filling s hstage hs hout =>
      rw [step_filling hstage] at hstep
      split at hstep
      next hret =>
        injection hstep with hstep
        rw [← hstep]
        exact .printing s.mem.mem rfl (inRange_of_returned hs hret) hout
      next =>
        split at hstep
        next =>
          injection hstep with hstep
          rw [← hstep]
          exact .exited rfl (Or.inl hout)
        next =>
          obtain ⟨s', hs', hp⟩ := Option.map_eq_some_iff.mp hstep
          rw [← hp]
          exact .filling s' rfl (hs.tail ⟨x, hs'⟩) hout
  | printing m hstage hm hout =>
      rw [step_printing hstage] at hstep
      injection hstep with hstep
      rw [← hstep]
      refine .summing m.matrix_threads (sumStart m) rfl hm Relation.ReflTransGen.refl ?_
      show p.output ++ _ = _
      rw [hout, List.nil_append]
  | summing a s hstage ha hs hout =>
      rw [step_summing hstage] at hstep
      split at hstep
      next hret =>
        injection hstep with hstep
        rw [← hstep]
        exact .adding a s.mem rfl ha
          (fun i hi => lastColumn_of_returned hM (ha.fits hsize) hs hret hi) hout
      next =>
        split at hstep
        next =>
          injection hstep with hstep
          rw [← hstep]
          exact .exited rfl (Or.inr ⟨a, ha, hout⟩)
        next =>
          obtain ⟨s', hs', hp⟩ := Option.map_eq_some_iff.mp hstep
          rw [← hp]
          exact .summing a s' rfl ha (hs.tail ⟨x, hs'⟩) hout
  | adding a m hstage ha hlast hout =>
      rw [step_adding hstage (calculate_sum_of_rows_eq hM (ha.fits hsize) hlast)] at hstep
      injection hstep with hstep
      rw [← hstep]
      refine .returned a rfl ha ?_
      show p.output ++ _ = _
      rw [hout]
  | returned a hstage ha hout =>
      rw [step_over (Or.inl hstage)] at hstep
      cases hstep
  | exited hstage hout =>
      rw [step_over (Or.inr hstage)] at hstep
      cases hstep

theorem good_of_reaches (hM : 1 ≤ M) (hsize : 100 * (N * M) < 2 ^ 31)
    (h : Reaches (Program.step N M rand) Program.start p) : Good N M rand p :=
  h.invariant (I := Good N M rand)
    (.filling _ rfl Relation.ReflTransGen.refl rfl) fun _ _ _ hp hstep => hp.next hM hsize hstep

/-- **THE PROGRAM PRINTS A MATRIX AND ITS SUM.**  However the threads interleave
and whatever `rand` gives: when main returns it has printed a matrix with
entries from 0 to 100 and behind it the sum of the entries it has printed.  If
a thread cannot be created, it has printed nothing or such a matrix. -/
theorem prints_matrix_and_sum (hM : 1 ≤ M) (hsize : 100 * (N * M) < 2 ^ 31)
    (h : Reaches (Program.step N M rand) Program.start p) :
    (p.stage = .returned → ∃ a, InRange N M a ∧
        p.output = print_matrix N M a
          ++ totalText (∑ i ∈ Finset.range N, ∑ j ∈ Finset.range M, a i j)) ∧
      (p.stage = .exited → p.output = [] ∨
        ∃ a, InRange N M a ∧ p.output = print_matrix N M a) := by
  have hgood := good_of_reaches hM hsize h
  constructor
  · intro hret
    cases hgood with
    | returned a hstage ha hout => exact ⟨a, ha, hout⟩
    | filling s hstage hs hout => rw [hret] at hstage; cases hstage
    | printing m hstage hm hout => rw [hret] at hstage; cases hstage
    | summing a s hstage ha hs hout => rw [hret] at hstage; cases hstage
    | adding a m hstage ha hlast hout => rw [hret] at hstage; cases hstage
    | exited hstage hout => rw [hret] at hstage; cases hstage
  · intro hexit
    cases hgood with
    | exited hstage hout => exact hout
    | filling s hstage hs hout => rw [hexit] at hstage; cases hstage
    | printing m hstage hm hout => rw [hexit] at hstage; cases hstage
    | summing a s hstage ha hs hout => rw [hexit] at hstage; cases hstage
    | adding a m hstage ha hlast hout => rw [hexit] at hstage; cases hstage
    | returned a hstage ha hout => rw [hexit] at hstage; cases hstage

end program

def Stage.isReturned : Stage → Bool
  | .returned => true
  | _ => false

/-- Two rows of two columns: the threads take turns, first those that fill the
rows, then those that sum them up. -/
def bothTakingTurns : List ForkJoin.Action :=
  List.replicate 5 (.main true) ++ (List.replicate 8 [.thread 0, .thread 1]).flatten
    ++ List.replicate 5 (.main true)
    ++ List.replicate 5 (.main true) ++ (List.replicate 7 [.thread 1, .thread 0]).flatten
    ++ List.replicate 5 (.main true)

/-- What is then printed, if the calls of `rand` give 5, 35, 65 and 95. -/
def turnsText : CString :=
  str "Filled Matrix:\n\x7b\n" ++ str "  \x7b 5 , 65 \x7d\n" ++ str "  \x7b 35 , 95 \x7d\n"
    ++ str "\x7d\nTotal sum of all rows: 200\n"

theorem prints_matrix_and_sum_two :
    ∃ p, Reaches (Program.step 2 2 fun k => 30 * k + 5) Program.start p ∧ p.stage = .returned ∧
      p.output = turnsText ∧
      (p.stage = .returned → ∃ a, InRange 2 2 a ∧
        p.output = print_matrix 2 2 a
          ++ totalText (∑ i ∈ Finset.range 2, ∑ j ∈ Finset.range 2, a i j)) ∧
      (p.stage = .exited → p.output = [] ∨
        ∃ a, InRange 2 2 a ∧ p.output = print_matrix 2 2 a) := by
  obtain ⟨p, hp, hend⟩ : ∃ p, Reaches (Program.step 2 2 fun k => 30 * k + 5) Program.start p ∧
      (p.stage.isReturned, p.output) = (true, turnsText) :=
    exists_reaches bothTakingTurns (fun p : Program => (p.stage.isReturned, p.output))
      (by decide +kernel)
  obtain ⟨hret, houtput⟩ := Prod.mk.inj hend
  have hstage : p.stage = .returned := by
    cases hcase : p.stage with
    | returned => rfl
    | _ => rw [hcase] at hret; cases hret
  exact ⟨p, hp, hstage, houtput, prints_matrix_and_sum (by decide) (by decide) hp⟩

/-! ## §5. It ends. -/

section ends
variable {N M : Nat} {rand : Nat → Nat} {p p' : Program}

/-- There is a step until main has returned or a creation has failed. -/
theorem Good.enabled (hM : 1 ≤ M) (hsize : 100 * (N * M) < 2 ^ 31) (h : Good N M rand p)
    (hret : p.stage ≠ .returned) (hexit : p.stage ≠ .exited) :
    ∃ x, Enabled (Program.step N M rand) p x := by
  cases h with
  | filling s hstage hs hout =>
      by_cases hr : s.main = .returned
      · exact ⟨.main true, _, (step_filling hstage _).trans (if_pos hr)⟩
      · by_cases he : s.main = .exited
        · exact ⟨.main true, _, (step_filling hstage _).trans ((if_neg hr).trans (if_pos he))⟩
        · obtain ⟨x, s', hx⟩ := (fillOutline N M rand).progress (fillOutline_goes N M rand)
            (fillOutline_start N M rand) hs hr he
          refine ⟨x, { p with stage := .filling s' }, ?_⟩
          rw [step_filling hstage, if_neg hr, if_neg he, hx]
          rfl
  | printing m hstage hm hout => exact ⟨.main true, _, step_printing hstage _⟩
  | summing a s hstage ha hs hout =>
      have hfit := ha.fits hsize
      by_cases hr : s.main = .returned
      · exact ⟨.main true, _, (step_summing hstage _).trans (if_pos hr)⟩
      · by_cases he : s.main = .exited
        · exact ⟨.main true, _, (step_summing hstage _).trans ((if_neg hr).trans (if_pos he))⟩
        · obtain ⟨x, s', hx⟩ := (outline hM hfit).progress (outline_goes hM hfit)
            (outline_start hM hfit) hs hr he
          refine ⟨x, { p with stage := .summing s' }, ?_⟩
          rw [step_summing hstage, if_neg hr, if_neg he, hx]
          rfl
  | adding a m hstage ha hlast hout =>
      exact ⟨.main true, _,
        step_adding hstage (calculate_sum_of_rows_eq hM (ha.fits hsize) hlast) _⟩
  | returned a hstage ha hout => exact absurd hstage hret
  | exited hstage hout => exact absurd hstage hexit

/-- The steps of the second set of threads, with its creation and joins. -/
def sumSteps (N M : Nat) : Nat := 3 * N + 2 + N * (2 * M + 3)

/-- The steps that are left at each stage. -/
def Stage.left (N M : Nat) (rand : Nat → Nat) : Stage → Nat
  | .filling s => (fill_rows N M rand).weight (FillThread.left M) s + sumSteps N M + 4
  | .printing _ => sumSteps N M + 3
  | .summing s => (sum_rows N M).weight (SumThread.left M) s + 2
  | .adding _ => 1
  | .returned => 0
  | .exited => 0

theorem sum_weight_start (N M : Nat) (m : Memory) :
    (sum_rows N M).weight (SumThread.left M) (sumStart m) = sumSteps N M := by
  have hweight : (sum_rows N M).weight (SumThread.left M) (sumStart m)
      = 2 * (N - 0) + N + 2 + ∑ _i ∈ Finset.range N, (2 * M + 3) := rfl
  rw [hweight, Finset.sum_const, Finset.card_range, smul_eq_mul]
  unfold sumSteps
  omega

theorem fill_weight_start (N M : Nat) (rand : Nat → Nat) :
    (fill_rows N M rand).weight (FillThread.left M) (ForkJoin.State.start fillStart)
      = 3 * N + 2 + N * (3 * M + 2) := by
  have hweight : (fill_rows N M rand).weight (FillThread.left M) (ForkJoin.State.start fillStart)
      = 2 * (N - 0) + N + 2 + ∑ _i ∈ Finset.range N, (3 * M + 2) := rfl
  rw [hweight, Finset.sum_const, Finset.card_range, smul_eq_mul]
  omega

/-- Every step of a set of threads lowers its weight. -/
theorem weight_lt {μ τ : Type} {F : ForkJoin μ τ} {O : F.Outline} {cost : τ → Nat}
    (hcost : O.Lowers cost) {m : μ} (h0 : ∀ i, i < F.n → O.Holds i none m)
    {s s' : ForkJoin.State μ τ} (hs : Reaches F.act (ForkJoin.State.start m) s)
    {x : ForkJoin.Action} (hstep : F.act s x = some s') : F.weight cost s' < F.weight cost s := by
  have hlive := O.live h0 hs (ForkJoin.not_exited_of_act hstep)
  cases x with
  | thread i => exact hlive.weight_threadStep hcost hstep
  | main created => exact hlive.weight_mainStep hstep

theorem Good.left_lt (hM : 1 ≤ M) (hsize : 100 * (N * M) < 2 ^ 31) (h : Good N M rand p)
    {x : ForkJoin.Action} (hstep : p.step N M rand x = some p') :
    p'.stage.left N M rand < p.stage.left N M rand := by
  cases h with
  | filling s hstage hs hout =>
      rw [step_filling hstage] at hstep
      rw [hstage]
      split at hstep
      next =>
        injection hstep with hstep
        rw [← hstep]
        dsimp only [Stage.left]
        omega
      next =>
        split at hstep
        next =>
          injection hstep with hstep
          rw [← hstep]
          dsimp only [Stage.left]
          omega
        next =>
          obtain ⟨s', hs', hp⟩ := Option.map_eq_some_iff.mp hstep
          have hlt := weight_lt (fillOutline_lowers N M rand) (fillOutline_start N M rand) hs hs'
          rw [← hp]
          dsimp only [Stage.left]
          omega
  | printing m hstage hm hout =>
      rw [step_printing hstage] at hstep
      injection hstep with hstep
      rw [hstage, ← hstep]
      dsimp only [Stage.left]
      rw [sum_weight_start]
      omega
  | summing a s hstage ha hs hout =>
      rw [step_summing hstage] at hstep
      rw [hstage]
      split at hstep
      next =>
        injection hstep with hstep
        rw [← hstep]
        dsimp only [Stage.left]
        omega
      next =>
        split at hstep
        next =>
          injection hstep with hstep
          rw [← hstep]
          dsimp only [Stage.left]
          omega
        next =>
          obtain ⟨s', hs', hp⟩ := Option.map_eq_some_iff.mp hstep
          have hfit := ha.fits hsize
          have hlt : (sum_rows N M).weight (SumThread.left M) s'
              < (sum_rows N M).weight (SumThread.left M) s :=
            weight_lt (outline_lowers hM hfit) (outline_start hM hfit) hs hs'
          rw [← hp]
          dsimp only [Stage.left]
          omega
  | adding a m hstage ha hlast hout =>
      rw [step_adding hstage (calculate_sum_of_rows_eq hM (ha.fits hsize) hlast)] at hstep
      injection hstep with hstep
      rw [hstage, ← hstep]
      exact Nat.one_pos
  | returned a hstage ha hout =>
      rw [step_over (Or.inl hstage)] at hstep
      cases hstep
  | exited hstage hout =>
      rw [step_over (Or.inr hstage)] at hstep
      cases hstep

/-- **THE PROGRAM ENDS.**  No step of it is undefined, nobody waits for ever, and
no run has more than `N * (5 * M + 11) + 8` steps; so each comes to the return
of main, unless a thread cannot be created. -/
theorem program_ends (hM : 1 ≤ M) (hsize : 100 * (N * M) < 2 ^ 31) :
    (∀ p, Reaches (Program.step N M rand) Program.start p → p.stage ≠ .returned →
        p.stage ≠ .exited → ∃ x, Enabled (Program.step N M rand) p x) ∧
      ∀ xs p, runActions (Program.step N M rand) Program.start xs = some p →
        xs.length ≤ N * (5 * M + 11) + 8 := by
  constructor
  · intro p hp hret hexit
    exact (good_of_reaches hM hsize hp).enabled hM hsize hret hexit
  · intro xs p hrun
    have hle := length_le_of_measure (Good N M rand) (fun p => p.stage.left N M rand)
      (fun p x p' hp hstep => ⟨hp.next hM hsize hstep, hp.left_lt hM hsize hstep⟩) xs
      (.filling _ rfl Relation.ReflTransGen.refl rfl) hrun
    have hstart : (Program.start.stage).left N M rand
        = (fill_rows N M rand).weight (FillThread.left M) (ForkJoin.State.start fillStart)
          + sumSteps N M + 4 := rfl
    rw [hstart, fill_weight_start] at hle
    unfold sumSteps at hle
    have hexpand : N * (5 * M + 11) = N * (3 * M + 2) + N * (2 * M + 3) + 6 * N := by ring
    omega

end ends

/-- The ten rows and thirty columns of the program, with the first numbers. -/
theorem program_ends_ten :
    (∀ p, Reaches (Program.step 10 30 id) Program.start p → p.stage ≠ .returned →
        p.stage ≠ .exited → ∃ x, Enabled (Program.step 10 30 id) p x) ∧
      ∀ xs p, runActions (Program.step 10 30 id) Program.start xs = some p →
        xs.length ≤ 10 * (5 * 30 + 11) + 8 :=
  program_ends (by decide) (by decide)

end ConcurrencyCrypto.MatrixThreads
