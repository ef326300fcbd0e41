/-
  ConcurrencyCrypto.CpuRuntime.Freed
  ──────────────────────────────────
  **THE COUNTERS ARE FREED UNDER THE THREADS.**

  Between `free` and the end of the process every access of theirs is to freed
  memory, and no access before it is.  The print thread may come so late that
  even the `arg` it copies is gone.

    • `Doomed.printer_faults` — the print thread after `free`,
    • `State.Races.order`     — what it reads of a counter that is written,
    • `freed_while_counting`  — when what is undefined happens.
-/
import ConcurrencyCrypto.CpuRuntime.Counters

namespace ConcurrencyCrypto.CpuRuntime

open ConcurrencyCrypto.Library

variable {size : Nat}

/-! ## §1. The end. -/

section freed
variable {s s' : State size}

theorem setup_runs {argv : List CString} {allocated : Bool}
    (h : setup argv allocated = .runs size) : 1 ≤ size := by
  unfold setup at h
  split at h
  · split at h
    next => cases h
    next hsize =>
      split at h
      next => cases h
      next =>
        split at h
        · injection h with h
          omega
        · cases h
  · cases h

/-- Main is in its creating loop, and the threads it has created count. -/
structure Creating (i : Nat) (s : State size) : Prop where
  main : s.main = .create i
  fault : s.fault = none
  live : s.live = true
  thread : ∀ k : Fin size, k.val < i → s.thread k = .load
  fresh : ∀ k, s.increments k = 0
  count : s.print_count = 0

theorem creating_start : Creating 0 (State.start size) :=
  ⟨rfl, rfl, rfl, fun k hk => absurd hk (Nat.not_lt_zero k.val), fun _ => rfl, rfl⟩

theorem Creating.running {i : Nat} (h : Creating i s) (a : Action size) : step s a = s.act a := by
  refine step_eq h.fault ?_
  rw [h.main]
  exact nofun

theorem Creating.next {i : Nat} (h : Creating i s) (hi : i < size) :
    ∃ s', step s (.main true) = some s' ∧ Creating (i + 1) s' := by
  refine ⟨{ s with
    thread := Function.update s.thread ⟨i, hi⟩ .load
    main := .create (i + 1) }, ?_, rfl, h.fault, h.live, ?_, h.fresh, h.count⟩
  · rw [h.running]
    show s.mainStep true = _
    unfold State.mainStep
    rw [h.main]
    exact dif_pos hi
  · intro k hk
    dsimp only
    by_cases hki : k = ⟨i, hi⟩
    · rw [hki, Function.update_self]
    · have hne : k.val ≠ i := fun heq => hki (Fin.ext heq)
      rw [Function.update_of_ne hki]
      exact h.thread k (by omega)

theorem reachable_creating {i : Nat} (hi : i ≤ size) :
    ∃ s : State size, Reachable s ∧ Creating i s := by
  induction i with
  | zero => exact ⟨_, Relation.ReflTransGen.refl, creating_start⟩
  | succ i ih =>
      obtain ⟨s, hs, hcreating⟩ := ih (Nat.le_of_succ_le hi)
      obtain ⟨s', hstep, hnext⟩ := hcreating.next hi
      exact ⟨s', Relation.ReflTransGen.tail hs ⟨_, hstep⟩, hnext⟩

/-- **In the window** the next access of a counting thread is to freed memory. -/
theorem faults_of_freed (hs : Reachable s) (hfault : s.fault = none) (hmain : s.main.Window)
    {k : Fin size} (hborn : s.thread k ≠ .unborn) (hmax : (s.increments k : Int) < LONG_MAX) :
    step s (.count k) = some (s.faults .useAfterFree) := by
  have hlive := hs.phases.freed_of_window hmain
  rw [step_eq hfault hmain.runs]
  show s.countStep k = _
  unfold State.countStep
  cases hpc : s.thread k with
  | unborn => exact absurd hpc hborn
  | load => rw [hlive]; rfl
  | store value =>
      have hvalue := hs.exact.loaded k value hpc
      have hcounter := hs.exact.counter k
      show (if LONG_MAX ≤ value then _ else _) = _
      rw [if_neg (by omega), hlive]
      rfl

/-! ## §2. The print thread in the window. -/

/-- The counters are freed, and nothing undefined has been done yet. -/
structure Doomed (s : State size) : Prop where
  fault : s.fault = none
  live : s.live = false
  window : s.main.Window

/-- The print thread, taking some steps, comes to do something undefined. -/
def State.PrinterFaults (s : State size) (n : Nat) (fault : Fault) : Prop :=
  ∃ s', runActions step s (List.replicate n .print) = some s' ∧ s'.fault = some fault

theorem State.PrinterFaults.succ {n : Nat} {fault : Fault} (hstep : step s .print = some s')
    (h : s'.PrinterFaults n fault) : s.PrinterFaults (n + 1) fault := by
  obtain ⟨s₂, hrun, hfault⟩ := h
  refine ⟨s₂, ?_, hfault⟩
  show (step s .print).bind _ = some s₂
  rw [hstep]
  exact hrun

theorem Doomed.print (h : Doomed s) : step s .print = s.printStep :=
  step_eq h.fault h.window.runs

theorem Doomed.line (h : Doomed s) {i : Nat} (hpc : s.printer = .line i) (hi : i < size) :
    s.PrinterFaults 1 .useAfterFree := by
  have hstep : step s .print = some (s.faults .useAfterFree) := by
    rw [h.print]
    unfold State.printStep
    rw [hpc]
    show (if h : i < size then _ else _) = _
    rw [dif_pos hi, h.live]
    rfl
  exact .succ hstep ⟨_, rfl, rfl⟩

theorem Doomed.header (h : Doomed s) (hpc : s.printer = .header) (hmax : s.print_count < INT_MAX)
    (hsize : 1 ≤ size) : s.PrinterFaults 2 .useAfterFree := by
  refine .succ ?_ (Doomed.line (s := { s with
    print_count := s.print_count + 1
    output := s.output ++ [.header (s.print_count + 1)]
    printer := .line 0 }) ⟨h.fault, h.live, h.window⟩ rfl hsize)
  rw [h.print]
  unfold State.printStep
  rw [hpc]
  exact if_neg (by omega)

theorem Doomed.footer (h : Doomed s) {i : Nat} (hpc : s.printer = .line i) (hi : ¬ i < size)
    (hmax : s.print_count < INT_MAX) (hsize : 1 ≤ size) : s.PrinterFaults 3 .useAfterFree := by
  refine .succ ?_ (Doomed.header (s := { s with
    output := s.output ++ [.footer]
    printer := .header }) ⟨h.fault, h.live, h.window⟩ rfl hmax hsize)
  rw [h.print]
  unfold State.printStep
  rw [hpc]
  exact dif_neg hi

theorem Doomed.dead (h : Doomed s) (hpc : s.printer = .copy) (hmain : s.main = .unwound) :
    s.PrinterFaults 1 .deadFrame := by
  have hstep : step s .print = some (s.faults .deadFrame) := by
    rw [h.print]
    unfold State.printStep
    rw [hpc]
    exact if_pos hmain
  exact .succ hstep ⟨_, rfl, rfl⟩

theorem Doomed.copy (h : Doomed s) (hpc : s.printer = .copy) (hmain : s.main ≠ .unwound)
    (hmax : s.print_count < INT_MAX) (hsize : 1 ≤ size) : s.PrinterFaults 3 .useAfterFree := by
  refine .succ ?_ (Doomed.header (s := { s with printer := .header })
    ⟨h.fault, h.live, h.window⟩ rfl hmax hsize)
  rw [h.print]
  unfold State.printStep
  rw [hpc]
  exact if_neg hmain

/-- **THE PRINT THREAD**, wherever it is, does something undefined within three
steps: it reads a freed counter, unless it still has to copy the `arg` of a
main that has returned. -/
theorem Doomed.printer_faults (h : Doomed s) (hborn : s.printer ≠ .unborn)
    (hmax : s.print_count < INT_MAX) (hsize : 1 ≤ size) :
    ∃ n ≤ 3, s.PrinterFaults n
      (if s.printer = .copy ∧ s.main = .unwound then .deadFrame else .useAfterFree) := by
  cases hpc : s.printer with
  | unborn => exact absurd hpc hborn
  | copy =>
      by_cases hmain : s.main = .unwound
      · rw [if_pos ⟨rfl, hmain⟩]
        exact ⟨1, by decide, h.dead hpc hmain⟩
      · rw [if_neg fun hc => hmain hc.2]
        exact ⟨3, by decide, h.copy hpc hmain hmax hsize⟩
  | header =>
      rw [if_neg (fun hc => nomatch hc.1)]
      exact ⟨2, by decide, h.header hpc hmax hsize⟩
  | line i =>
      rw [if_neg (fun hc => nomatch hc.1)]
      by_cases hi : i < size
      · exact ⟨1, by decide, h.line hpc hi⟩
      · exact ⟨3, by decide, h.footer hpc hi hmax hsize⟩

/-! ## §3. Both ways out. -/

/-- Main on its way to `free`. -/
theorem reaches_exit {code : Int} (hfault : s.fault = none) (hmain : s.main = .free code) :
    Reaches step s { s with
      live := false
      main := .exit code } := by
  refine Relation.ReflTransGen.refl.tail ⟨.main true, ?_⟩
  rw [step_eq hfault (by rw [hmain]; exact nofun)]
  show s.mainStep true = _
  unfold State.mainStep
  rw [hmain]

theorem reaches_free_of_failure {i : Nat} (h : Creating i s) :
    ∃ s', Reaches step s s' ∧ s'.main = .free 1 ∧ s'.fault = none ∧ s'.thread = s.thread ∧
      s'.increments = s.increments := by
  refine ⟨{ s with
    perrors := s.perrors ++ [str "Failed to create thread"]
    main := .free 1 }, Relation.ReflTransGen.refl.tail ⟨.main false, ?_⟩, rfl, h.fault, rfl, rfl⟩
  rw [h.running]
  show s.mainStep false = _
  unfold State.mainStep
  rw [h.main]
  rfl

/-- Main sleeps, no thread has counted yet, and the print thread is there. -/
structure Sleeping (pc : PrinterPc) (s : State size) : Prop where
  main : s.main = .sleep
  fault : s.fault = none
  live : s.live = true
  thread : ∀ k, s.thread k = .load
  fresh : ∀ k, s.increments k = 0
  printer : s.printer = pc
  count : pc = .copy ∨ pc = .header → s.print_count = 0

theorem Creating.sleeps (h : Creating size s) :
    ∃ s', step s (.main true) = some s' ∧ Sleeping .copy s' := by
  refine ⟨{ s with
    printer := .copy
    main := .sleep }, ?_, rfl, h.fault, h.live, fun k => h.thread k k.isLt, h.fresh, rfl,
    fun _ => h.count⟩
  rw [h.running]
  show s.mainStep true = _
  unfold State.mainStep
  rw [h.main]
  exact dif_neg (Nat.lt_irrefl size)

theorem reachable_sleeping : ∃ s : State size, Reachable s ∧ Sleeping .copy s := by
  obtain ⟨s, hs, hcreating⟩ := reachable_creating (Nat.le_refl size)
  obtain ⟨s', hstep, hsleeping⟩ := hcreating.sleeps
  exact ⟨s', Relation.ReflTransGen.tail hs ⟨_, hstep⟩, hsleeping⟩

theorem Sleeping.running {pc : PrinterPc} (h : Sleeping pc s) (a : Action size) :
    step s a = s.act a := by
  refine step_eq h.fault ?_
  rw [h.main]
  exact nofun

theorem Sleeping.awakes {pc : PrinterPc} (h : Sleeping pc s) :
    Reaches step s { s with main := .free 0 } := by
  refine Relation.ReflTransGen.refl.tail ⟨.main true, ?_⟩
  rw [h.running]
  show s.mainStep true = _
  unfold State.mainStep
  rw [h.main]

/-- Some run comes to free the counters under the first thread. -/
theorem reachable_freed (hsize : 1 ≤ size) {code : Int} (hcode : code = 0 ∨ code = 1) :
    ∃ s : State size, Reachable s ∧ s.main = .exit code ∧ s.fault = some .useAfterFree := by
  have hfree : ∃ s : State size, Reachable s ∧ s.main = .free code ∧ s.fault = none ∧
      s.thread ⟨0, hsize⟩ = .load ∧ s.increments ⟨0, hsize⟩ = 0 := by
    rcases hcode with rfl | rfl
    · obtain ⟨s, hs, hsleeping⟩ := @reachable_sleeping size
      exact ⟨_, Relation.ReflTransGen.trans hs hsleeping.awakes, rfl, hsleeping.fault,
        hsleeping.thread _, hsleeping.fresh _⟩
    · obtain ⟨s, hs, hcreating⟩ := reachable_creating hsize
      obtain ⟨s', hs', hmain, hfault, hthread, hincrements⟩ := reaches_free_of_failure hcreating
      refine ⟨s', Relation.ReflTransGen.trans hs hs', hmain, hfault, ?_, ?_⟩
      · rw [hthread]
        exact hcreating.thread _ Nat.one_pos
      · rw [hincrements]
        exact hcreating.fresh _
  obtain ⟨s, hs, hmain, hfault, hthread, hincrements⟩ := hfree
  have hborn : s.thread ⟨0, hsize⟩ ≠ .unborn := by
    rw [hthread]
    exact nofun
  have hmax : (s.increments ⟨0, hsize⟩ : Int) < LONG_MAX := by
    rw [hincrements]
    decide
  have hreach : Reachable _ := Relation.ReflTransGen.trans hs (reaches_exit hfault hmain)
  have hstep := faults_of_freed hreach hfault (Or.inr ⟨code, rfl⟩) hborn hmax
  exact ⟨_, Relation.ReflTransGen.tail hreach ⟨_, hstep⟩, rfl, rfl⟩

/-- Main has returned before the print thread's first step. -/
theorem reachable_dead : ∃ s : State size, Reachable s ∧ s.fault = some .deadFrame := by
  obtain ⟨s, hs, hsleeping⟩ := @reachable_sleeping size
  have hexit := reaches_exit (s := { s with main := .free 0 }) hsleeping.fault rfl
  have hreturn : step ({ s with
      live := false
      main := .exit 0 }) (.main true) = some { s with
      live := false
      main := .unwound } := step_eq hsleeping.fault nofun
  have hdoomed : Doomed ({ s with
      live := false
      main := .unwound }) := ⟨hsleeping.fault, rfl, Or.inl rfl⟩
  obtain ⟨s', hrun, hfault⟩ := hdoomed.dead hsleeping.printer rfl
  have hreach : Reachable ({ s with
      live := false
      main := .unwound }) :=
    ((Relation.ReflTransGen.trans hs hsleeping.awakes).trans hexit).tail ⟨_, hreturn⟩
  exact ⟨s', hreach.trans (reaches_of_run _ hrun), hfault⟩

/-! ## §4. The race for a counter. -/

/-- The print thread's next step reads the counter that the next step of its
own thread writes. -/
structure State.Races (s : State size) (k : Fin size) : Prop where
  fault : s.fault = none
  live : s.live = true
  printer : s.printer = .line k.val
  thread : ∃ value, s.thread k = .store value

theorem Sleeping.copied (h : Sleeping .copy s) :
    ∃ s', step s .print = some s' ∧ Sleeping .header s' := by
  refine ⟨{ s with printer := .header }, ?_, h.main, h.fault, h.live, h.thread, h.fresh, rfl,
    fun _ => h.count (Or.inl rfl)⟩
  rw [h.running]
  show s.printStep = _
  unfold State.printStep
  rw [h.printer]
  exact if_neg (by rw [h.main]; exact nofun)

theorem Sleeping.headed (h : Sleeping .header s) :
    ∃ s', step s .print = some s' ∧ Sleeping (.line 0) s' := by
  refine ⟨{ s with
    print_count := s.print_count + 1
    output := s.output ++ [.header (s.print_count + 1)]
    printer := .line 0 }, ?_, h.main, h.fault, h.live, h.thread, h.fresh, rfl, nofun⟩
  rw [h.running]
  show s.printStep = _
  unfold State.printStep
  rw [h.printer]
  exact if_neg (by rw [h.count (Or.inr rfl)]; decide)

theorem Sleeping.next {i : Nat} (h : Sleeping (.line i) s) (hi : i < size) :
    ∃ s', step s .print = some s' ∧ Sleeping (.line (i + 1)) s' := by
  refine ⟨{ s with
    output := s.output ++ [.counter i (s.counter ⟨i, hi⟩)]
    printer := .line (i + 1) }, ?_, h.main, h.fault, h.live, h.thread, h.fresh, rfl, nofun⟩
  rw [h.running]
  show s.printStep = _
  unfold State.printStep
  rw [h.printer]
  show (if h : i < size then _ else _) = _
  rw [dif_pos hi, h.live]
  rfl

theorem reachable_line {i : Nat} (hi : i ≤ size) :
    ∃ s : State size, Reachable s ∧ Sleeping (.line i) s := by
  induction i with
  | zero =>
      obtain ⟨s, hs, hsleeping⟩ := @reachable_sleeping size
      obtain ⟨s₁, hstep₁, hcopied⟩ := hsleeping.copied
      obtain ⟨s₂, hstep₂, hheaded⟩ := hcopied.headed
      exact ⟨s₂, (Relation.ReflTransGen.tail hs ⟨_, hstep₁⟩).tail ⟨_, hstep₂⟩, hheaded⟩
  | succ i ih =>
      obtain ⟨s, hs, hsleeping⟩ := ih (Nat.le_of_succ_le hi)
      obtain ⟨s', hstep, hnext⟩ := hsleeping.next hi
      exact ⟨s', Relation.ReflTransGen.tail hs ⟨_, hstep⟩, hnext⟩

/-- Nothing orders the print thread and a counting thread. -/
theorem reachable_race (k : Fin size) :
    ∃ s : State size, Reachable s ∧ s.Races k ∧ s.counter k < LONG_MAX := by
  obtain ⟨s, hs, hsleeping⟩ := reachable_line (Nat.le_of_lt k.isLt)
  have hload : step s (.count k)
      = some { s with thread := Function.update s.thread k (.store (s.counter k)) } := by
    rw [hsleeping.running]
    show s.countStep k = _
    unfold State.countStep
    rw [hsleeping.thread k, hsleeping.live]
    rfl
  refine ⟨_, Relation.ReflTransGen.tail hs ⟨_, hload⟩,
    ⟨hsleeping.fault, hsleeping.live, hsleeping.printer, s.counter k, ?_⟩, ?_⟩
  · exact Function.update_self _ _ _
  · show s.counter k < LONG_MAX
    rw [Reachable.exact hs |>.counter k, hsleeping.fresh k]
    decide

/-- What a thread stores, wherever the others are. -/
theorem stores {k : Fin size} (hfault : s.fault = none) (hmain : ∀ code, s.main ≠ .returned code)
    (hlive : s.live = true) {value : Int} (hpc : s.thread k = .store value)
    (hmax : value < LONG_MAX) :
    ∃ s', step s (.count k) = some s' ∧ s'.counter k = value + 1 ∧ s'.output = s.output ∧
      s'.printer = s.printer ∧ s'.main = s.main ∧ s'.live = s.live ∧ s'.fault = s.fault := by
  refine ⟨{ s with
    counter := Function.update s.counter k (value + 1)
    increments := Function.update s.increments k (s.increments k + 1)
    thread := Function.update s.thread k .load }, ?_, Function.update_self _ _ _, rfl, rfl, rfl,
    rfl, rfl⟩
  rw [step_eq hfault hmain]
  show s.countStep k = _
  unfold State.countStep
  rw [hpc]
  show (if LONG_MAX ≤ value then _ else _) = _
  rw [if_neg (by omega), hlive]
  rfl

/-- What the print thread reads. -/
theorem reads {k : Fin size} (hfault : s.fault = none) (hmain : ∀ code, s.main ≠ .returned code)
    (hlive : s.live = true) (hpc : s.printer = .line k.val) :
    ∃ s', step s .print = some s' ∧ s'.output = s.output ++ [.counter k.val (s.counter k)] ∧
      s'.thread = s.thread ∧ s'.main = s.main ∧ s'.live = s.live ∧ s'.fault = s.fault := by
  refine ⟨{ s with
    output := s.output ++ [.counter k.val (s.counter k)]
    printer := .line (k.val + 1) }, ?_, rfl, rfl, rfl, rfl, rfl⟩
  rw [step_eq hfault hmain]
  show s.printStep = _
  unfold State.printStep
  rw [hpc]
  show (if h : k.val < size then _ else _) = _
  rw [dif_pos k.isLt, hlive]
  rfl

/-- **THE ORDER DECIDES WHAT IS PRINTED**: the counter with the increment, or
without it. -/
theorem State.Races.order (hs : Reachable s) {k : Fin size} (h : s.Races k)
    (hmax : s.counter k < LONG_MAX) :
    ∃ s₁ s₂, runActions step s [.count k, .print] = some s₁ ∧
      runActions step s [.print, .count k] = some s₂ ∧
      s₁.output = s.output ++ [.counter k.val (s.counter k + 1)] ∧
      s₂.output = s.output ++ [.counter k.val (s.counter k)] := by
  obtain ⟨value, hpc⟩ := h.thread
  have hvalue := hs.exact.loaded k value hpc
  -- the counters are allocated, so the process has not ended
  have hmain : ∀ code, s.main ≠ .returned code := by
    intro code hcode
    have hlive := hs.phases.live
    rw [hcode, h.live] at hlive
    cases hlive
  obtain ⟨t₁, hcount₁, hcounter, houtput₁, hprinter, hmain₁, hlive₁, hfault₁⟩ :=
    stores h.fault hmain h.live hpc (by omega)
  obtain ⟨s₁, hprint₁, hread₁, -⟩ := reads (hfault₁.trans h.fault)
    (by rw [hmain₁]; exact hmain) (hlive₁.trans h.live) (hprinter.trans h.printer)
  obtain ⟨t₂, hprint₂, hread₂, hthread, hmain₂, hlive₂, hfault₂⟩ :=
    reads h.fault hmain h.live h.printer
  obtain ⟨s₂, hcount₂, -, houtput₂, -⟩ := stores (hfault₂.trans h.fault)
    (by rw [hmain₂]; exact hmain) (hlive₂.trans h.live)
    (by rw [hthread]; exact hpc) (by omega)
  refine ⟨s₁, s₂, ?_, ?_, ?_, ?_⟩
  · show (step s (.count k)).bind (fun t => (step t .print).bind _) = some s₁
    rw [hcount₁, Option.bind_some, hprint₁]
    rfl
  · show (step s .print).bind (fun t => (step t (.count k)).bind _) = some s₂
    rw [hprint₂, Option.bind_some, hcount₂]
    rfl
  · rw [hread₁, houtput₁, hcounter, hvalue]
  · rw [houtput₂, hread₂]

/-- **FREED WHILE COUNTING.**  Only between `free` and the end of the process is
freed memory accessed; there every counting thread that was created does so
with its next step and the print thread within its next three, and main leads
there on both of its ways out, with 0 and with 1.  The print thread reads the
`arg` of a main that has returned only where it makes its copy as late as that,
and some run does.  Before all that each counter is read and written by two
threads that nothing orders, and the order decides what is printed.  An
increment is undefined only where a counter or the number of snapshots has
reached the greatest value of its type. -/
theorem freed_while_counting {argv : List CString} (hsetup : setup argv true = .runs size) :
    (∀ s : State size, Reachable s → s.fault = some .useAfterFree → s.main.Window) ∧
      (∀ s : State size, Reachable s → s.fault = none → s.main.Window →
        (∀ k, s.thread k ≠ .unborn → (s.increments k : Int) < LONG_MAX →
          step s (.count k) = some (s.faults .useAfterFree)) ∧
        (s.printer ≠ .unborn → s.print_count < INT_MAX → ∃ n ≤ 3, s.PrinterFaults n
          (if s.printer = .copy ∧ s.main = .unwound then .deadFrame else .useAfterFree))) ∧
      (∀ code, code = 0 ∨ code = 1 → ∃ s : State size, Reachable s ∧ s.main = .exit code ∧
        s.fault = some .useAfterFree) ∧
      (∀ s : State size, Reachable s → s.fault = some .deadFrame →
        s.main = .unwound ∧ s.printer = .copy) ∧
      (∃ s : State size, Reachable s ∧ s.fault = some .deadFrame) ∧
      (∀ k : Fin size, ∃ s, Reachable s ∧ s.Races k ∧ s.counter k < LONG_MAX) ∧
      (∀ (s : State size) (k : Fin size), Reachable s → s.Races k → s.counter k < LONG_MAX →
        ∃ s₁ s₂, runActions step s [.count k, .print] = some s₁ ∧
          runActions step s [.print, .count k] = some s₂ ∧
          s₁.output = s.output ++ [.counter k.val (s.counter k + 1)] ∧
          s₂.output = s.output ++ [.counter k.val (s.counter k)]) ∧
      ∀ s : State size, Reachable s → s.fault = some .overflow →
        (∃ k, s.increments k = LONG_MAX) ∨ INT_MAX ≤ s.print_count := by
  have hsize := setup_runs hsetup
  refine ⟨fun s hs => hs.phases.freed, ?_, fun code => reachable_freed hsize,
    fun s hs => hs.phases.dead, reachable_dead, reachable_race,
    fun s k hs hraces => hraces.order hs, fun s hs => hs.phases.overflowed⟩
  -- in the window all that the threads can still do is undefined
  intro s hs hfault hwindow
  have hdoomed : Doomed s := ⟨hfault, hs.phases.freed_of_window hwindow, hwindow⟩
  exact ⟨fun k => faults_of_freed hs hfault hwindow,
    fun hborn hmax => hdoomed.printer_faults hborn hmax hsize⟩

theorem freed_while_counting_two :
    (∀ s : State 2, Reachable s → s.fault = some .useAfterFree → s.main.Window) ∧
      (∀ s : State 2, Reachable s → s.fault = none → s.main.Window →
        (∀ k, s.thread k ≠ .unborn → (s.increments k : Int) < LONG_MAX →
          step s (.count k) = some (s.faults .useAfterFree)) ∧
        (s.printer ≠ .unborn → s.print_count < INT_MAX → ∃ n ≤ 3, s.PrinterFaults n
          (if s.printer = .copy ∧ s.main = .unwound then .deadFrame else .useAfterFree))) ∧
      (∀ code, code = 0 ∨ code = 1 → ∃ s : State 2, Reachable s ∧ s.main = .exit code ∧
        s.fault = some .useAfterFree) ∧
      (∀ s : State 2, Reachable s → s.fault = some .deadFrame →
        s.main = .unwound ∧ s.printer = .copy) ∧
      (∃ s : State 2, Reachable s ∧ s.fault = some .deadFrame) ∧
      (∀ k : Fin 2, ∃ s, Reachable s ∧ s.Races k ∧ s.counter k < LONG_MAX) ∧
      (∀ (s : State 2) (k : Fin 2), Reachable s → s.Races k → s.counter k < LONG_MAX →
        ∃ s₁ s₂, runActions step s [.count k, .print] = some s₁ ∧
          runActions step s [.print, .count k] = some s₂ ∧
          s₁.output = s.output ++ [.counter k.val (s.counter k + 1)] ∧
          s₂.output = s.output ++ [.counter k.val (s.counter k)]) ∧
      ∀ s : State 2, Reachable s → s.fault = some .overflow →
        (∃ k, s.increments k = LONG_MAX) ∨ INT_MAX ≤ s.print_count :=
  @freed_while_counting 2 [str "./CPUruntime", str "2"] (by decide +kernel)

end freed

end ConcurrencyCrypto.CpuRuntime
