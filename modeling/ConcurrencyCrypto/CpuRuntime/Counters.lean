/-
  ConcurrencyCrypto.CpuRuntime.Counters
  ─────────────────────────────────────
  **COUNTERS WITHOUT A LOCK.**

    • `Exact.next`            — nobody else writes a counter,
    • `Printed`               — what the print thread has written,
    • `counters_without_lock` — no increment is lost, and the snapshots are
                                complete, numbered, and never go back.
-/
import ConcurrencyCrypto.CpuRuntime.Machine

namespace ConcurrencyCrypto.CpuRuntime

open ConcurrencyCrypto.Library

variable {size : Nat}

/-! ## §1. No increment is lost. -/

/-- **Nobody else writes a counter**, so what its thread loaded is still there
when it stores. -/
structure Exact (s : State size) : Prop where
  counter : ∀ k, s.counter k = s.increments k
  loaded : ∀ k value, s.thread k = .store value → value = s.counter k
  bounded : ∀ k, s.counter k ≤ LONG_MAX

section exact
variable {s s' : State size}

theorem exact_start : Exact (State.start size) where
  counter _ := rfl
  loaded := nofun
  bounded _ := by
    show (0 : Int) ≤ LONG_MAX
    decide

/-- The counters are as they were, and one thread is elsewhere. -/
theorem Exact.moved (h : Exact s) {k : Fin size} {pc : CounterPc}
    (hcounter : s'.counter = s.counter) (hincrements : s'.increments = s.increments)
    (hthread : s'.thread = Function.update s.thread k pc)
    (hpc : ∀ value, pc = .store value → value = s.counter k) : Exact s' := by
  refine ⟨?_, ?_, ?_⟩
  · rw [hcounter, hincrements]
    exact h.counter
  · intro j value hj
    rw [hcounter]
    rw [hthread] at hj
    by_cases hjk : j = k
    · rw [hjk, Function.update_self] at hj
      rw [hjk]
      exact hpc value hj
    · rw [Function.update_of_ne hjk] at hj
      exact h.loaded j value hj
  · rw [hcounter]
    exact h.bounded

theorem Exact.main (h : Exact s) (heffect : MainEffect s s') : Exact s' := by
  cases heffect with
  | created k hmain hs' =>
      rw [hs']
      exact h.moved rfl rfl rfl nofun
  | printer hmain hs' => rw [hs']; exact ⟨h.counter, h.loaded, h.bounded⟩
  | failed hmain perrors hs' => rw [hs']; exact ⟨h.counter, h.loaded, h.bounded⟩
  | awake hmain hs' => rw [hs']; exact ⟨h.counter, h.loaded, h.bounded⟩
  | frees code hmain hs' => rw [hs']; exact ⟨h.counter, h.loaded, h.bounded⟩
  | unwinds code hmain hs' => rw [hs']; exact ⟨h.counter, h.loaded, h.bounded⟩
  | exits hmain code hs' => rw [hs']; exact ⟨h.counter, h.loaded, h.bounded⟩

theorem Exact.count (h : Exact s) {k : Fin size} (heffect : CountEffect s s' k) : Exact s' := by
  cases heffect with
  | load hpc hlive hs' =>
      rw [hs']
      refine h.moved rfl rfl rfl ?_
      intro value hvalue
      injection hvalue with hvalue
      exact hvalue.symm
  | store value hpc hlive hmax hs' =>
      have hvalue := h.loaded k value hpc
      rw [hs']
      refine ⟨?_, ?_, ?_⟩
      · intro j
        dsimp only
        by_cases hjk : j = k
        · rw [hjk, Function.update_self, Function.update_self, hvalue, h.counter k]
          rfl
        · rw [Function.update_of_ne hjk, Function.update_of_ne hjk]
          exact h.counter j
      · intro j w hj
        dsimp only at hj ⊢
        by_cases hjk : j = k
        · rw [hjk, Function.update_self] at hj
          cases hj
        · rw [Function.update_of_ne hjk] at hj ⊢
          exact h.loaded j w hj
      · intro j
        dsimp only
        by_cases hjk : j = k
        · rw [hjk, Function.update_self]
          omega
        · rw [Function.update_of_ne hjk]
          exact h.bounded j
  | freed hborn hlive hs' => rw [hs']; exact ⟨h.counter, h.loaded, h.bounded⟩
  | overflow value hpc hmax hs' => rw [hs']; exact ⟨h.counter, h.loaded, h.bounded⟩

theorem Exact.print (h : Exact s) (heffect : PrintEffect s s') : Exact s' := by
  cases heffect with
  | copy hpc hs' => rw [hs']; exact ⟨h.counter, h.loaded, h.bounded⟩
  | dead hpc hmain hs' => rw [hs']; exact ⟨h.counter, h.loaded, h.bounded⟩
  | header hpc hmax hs' => rw [hs']; exact ⟨h.counter, h.loaded, h.bounded⟩
  | line i hpc hlive hs' => rw [hs']; exact ⟨h.counter, h.loaded, h.bounded⟩
  | footer i hpc hi hs' => rw [hs']; exact ⟨h.counter, h.loaded, h.bounded⟩
  | freed hlive hs' => rw [hs']; exact ⟨h.counter, h.loaded, h.bounded⟩
  | overflow hmax hs' => rw [hs']; exact ⟨h.counter, h.loaded, h.bounded⟩

theorem Exact.next (h : Exact s) {a : Action size} (hstep : step s a = some s') : Exact s' := by
  rcases step_effect hstep with hmain | ⟨k, hcount⟩ | hprint
  · exact h.main hmain
  · exact h.count hcount
  · exact h.print hprint

theorem Reachable.exact (h : Reachable s) : Exact s :=
  Reaches.invariant h exact_start fun _ _ _ hs hstep => hs.next hstep

end exact

/-! ## §2. Until when the counters are there. -/

/-- The counters are freed and the process still runs. -/
def MainPc.Window (pc : MainPc) : Prop := pc = .unwound ∨ ∃ code, pc = .exit code

theorem MainPc.Window.runs {pc : MainPc} (h : pc.Window) (code : Int) : pc ≠ .returned code := by
  rcases h with rfl | ⟨_, rfl⟩
  · exact nofun
  · exact nofun

structure Phases (s : State size) : Prop where
  live : s.live = s.main.holds
  /-- The print thread is created last. -/
  unborn : ∀ i, s.main = .create i → s.printer = .unborn
  freed : s.fault = some .useAfterFree → s.main.Window
  dead : s.fault = some .deadFrame → s.main = .unwound ∧ s.printer = .copy
  overflowed : s.fault = some .overflow →
    (∃ k, s.increments k = LONG_MAX) ∨ INT_MAX ≤ s.print_count

section phases
variable {s s' : State size}

theorem phases_start : Phases (State.start size) := ⟨rfl, fun _ _ => rfl, nofun, nofun, nofun⟩

/-- No step has been undefined. -/
theorem Phases.defined (hfault : s.fault = none) (hlive : s.live = s.main.holds)
    (hunborn : ∀ i, s.main = .create i → s.printer = .unborn) : Phases s := by
  have hnone : ∀ fault, s.fault ≠ some fault := by
    intro fault
    rw [hfault]
    exact nofun
  exact ⟨hlive, hunborn, fun hf => absurd hf (hnone _), fun hf => absurd hf (hnone _),
    fun hf => absurd hf (hnone _)⟩

theorem Phases.main (h : Phases s) (hfault : s.fault = none) (heffect : MainEffect s s') :
    Phases s' := by
  have hlive := h.live
  cases heffect with
  | created k hmain hs' =>
      rw [hmain] at hlive
      rw [hs']
      exact .defined hfault hlive fun _ _ => h.unborn _ hmain
  | printer hmain hs' =>
      obtain ⟨i, hmain⟩ := hmain
      rw [hmain] at hlive
      rw [hs']
      exact .defined hfault hlive nofun
  | failed hmain perrors hs' =>
      obtain ⟨i, hmain⟩ := hmain
      rw [hmain] at hlive
      rw [hs']
      exact .defined hfault hlive nofun
  | awake hmain hs' =>
      rw [hmain] at hlive
      rw [hs']
      exact .defined hfault hlive nofun
  | frees code hmain hs' =>
      rw [hs']
      exact .defined hfault rfl nofun
  | unwinds code hmain hs' =>
      rw [hmain] at hlive
      rw [hs']
      exact .defined hfault hlive nofun
  | exits hmain code hs' =>
      rw [hmain] at hlive
      rw [hs']
      exact .defined hfault hlive nofun

/-- Without its counters the program is about to end. -/
theorem Phases.window (h : Phases s) (hmain : ∀ code, s.main ≠ .returned code)
    (hlive : s.live = false) : s.main.Window := by
  have hholds := h.live.symm.trans hlive
  cases hpc : s.main with
  | exit code => exact Or.inr ⟨code, rfl⟩
  | unwound => exact Or.inl rfl
  | returned code => exact absurd hpc (hmain code)
  | _ =>
      rw [hpc] at hholds
      cases hholds

theorem Phases.freed_of_window (h : Phases s) (hmain : s.main.Window) : s.live = false := by
  rw [h.live]
  rcases hmain with hmain | ⟨code, hmain⟩
  · rw [hmain]
    rfl
  · rw [hmain]
    rfl

/-- A thread has stepped. -/
theorem Phases.kept (h : Phases s) (hfault : s'.fault = none) (hlive : s'.live = s.live)
    (hmain : s'.main = s.main) (hborn : s.printer ≠ .unborn) : Phases s' := by
  refine .defined hfault (by rw [hlive, hmain]; exact h.live) ?_
  rw [hmain]
  exact fun i hi => absurd (h.unborn i hi) hborn

theorem Phases.frees (h : Phases s) (hmain : ∀ code, s.main ≠ .returned code)
    (hlive : s.live = false) : Phases (s.faults .useAfterFree) :=
  ⟨h.live, h.unborn, fun _ => h.window hmain hlive, nofun, nofun⟩

theorem Phases.overflows (h : Phases s)
    (hmax : (∃ k, s.increments k = LONG_MAX) ∨ INT_MAX ≤ s.print_count) :
    Phases (s.faults .overflow) :=
  ⟨h.live, h.unborn, nofun, nofun, fun _ => hmax⟩

theorem Phases.count (h : Phases s) (hexact : Exact s) (hfault : s.fault = none)
    (hmain : ∀ code, s.main ≠ .returned code) {k : Fin size} (heffect : CountEffect s s' k) :
    Phases s' := by
  cases heffect with
  | load hpc hlive hs' => rw [hs']; exact .defined hfault h.live h.unborn
  | store value hpc hlive hmax hs' => rw [hs']; exact .defined hfault h.live h.unborn
  | freed hborn hlive hs' => rw [hs']; exact h.frees hmain hlive
  | overflow value hpc hmax hs' =>
      rw [hs']
      refine h.overflows (Or.inl ⟨k, ?_⟩)
      have hvalue := hexact.loaded k value hpc
      have hcounter := hexact.counter k
      have hbound := hexact.bounded k
      omega

theorem Phases.print (h : Phases s) (hfault : s.fault = none)
    (hmain : ∀ code, s.main ≠ .returned code) (heffect : PrintEffect s s') : Phases s' := by
  cases heffect with
  | copy hpc hs' => rw [hs']; exact h.kept hfault rfl rfl (by rw [hpc]; exact nofun)
  | dead hpc hunwound hs' =>
      rw [hs']
      exact ⟨h.live, h.unborn, nofun, fun _ => ⟨hunwound, hpc⟩, nofun⟩
  | header hpc hmax hs' => rw [hs']; exact h.kept hfault rfl rfl (by rw [hpc]; exact nofun)
  | line i hpc hlive hs' => rw [hs']; exact h.kept hfault rfl rfl (by rw [hpc]; exact nofun)
  | footer i hpc hi hs' => rw [hs']; exact h.kept hfault rfl rfl (by rw [hpc]; exact nofun)
  | freed hlive hs' => rw [hs']; exact h.frees hmain hlive
  | overflow hmax hs' => rw [hs']; exact h.overflows (Or.inr hmax)

theorem Phases.next (h : Phases s) (hexact : Exact s) {a : Action size}
    (hstep : step s a = some s') : Phases s' := by
  obtain ⟨hfault, hmain, -⟩ := step_running hstep
  rcases step_effect hstep with heffect | ⟨k, heffect⟩ | heffect
  · exact h.main hfault heffect
  · exact h.count hexact hfault hmain heffect
  · exact h.print hfault hmain heffect

theorem Reachable.phases (h : Reachable s) : Phases s := by
  have hall : Exact s ∧ Phases s :=
    Reaches.invariant h (I := fun s => Exact s ∧ Phases s) ⟨exact_start, phases_start⟩
      fun _ _ _ hs hstep => ⟨hs.1.next hstep, hs.2.next hs.1 hstep⟩
  exact hall.2

end phases

/-! ## §3. The snapshots. -/

/-- The lines of the first counters. -/
def rows (values : List Int) : List Line := values.zipIdx.map fun p => .counter p.2 p.1

/-- Snapshot number `n`. -/
def snapshot (n : Int) (values : List Int) : List Line :=
  .header n :: rows values ++ [.footer]

/-- The snapshots with these values, from the first one on. -/
def snapshots (done : List (List Int)) : List Line :=
  (done.zipIdx.map fun p => snapshot (p.2 + 1) p.1).flatten

/-- No value is greater than the one at its place behind it. -/
def Below (vs ws : List Int) : Prop :=
  ∀ (i : Nat) (v w : Int), vs[i]? = some v → ws[i]? = some w → v ≤ w

/-- The counters as they are. -/
def State.values (s : State size) : List Int := List.ofFn s.counter

/-- The snapshot that is being printed, with the values read so far. -/
def State.begun (s : State size) (n : Int) (taken : List Int) : List Line :=
  match s.printer with
  | .line _ => .header n :: rows taken
  | _ => []

/-- How many values it has so far. -/
def PrinterPc.lines : PrinterPc → Nat
  | .line i => i
  | _ => 0

/-- How many snapshots are being printed. -/
def PrinterPc.begun : PrinterPc → Int
  | .line _ => 1
  | _ => 0

/-- **What was printed**: the snapshots `done`, and the values `taken` of the
next one.  Counters only grow, so each list is below those behind it. -/
structure Printed (s : State size) (done : List (List Int)) (taken : List Int) : Prop where
  output : s.output = snapshots done ++ s.begun (done.length + 1) taken
  count : s.print_count = done.length + s.printer.begun
  complete : ∀ values ∈ done, values.length = size
  taken_length : taken.length = s.printer.lines
  taken_le : taken.length ≤ size
  growing : (done ++ [taken, s.values]).Pairwise Below

section printed
variable {s s' : State size} {done : List (List Int)} {taken : List Int}

theorem rows_concat (values : List Int) (v : Int) :
    rows (values ++ [v]) = rows values ++ [.counter values.length v] := by
  unfold rows
  rw [List.zipIdx_append, List.map_append]
  simp

theorem snapshots_concat (done : List (List Int)) (values : List Int) :
    snapshots (done ++ [values]) = snapshots done ++ snapshot (done.length + 1) values := by
  unfold snapshots
  rw [List.zipIdx_append, List.map_append, List.flatten_append]
  simp

theorem below_nil_left (ws : List Int) : Below [] ws := nofun

theorem below_nil_right (vs : List Int) : Below vs [] := nofun

/-- What is below the counters is below what is read of them. -/
theorem Below.concat {vs taken ws : List Int} {v : Int} (h : Below vs taken) (hw : Below vs ws)
    (hv : ws[taken.length]? = some v) : Below vs (taken ++ [v]) := by
  intro i x y hx hy
  by_cases hi : i < taken.length
  · rw [List.getElem?_append_left hi] at hy
    exact h i x y hx hy
  · obtain ⟨hlt, -⟩ := List.getElem?_eq_some_iff.mp hy
    rw [List.length_append, List.length_singleton] at hlt
    have heq : i = taken.length := by omega
    rw [heq, List.getElem?_concat_length] at hy
    rw [heq] at hx
    injection hy with hy
    rw [← hy]
    exact hw _ x v hx hv

theorem concat_below {taken ws : List Int} {v : Int} (h : Below taken ws)
    (hv : ws[taken.length]? = some v) : Below (taken ++ [v]) ws := by
  intro i x y hx hy
  by_cases hi : i < taken.length
  · rw [List.getElem?_append_left hi] at hx
    exact h i x y hx hy
  · obtain ⟨hlt, -⟩ := List.getElem?_eq_some_iff.mp hx
    rw [List.length_append, List.length_singleton] at hlt
    have heq : i = taken.length := by omega
    rw [heq, List.getElem?_concat_length] at hx
    rw [heq, hv] at hy
    injection hx with hx
    injection hy with hy
    omega

theorem growing_iff (done : List (List Int)) (taken values : List Int) :
    (done ++ [taken, values]).Pairwise Below ↔
      done.Pairwise Below ∧ (∀ vs ∈ done, Below vs taken ∧ Below vs values) ∧
        Below taken values := by
  rw [List.pairwise_append]
  simp only [List.pairwise_cons, List.mem_cons, List.not_mem_nil, or_false, forall_eq,
    List.Pairwise.nil, forall_eq_or_imp]
  constructor
  · rintro ⟨h1, ⟨h2, -⟩, h3⟩
    exact ⟨h1, h3, h2⟩
  · rintro ⟨h1, h2, h3⟩
    exact ⟨h1, ⟨h3, nofun, trivial⟩, h2⟩

theorem values_getElem (s : State size) (i : Fin size) :
    s.values[i.val]? = some (s.counter i) := by
  unfold State.values
  simp

/-- One counter grows. -/
theorem Below.values (hle : ∀ k, s.counter k ≤ s'.counter k) {vs : List Int}
    (h : Below vs s.values) : Below vs s'.values := by
  intro i v w hv hw
  have hi : i < size := by
    obtain ⟨hlt, -⟩ := List.getElem?_eq_some_iff.mp hw
    unfold State.values at hlt
    rwa [List.length_ofFn] at hlt
  rw [values_getElem s' ⟨i, hi⟩] at hw
  injection hw with hw
  have hold := h i v (s.counter ⟨i, hi⟩) hv (values_getElem s ⟨i, hi⟩)
  have := hle ⟨i, hi⟩
  omega

theorem printed_start : Printed (State.start size) [] [] where
  output := rfl
  count := rfl
  complete := nofun
  taken_length := rfl
  taken_le := Nat.zero_le _
  growing := (growing_iff _ _ _).mpr ⟨List.Pairwise.nil, nofun, below_nil_left _⟩

/-- Nobody prints. -/
theorem Printed.grow (h : Printed s done taken) (houtput : s'.output = s.output)
    (hcount : s'.print_count = s.print_count) (hprinter : s'.printer = s.printer)
    (hle : ∀ k, s.counter k ≤ s'.counter k) : Printed s' done taken := by
  obtain ⟨hdone, hbelow, htaken⟩ := (growing_iff _ _ _).mp h.growing
  refine ⟨?_, ?_, h.complete, ?_, h.taken_le, ?_⟩
  · unfold State.begun
    rw [houtput, hprinter]
    exact h.output
  · rw [hcount, hprinter]
    exact h.count
  · rw [hprinter]
    exact h.taken_length
  · exact (growing_iff _ _ _).mpr ⟨hdone, fun vs hvs => ⟨(hbelow vs hvs).1,
      (hbelow vs hvs).2.values hle⟩, htaken.values hle⟩

theorem Printed.main (h : Printed s done taken) (hphases : Phases s)
    (heffect : MainEffect s s') : Printed s' done taken := by
  cases heffect with
  | created k hmain hs' => rw [hs']; exact h.grow rfl rfl rfl fun _ => Int.le_refl _
  | printer hmain hs' =>
      obtain ⟨i, hmain⟩ := hmain
      have hunborn := hphases.unborn i hmain
      have houtput := h.output
      have hcount := h.count
      have hlength := h.taken_length
      unfold State.begun at houtput
      rw [hunborn] at houtput hcount hlength
      rw [hs']
      exact ⟨houtput, hcount, h.complete, hlength, h.taken_le, h.growing⟩
  | failed hmain perrors hs' => rw [hs']; exact h.grow rfl rfl rfl fun _ => Int.le_refl _
  | awake hmain hs' => rw [hs']; exact h.grow rfl rfl rfl fun _ => Int.le_refl _
  | frees code hmain hs' => rw [hs']; exact h.grow rfl rfl rfl fun _ => Int.le_refl _
  | unwinds code hmain hs' => rw [hs']; exact h.grow rfl rfl rfl fun _ => Int.le_refl _
  | exits hmain code hs' => rw [hs']; exact h.grow rfl rfl rfl fun _ => Int.le_refl _

theorem Printed.counted (h : Printed s done taken) (hexact : Exact s) {k : Fin size}
    (heffect : CountEffect s s' k) : Printed s' done taken := by
  cases heffect with
  | load hpc hlive hs' => rw [hs']; exact h.grow rfl rfl rfl fun _ => Int.le_refl _
  | store value hpc hlive hmax hs' =>
      rw [hs']
      refine h.grow rfl rfl rfl fun j => ?_
      dsimp only
      by_cases hjk : j = k
      · have hvalue := hexact.loaded k value hpc
        rw [hjk, Function.update_self]
        omega
      · rw [Function.update_of_ne hjk]
  | freed hborn hlive hs' => rw [hs']; exact h.grow rfl rfl rfl fun _ => Int.le_refl _
  | overflow value hpc hmax hs' => rw [hs']; exact h.grow rfl rfl rfl fun _ => Int.le_refl _

theorem Printed.prints (h : Printed s done taken) (heffect : PrintEffect s s') :
    ∃ done' taken', Printed s' done' taken' := by
  have houtput := h.output
  have hcount := h.count
  have hlength := h.taken_length
  obtain ⟨hdone, hbelow, htaken⟩ := (growing_iff _ _ _).mp h.growing
  unfold State.begun at houtput
  cases heffect with
  | copy hpc hs' =>
      rw [hpc] at houtput hcount hlength
      rw [hs']
      exact ⟨done, taken, houtput, hcount, h.complete, hlength, h.taken_le, h.growing⟩
  | dead hpc hmain hs' =>
      rw [hs']
      exact ⟨done, taken, h.grow rfl rfl rfl fun _ => Int.le_refl _⟩
  | header hpc hmax hs' =>
      rw [hpc] at houtput hcount hlength
      have hnil : taken = [] := List.length_eq_zero_iff.mp hlength
      have hcount : s.print_count = done.length + 0 := hcount
      rw [hs']
      refine ⟨done, [], ?_, ?_, h.complete, rfl, Nat.zero_le _, ?_⟩
      · show s.output ++ [.header (s.print_count + 1)] = _
        rw [houtput, hcount, List.append_nil, add_zero]
        rfl
      · show s.print_count + 1 = done.length + 1
        omega
      · rw [hnil] at h
        exact h.growing
  | line i hpc hlive hs' =>
      rw [hpc] at houtput hcount hlength
      have hi : taken.length = i.val := hlength
      have hvalue : s.values[taken.length]? = some (s.counter i) := by
        rw [hi]
        exact values_getElem s i
      rw [hs']
      refine ⟨done, taken ++ [s.counter i], ?_, hcount, h.complete, ?_, ?_, ?_⟩
      · show s.output ++ [.counter i.val (s.counter i)]
          = snapshots done ++ (.header (done.length + 1) :: rows (taken ++ [s.counter i]))
        rw [houtput, rows_concat, hi]
        simp
      · rw [List.length_append, hi]
        rfl
      · have := i.isLt
        rw [List.length_append, List.length_singleton]
        omega
      · exact (growing_iff _ _ _).mpr ⟨hdone,
          fun vs hvs => ⟨(hbelow vs hvs).1.concat (hbelow vs hvs).2 hvalue, (hbelow vs hvs).2⟩,
          concat_below htaken hvalue⟩
  | footer i hpc hi hs' =>
      rw [hpc] at houtput hcount hlength
      have hlength : taken.length = i := hlength
      have hle := h.taken_le
      have hcount : s.print_count = done.length + 1 := hcount
      rw [hs']
      refine ⟨done ++ [taken], [], ?_, ?_, ?_, rfl, Nat.zero_le _, ?_⟩
      · show s.output ++ [.footer] = snapshots (done ++ [taken]) ++ []
        rw [houtput, snapshots_concat]
        unfold snapshot
        simp
      · rw [List.length_append, List.length_singleton]
        show s.print_count = ((done.length + 1 : Nat) : Int) + 0
        omega
      · intro values hvalues
        rcases List.mem_append.mp hvalues with hvalues | hvalues
        · exact h.complete values hvalues
        · rw [List.mem_singleton.mp hvalues]
          omega
      · refine (growing_iff _ _ _).mpr ⟨?_, ?_, below_nil_left _⟩
        · rw [List.pairwise_append]
          refine ⟨hdone, List.pairwise_singleton _ _, ?_⟩
          intro vs hvs ws hws
          rw [List.mem_singleton.mp hws]
          exact (hbelow vs hvs).1
        · intro vs hvs
          rcases List.mem_append.mp hvs with hvs | hvs
          · exact ⟨below_nil_right _, (hbelow vs hvs).2⟩
          · rw [List.mem_singleton.mp hvs]
            exact ⟨below_nil_right _, htaken⟩
  | freed hlive hs' =>
      rw [hs']
      exact ⟨done, taken, h.grow rfl rfl rfl fun _ => Int.le_refl _⟩
  | overflow hmax hs' =>
      rw [hs']
      exact ⟨done, taken, h.grow rfl rfl rfl fun _ => Int.le_refl _⟩

theorem Reachable.printed (h : Reachable s) : ∃ done taken, Printed s done taken := by
  have hall : Exact s ∧ Phases s ∧ ∃ done taken, Printed s done taken := by
    refine Reaches.invariant h
      (I := fun s => Exact s ∧ Phases s ∧ ∃ done taken, Printed s done taken)
      ⟨exact_start, phases_start, [], [], printed_start⟩ ?_
    rintro s a s' ⟨hexact, hphases, done, taken, hprinted⟩ hstep
    refine ⟨hexact.next hstep, hphases.next hexact hstep, ?_⟩
    rcases step_effect hstep with heffect | ⟨k, heffect⟩ | heffect
    · exact ⟨done, taken, hprinted.main hphases heffect⟩
    · exact ⟨done, taken, hprinted.counted hexact heffect⟩
    · exact hprinted.prints heffect
  exact hall.2.2

end printed

/-- **COUNTERS WITHOUT A LOCK.**  However the threads interleave, each counter is
the number of increments its own thread has completed.  What has been printed
are the snapshots `1`, `2`, … of all counters in their order and the begin of
the next one, with no value ever below an earlier one of the same counter, nor
above the counter itself.  A run ends, if not with the process, where a freed
counter or the `arg` of a main that has returned is read, or a number is
increased beyond its type. -/
theorem counters_without_lock {s : State size} (h : Reachable s) :
    (∀ k, s.counter k = s.increments k) ∧
      ∃ done taken, s.output = snapshots done ++ s.begun (done.length + 1) taken ∧
        (∀ values ∈ done, values.length = size) ∧ taken.length = s.printer.lines ∧
        (done ++ [taken, s.values]).Pairwise Below := by
  obtain ⟨done, taken, hprinted⟩ := h.printed
  exact ⟨h.exact.counter, done, taken, hprinted.output, hprinted.complete,
    hprinted.taken_length, hprinted.growing⟩

/-- Of two counting threads. -/
def first : Fin 2 := ⟨0, Nat.two_pos⟩

def second : Fin 2 := ⟨1, Nat.one_lt_two⟩

/-- Two counters: the threads overtake each other and the print thread, which
is in its second snapshot. -/
def twoCounters : List (Action 2) :=
  [.main true, .count first, .main true, .count second, .main true, .print, .print,
    .count second, .print, .count first, .print, .print, .count second, .count first,
    .count second, .print, .count first, .print]

/-- What it has printed by then. -/
def twoCountersText : CString :=
  str "--- Snapshot #1 ---\n  Counter[0]: 0\n  Counter[1]: 1\n" ++ str "--------------------\n\n"
    ++ str "--- Snapshot #2 ---\n  Counter[0]: 2\n"

theorem counters_without_lock_two : ∃ s : State 2, s.printed = twoCountersText ∧
      (∀ k, s.counter k = s.increments k) ∧
      ∃ done taken, s.output = snapshots done ++ s.begun (done.length + 1) taken ∧
        (∀ values ∈ done, values.length = 2) ∧ taken.length = s.printer.lines ∧
        (done ++ [taken, s.values]).Pairwise Below := by
  obtain ⟨s, hs, hprinted⟩ : ∃ s : State 2, Reaches step (State.start 2) s ∧
      s.printed = twoCountersText :=
    exists_reaches twoCounters (fun s : State 2 => s.printed) (by decide +kernel)
  exact ⟨s, hprinted, counters_without_lock hs⟩

end ConcurrencyCrypto.CpuRuntime
