/-
  ConcurrencyCrypto.CpuRuntime.Machine
  ────────────────────────────────────
  `CPUruntime.c`: each of `N` threads increments a counter of its own for
  ever, one more prints all of them every two seconds, and after twenty
  seconds main frees the counters and returns.  Nothing is locked.

  A step is one load or store of a `long`, one `printf`, the print thread's
  copy of its argument, or one call of main.  A run ends with the process, or
  with a step that C does not define; a load and a store of one `long` that
  nothing orders are taken one after the other.
-/
import ConcurrencyCrypto.Library.Text
import ConcurrencyCrypto.Library.Transition

namespace ConcurrencyCrypto.CpuRuntime

open ConcurrencyCrypto.Library

/-! ## §1. The program. -/

def LONG_MAX : Int := 2 ^ 63 - 1

def INT_MAX : Int := 2 ^ 31 - 1

/-- What main makes of its arguments. -/
inductive Setup where
  | returned (code : Int) (printed : CString)
  /-- `perror` was called with this, and 1 returned. -/
  | perror (s : CString)
  /-- `arg.size + 1` is no `int`. -/
  | undefined
  /-- That many counters are allocated. -/
  | runs (size : Nat)
  deriving DecidableEq

/-- main as far as its `calloc`, which `allocated` says to succeed. -/
def setup (argv : List CString) (allocated : Bool) : Setup :=
  match argv with
  | _ :: n :: _ =>
      if atoi n < 1 then .returned 1 (str "The N size is abnormal!\n")
      else if atoi n = INT_MAX then .undefined
      else if allocated then .runs (atoi n).toNat
      else .perror (str "calloc")
  | _ => .returned 1 (str "Usage: " ++ argv.headD (str "(null)") ++ str " <N>\n")

/-- What the print thread prints. -/
inductive Line where
  | header (print_count : Int)
  | counter (i : Nat) (value : Int)
  | footer
  deriving DecidableEq

/-- The text of a line. -/
def Line.text : Line → CString
  | .header print_count => str "--- Snapshot #" ++ decimal print_count ++ str " ---\n"
  | .counter i value => str "  Counter[" ++ decimal i ++ str "]: " ++ decimal value ++ str "\n"
  | .footer => str "--------------------\n\n"

/-- Where main is. -/
inductive MainPc where
  /-- Before `pthread_create(&threads[i], …)`. -/
  | create (i : Nat)
  | sleep
  | free (code : Int)
  /-- The counters are freed; `return 0` or `exit(EXIT_FAILURE)` is next. -/
  | exit (code : Int)
  /-- main has returned 0, its `arg` is no more, and the process still runs. -/
  | unwound
  | returned (code : Int)
  deriving DecidableEq

/-- Where `counterPromotion` is. -/
inductive CounterPc where
  | unborn
  | load
  /-- `value` was loaded. -/
  | store (value : Int)
  deriving DecidableEq

/-- Where `printThreads` is. -/
inductive PrinterPc where
  | unborn
  /-- `CountersArgs counter_arg = *(CountersArgs*)arg`. -/
  | copy
  | header
  | line (i : Nat)
  deriving DecidableEq

/-- What ends a run. -/
inductive Fault where
  | useAfterFree
  /-- The `arg` of main is read after main has returned. -/
  | deadFrame
  | overflow
  deriving DecidableEq

structure State (size : Nat) where
  main : MainPc
  /-- `counters` is allocated. -/
  live : Bool
  counter : Fin size → Int
  thread : Fin size → CounterPc
  printer : PrinterPc
  print_count : Int
  output : List Line
  /-- The arguments of `perror`. -/
  perrors : List CString
  fault : Option Fault
  /-- A history variable: the increments that each thread has completed. -/
  increments : Fin size → Nat

def State.start (size : Nat) : State size where
  main := .create 0
  live := true
  counter _ := 0
  thread _ := .unborn
  printer := .unborn
  print_count := 0
  output := []
  perrors := []
  fault := none
  increments _ := 0

/-- Who steps; `pthread_create` may fail. -/
inductive Action (size : Nat) where
  | main (created : Bool)
  | count (k : Fin size)
  | print

variable {size : Nat}

def State.faults (s : State size) (fault : Fault) : State size := { s with fault := some fault }

def State.mainStep (s : State size) (created : Bool) : Option (State size) :=
  match s.main with
  | .create i =>
      if created then
        if h : i < size then
          some { s with thread := Function.update s.thread ⟨i, h⟩ .load, main := .create (i + 1) }
        else some { s with printer := .copy, main := .sleep }
      else some { s with
        perrors := s.perrors ++ [str "Failed to create thread"]
        main := .free 1 }
  | .sleep => some { s with main := .free 0 }
  | .free code => some { s with live := false, main := .exit code }
  -- exit(EXIT_FAILURE) does not return from main
  | .exit code => if code = 0 then some { s with main := .unwound }
      else some { s with main := .returned code }
  | .unwound => some { s with main := .returned 0 }
  | .returned _ => none

/-- `*(long int*)arg += 1`. -/
def State.countStep (s : State size) (k : Fin size) : Option (State size) :=
  match s.thread k with
  | .unborn => none
  | .load =>
      if s.live then some { s with thread := Function.update s.thread k (.store (s.counter k)) }
      else some (s.faults .useAfterFree)
  | .store value =>
      if LONG_MAX ≤ value then some (s.faults .overflow)
      else if s.live then
        some { s with
          counter := Function.update s.counter k (value + 1)
          increments := Function.update s.increments k (s.increments k + 1)
          thread := Function.update s.thread k .load }
      else some (s.faults .useAfterFree)

/-- The copy or one `printf` of `printThreads`. -/
def State.printStep (s : State size) : Option (State size) :=
  match s.printer with
  | .unborn => none
  | .copy =>
      if s.main = .unwound then some (s.faults .deadFrame)
      else some { s with printer := .header }
  | .header =>
      if INT_MAX ≤ s.print_count then some (s.faults .overflow)
      else some { s with
        print_count := s.print_count + 1
        output := s.output ++ [.header (s.print_count + 1)]
        printer := .line 0 }
  | .line i =>
      if h : i < size then
        if s.live then
          some { s with
            output := s.output ++ [.counter i (s.counter ⟨i, h⟩)]
            printer := .line (i + 1) }
        else some (s.faults .useAfterFree)
      -- sleep(2), and the next snapshot
      else some { s with output := s.output ++ [.footer], printer := .header }

def State.act (s : State size) : Action size → Option (State size)
  | .main created => s.mainStep created
  | .count k => s.countStep k
  | .print => s.printStep

/-- One step, until the process ends or its behaviour is undefined. -/
def step (s : State size) (a : Action size) : Option (State size) :=
  if s.fault ≠ none then none
  else
    match s.main with
    | .returned _ => none
    | _ => s.act a

/-- The text printed so far. -/
def State.printed (s : State size) : CString := s.output.flatMap Line.text

/-- A state of some run with that many counters. -/
def Reachable (s : State size) : Prop := Reaches step (State.start size) s

/-- Main has not freed the counters. -/
def MainPc.holds : MainPc → Bool
  | .exit _ | .unwound | .returned _ => false
  | _ => true

/-! ## §2. What a step does. -/

section steps
variable {s s' : State size}

/-- The ways in which main steps. -/
inductive MainEffect (s s' : State size) : Prop where
  | created (k : Fin size) (hmain : s.main = .create k.val)
      (hs' : s' = { s with
        thread := Function.update s.thread k .load
        main := .create (k.val + 1) })
  | printer (hmain : ∃ i, s.main = .create i)
      (hs' : s' = { s with
        printer := .copy
        main := .sleep })
  | failed (hmain : ∃ i, s.main = .create i) (perrors : List CString)
      (hs' : s' = { s with
        perrors := perrors
        main := .free 1 })
  | awake (hmain : s.main = .sleep) (hs' : s' = { s with main := .free 0 })
  | frees (code : Int) (hmain : s.main = .free code)
      (hs' : s' = { s with
        live := false
        main := .exit code })
  | unwinds (code : Int) (hmain : s.main = .exit code) (hs' : s' = { s with main := .unwound })
  | exits (hmain : s.main.holds = false) (code : Int)
      (hs' : s' = { s with main := .returned code })

theorem mainStep_effect {created : Bool} (h : s.mainStep created = some s') :
    MainEffect s s' := by
  unfold State.mainStep at h
  split at h
  next i hmain =>
    split at h
    · split at h
      next hi =>
        injection h with h
        exact .created ⟨i, hi⟩ hmain h.symm
      next =>
        injection h with h
        exact .printer ⟨i, hmain⟩ h.symm
    · injection h with h
      exact .failed ⟨i, hmain⟩ _ h.symm
  next hmain =>
    injection h with h
    exact .awake hmain h.symm
  next code hmain =>
    injection h with h
    exact .frees code hmain h.symm
  next code hmain =>
    split at h
    · injection h with h
      exact .unwinds code hmain h.symm
    · injection h with h
      exact .exits (by rw [hmain]; rfl) code h.symm
  next hmain =>
    injection h with h
    exact .exits (by rw [hmain]; rfl) 0 h.symm
  next => cases h

/-- The ways in which a counting thread steps. -/
inductive CountEffect (s s' : State size) (k : Fin size) : Prop where
  | load (hpc : s.thread k = .load) (hlive : s.live = true)
      (hs' : s' = { s with thread := Function.update s.thread k (.store (s.counter k)) })
  | store (value : Int) (hpc : s.thread k = .store value) (hlive : s.live = true)
      (hmax : value < LONG_MAX)
      (hs' : s' = { s with
        counter := Function.update s.counter k (value + 1)
        increments := Function.update s.increments k (s.increments k + 1)
        thread := Function.update s.thread k .load })
  | freed (hborn : s.thread k ≠ .unborn) (hlive : s.live = false)
      (hs' : s' = s.faults .useAfterFree)
  | overflow (value : Int) (hpc : s.thread k = .store value) (hmax : LONG_MAX ≤ value)
      (hs' : s' = s.faults .overflow)

theorem countStep_effect {k : Fin size} (h : s.countStep k = some s') : CountEffect s s' k := by
  unfold State.countStep at h
  split at h
  next => cases h
  next hpc =>
    split at h
    next hlive =>
      injection h with h
      exact .load hpc hlive h.symm
    next hlive =>
      injection h with h
      exact .freed (by rw [hpc]; exact nofun) (Bool.eq_false_iff.mpr hlive) h.symm
  next value hpc =>
    split at h
    next hmax =>
      injection h with h
      exact .overflow value hpc hmax h.symm
    next hmax =>
      split at h
      next hlive =>
        injection h with h
        exact .store value hpc hlive (Int.not_le.mp hmax) h.symm
      next hlive =>
        injection h with h
        exact .freed (by rw [hpc]; exact nofun) (Bool.eq_false_iff.mpr hlive) h.symm

/-- The ways in which the print thread steps. -/
inductive PrintEffect (s s' : State size) : Prop where
  | copy (hpc : s.printer = .copy) (hs' : s' = { s with printer := .header })
  | dead (hpc : s.printer = .copy) (hmain : s.main = .unwound) (hs' : s' = s.faults .deadFrame)
  | header (hpc : s.printer = .header) (hmax : s.print_count < INT_MAX)
      (hs' : s' = { s with
        print_count := s.print_count + 1
        output := s.output ++ [.header (s.print_count + 1)]
        printer := .line 0 })
  | line (i : Fin size) (hpc : s.printer = .line i.val) (hlive : s.live = true)
      (hs' : s' = { s with
        output := s.output ++ [.counter i.val (s.counter i)]
        printer := .line (i.val + 1) })
  | footer (i : Nat) (hpc : s.printer = .line i) (hi : size ≤ i)
      (hs' : s' = { s with
        output := s.output ++ [.footer]
        printer := .header })
  | freed (hlive : s.live = false) (hs' : s' = s.faults .useAfterFree)
  | overflow (hmax : INT_MAX ≤ s.print_count) (hs' : s' = s.faults .overflow)

theorem printStep_effect (h : s.printStep = some s') : PrintEffect s s' := by
  unfold State.printStep at h
  split at h
  next => cases h
  next hpc =>
    split at h
    next hmain =>
      injection h with h
      exact .dead hpc hmain h.symm
    next =>
      injection h with h
      exact .copy hpc h.symm
  next hpc =>
    split at h
    next hmax =>
      injection h with h
      exact .overflow hmax h.symm
    next hmax =>
      injection h with h
      exact .header hpc (Int.not_le.mp hmax) h.symm
  next i hpc =>
    split at h
    next hi =>
      split at h
      next hlive =>
        injection h with h
        exact .line ⟨i, hi⟩ hpc hlive h.symm
      next hlive =>
        injection h with h
        exact .freed (Bool.eq_false_iff.mpr hlive) h.symm
    next hi =>
      injection h with h
      exact .footer i hpc (Nat.le_of_not_lt hi) h.symm

theorem step_eq {a : Action size} (hfault : s.fault = none)
    (hmain : ∀ code, s.main ≠ .returned code) : step s a = s.act a := by
  unfold step
  rw [if_neg (not_not.mpr hfault)]
  cases hpc : s.main with
  | returned code => exact absurd hpc (hmain code)
  | _ => rfl

theorem step_running {a : Action size} (h : step s a = some s') :
    s.fault = none ∧ (∀ code, s.main ≠ .returned code) ∧ s.act a = some s' := by
  unfold step at h
  split at h
  · cases h
  next hfault =>
    refine ⟨not_not.mp hfault, ?_⟩
    split at h
    · cases h
    next hmain => exact ⟨hmain, h⟩

theorem step_effect {a : Action size} (h : step s a = some s') :
    MainEffect s s' ∨ (∃ k, CountEffect s s' k) ∨ PrintEffect s s' := by
  obtain ⟨-, -, hact⟩ := step_running h
  cases a with
  | main created => exact Or.inl (mainStep_effect hact)
  | count k => exact Or.inr (Or.inl ⟨k, countStep_effect hact⟩)
  | print => exact Or.inr (Or.inr (printStep_effect hact))

end steps

end ConcurrencyCrypto.CpuRuntime
