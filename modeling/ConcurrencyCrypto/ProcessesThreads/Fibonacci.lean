/-
  ConcurrencyCrypto.ProcessesThreads.Fibonacci
  ────────────────────────────────────────────
  **A FIBONACCI NUMBER FROM EACH CHILD.**

  `ProccessNTreads.c`: main forks `N - 1` children, one behind the other, and
  waits for each before it forks the next.  Child `i` goes on from main's own
  `c1` and `c2`, which are 0 and 1 for every child, so the children print the
  numbers from `F(N)` down to `F(2)`, and main prints `F(1)`.

    • `fibonacci_in_order` — in every run of all processes that is the output,
                             or its begin where a `fork` fails;
    • `fibonacci_ends`     — and every run ends, with all children reaped.

  The number `N` is a parameter.
-/
import ConcurrencyCrypto.Library.Households
import Mathlib.Data.Nat.Fib.Basic

namespace ConcurrencyCrypto.ProcessesThreads

open ConcurrencyCrypto.Library

/-! ## §1. The program. -/

/-- The head of main's loop, with its variables. -/
inductive Label where
  | loop (i : Nat) (c1 c2 : Int)
  deriving DecidableEq

/-- A value of type `int`. -/
abbrev IsInt (x : Int) : Prop := -2 ^ 31 ≤ x ∧ x < 2 ^ 31

/-- The child's loop: `t = c1 + c2; c1 = c2; c2 = t`, so many times.  It gives
the `c2` behind it, if no sum overflows. -/
def fibonacci : Nat → Int → Int → Option Int
  | 0, _, c2 => some c2
  | k + 1, c1, c2 => if IsInt (c1 + c2) then fibonacci k c2 (c1 + c2) else none

/-- What a child prints. -/
def termText (c2 : Int) : CString := decimal c2 ++ str " "

/-- What main prints at the end. -/
def finalText (c2 : Int) : CString := decimal c2 ++ str "\n"

def errorText : CString := str "Error creating process\n"

/-- `case 0`. -/
def childCode (N i : Nat) (c1 c2 : Int) : Code Label Empty :=
  match fibonacci (N - i) c1 c2 with
  | some c2 => .printf (termText c2) (.exit 0)
  | none => .undefined

def main (N : Nat) : Label → Code Label Empty
  | .loop i c1 c2 =>
      if i < N then
        .fork fun r =>
          if r = -1 then .printf errorText (.exit (-1))
          else if r = 0 then childCode N i c1 c2
          else .wait (.goto (.loop (i + 1) c1 c2))
      else .printf (finalText c2) (.exit 0)

def project (N : Nat) : Project Label Empty where
  code := main N
  load _ _ := none

/-- The program is started. -/
def start (stdin : List UInt8) : System Label Empty := System.start (.loop 1 0 1) stdin

/-! ## §2. What the children compute. -/

/-- From `F(m)` and `F(m + 1)` the loop goes `k` terms on. -/
theorem fibonacci_fib (k : Nat) : ∀ m, Nat.fib (m + k + 1) < 2 ^ 31 →
    fibonacci k (Nat.fib m) (Nat.fib (m + 1)) = some ((Nat.fib (m + k + 1) : Nat) : Int) := by
  induction k with
  | zero => exact fun m _ => rfl
  | succ k ih =>
      intro m hfit
      have hsum :
          ((Nat.fib m : Nat) : Int) + (Nat.fib (m + 1) : Nat) = (Nat.fib (m + 2) : Nat) := by
        rw [Nat.fib_add_two]
        omega
      have hle : Nat.fib (m + 2) ≤ Nat.fib (m + (k + 1) + 1) := Nat.fib_mono (by omega)
      have hint : IsInt (((Nat.fib m : Nat) : Int) + (Nat.fib (m + 1) : Nat)) := by
        rw [hsum]
        constructor <;> omega
      show (if IsInt _ then fibonacci k _ _ else none) = _
      rw [if_pos hint, hsum]
      have hnext := ih (m + 1) (by rw [show m + 1 + k + 1 = m + (k + 1) + 1 by omega]; exact hfit)
      rw [show m + 1 + k + 1 = m + (k + 1) + 1 by omega] at hnext
      exact hnext

/-- Child `f + 1` of `N` computes term `N - f`. -/
theorem childCode_eq {N f : Nat} (hf : f + 1 < N) (hfit : Nat.fib N < 2 ^ 31) :
    childCode N (f + 1) 0 1 = .printf (termText (Nat.fib (N - f) : Nat)) (.exit 0) := by
  have hterm : 0 + (N - (f + 1)) + 1 = N - f := by omega
  have hfib : Nat.fib (N - f) ≤ Nat.fib N := Nat.fib_mono (Nat.sub_le N f)
  have hrun := fibonacci_fib (N - (f + 1)) 0 (by rw [hterm]; omega)
  rw [hterm] at hrun
  unfold childCode
  rw [show fibonacci (N - (f + 1)) 0 1 = some ((Nat.fib (N - f) : Nat) : Int) from hrun]

/-! ## §3. Where the processes are. -/

/-- What is left of the round in which child `f + 1` was forked. -/
def round (N f : Nat) : List (Effect Empty) :=
  [.forked false, .printed (termText (Nat.fib (N - f) : Nat)), .waited]

/-- The trace of the first `f` rounds. -/
def rounds (N f : Nat) : List (Effect Empty) := (List.range f).flatMap (round N)

theorem rounds_succ (N f : Nat) : rounds N (f + 1) = rounds N f ++ round N f := by
  unfold rounds
  rw [List.range_succ, List.flatMap_append]
  simp

/-- Main behind a `fork`. -/
def waiting (f : Nat) : Code Label Empty := .wait (.goto (.loop (f + 1 + 1) 0 1))

/-- **Where the processes are**, the trace so far, and how many steps are left
at most. -/
inductive Position (N : Nat) (σ : System Label Empty) : Nat → Prop where
  | head (f : Nat) (hf : f < N)
      (hσ : σ.shape = household (.running (.goto (.loop (f + 1) 0 1))) f none)
      (he : σ.events = rounds N f) : Position N σ (5 * (N - 1 - f) + 3)
  | test (f : Nat) (hf : f < N)
      (hσ : σ.shape = household (.running (main N (.loop (f + 1) 0 1))) f none)
      (he : σ.events = rounds N f) : Position N σ (5 * (N - 1 - f) + 2)
  | child (f : Nat) (hf : f + 1 < N)
      (hσ : σ.shape = household (.running (waiting f)) f
        (some (.running (.printf (termText (Nat.fib (N - f) : Nat)) (.exit 0)))))
      (he : σ.events = rounds N f ++ [.forked false]) : Position N σ (5 * (N - 1 - f) + 1)
  | printed (f : Nat) (hf : f + 1 < N)
      (hσ : σ.shape = household (.running (waiting f)) f (some (.running (.exit 0))))
      (he : σ.events = rounds N f
        ++ [.forked false, .printed (termText (Nat.fib (N - f) : Nat))]) :
      Position N σ (5 * (N - 1 - f))
  | ended (f : Nat) (hf : f + 1 < N)
      (hσ : σ.shape = household (.running (waiting f)) f (some (.zombie 0)))
      (he : σ.events = rounds N f
        ++ [.forked false, .printed (termText (Nat.fib (N - f) : Nat))]) :
      Position N σ (5 * (N - 1 - f) - 1)
  | final (hσ : σ.shape = household (.running (.exit 0)) (N - 1) none)
      (he : σ.events = rounds N (N - 1) ++ [.printed (finalText 1)]) : Position N σ 1
  | returned (hσ : σ.shape = household (.zombie 0) (N - 1) none)
      (he : σ.events = rounds N (N - 1) ++ [.printed (finalText 1)]) : Position N σ 0
  | failed (f : Nat) (hf : f + 1 < N)
      (hσ : σ.shape = household (.running (.printf errorText (.exit (-1)))) f none)
      (he : σ.events = rounds N f ++ [.forked true]) : Position N σ 2
  | reported (f : Nat) (hf : f + 1 < N)
      (hσ : σ.shape = household (.running (.exit (-1))) f none)
      (he : σ.events = rounds N f ++ [.forked true, .printed errorText]) : Position N σ 1
  | aborted (f : Nat) (hf : f + 1 < N) (hσ : σ.shape = household (.zombie (-1)) f none)
      (he : σ.events = rounds N f ++ [.forked true, .printed errorText]) : Position N σ 0

section steps
variable {N : Nat} {σ σ' : System Label Empty}

theorem position_start (hN : 1 ≤ N) (stdin : List UInt8) :
    Position N (start stdin) (5 * (N - 1) + 3) := by
  refine .head 0 hN ?_ rfl
  funext p
  cases p with
  | nil => rfl
  | cons n rest =>
      have hnone : (start stdin).shape (n :: rest) = none := rfl
      rw [hnone]
      cases rest with
      | nil => rw [household_child, if_neg (Nat.not_lt_zero n)]; split <;> rfl
      | cons m rest => rfl

/-- What an action does to a position: a change of input nothing, and any other
one uses up a step. -/
def Goes (N n : Nat) (a : Act) (σ' : System Label Empty) : Prop :=
  (a.isInput = true ∧ Position N σ' n) ∨ ∃ m, m < n ∧ Position N σ' m

/-- Main at the test of its loop: one more round, or the end. -/
theorem goes_of_test {f : Nat} (hf : f < N) (hfit : Nat.fib N < 2 ^ 31)
    (hσ : σ.shape = household (.running (main N (.loop (f + 1) 0 1))) f none)
    (he : σ.events = rounds N f) {a : Act} (hstep : σ.step (project N) a = some σ') :
    Goes N (5 * (N - 1 - f) + 2) a σ' := by
  rcases household_alone hσ hstep with ⟨hinput, hshape, hevents⟩ | ⟨q, -, hforks, hacts⟩
  · exact Or.inl ⟨hinput, .test f hf (hshape.trans hσ) (hevents.trans he)⟩
  · by_cases hlt : f + 1 < N
    · have hcode : main N (.loop (f + 1) 0 1) = .fork fun r =>
          if r = -1 then .printf errorText (.exit (-1))
          else if r = 0 then childCode N (f + 1) 0 1 else waiting f := if_pos hlt
      rw [hcode] at hacts
      rcases household_fork hσ hforks hacts with ⟨hshape, hevents⟩ |
        ⟨answer, hanswer, hevents, hshape⟩
      · rw [he] at hevents
        exact Or.inr ⟨2, by omega, .failed f hlt hshape hevents⟩
      · rw [if_neg (by omega), if_neg (by omega), if_neg (by decide), if_pos rfl,
          childCode_eq hlt hfit] at hshape
        rw [he] at hevents
        exact Or.inr ⟨_, by omega, .child f hlt hshape hevents⟩
    · have hlast : f = N - 1 := by omega
      have hcode : main N (.loop (f + 1) 0 1) = .printf (finalText 1) (.exit 0) := if_neg hlt
      rw [hcode] at hacts
      obtain ⟨hshape, hevents⟩ := acts_printf hacts
      rw [hσ, hforks] at hshape
      rw [he, hlast] at hevents
      refine Or.inr ⟨1, by omega, .final ?_ hevents⟩
      rw [hshape, ← hlast]
      exact update_root _ _ f none

/-- **Every step of every process.** -/
theorem Position.next (hfit : Nat.fib N < 2 ^ 31) {n : Nat} (h : Position N σ n) {a : Act}
    (hstep : σ.step (project N) a = some σ') : Goes N n a σ' := by
  cases h with
  | head f hf hσ he =>
      rcases household_alone hσ hstep with ⟨hinput, hshape, hevents⟩ | ⟨q, -, hforks, hacts⟩
      · exact Or.inl ⟨hinput, .head f hf (hshape.trans hσ) (hevents.trans he)⟩
      · obtain ⟨hshape, hevents⟩ := acts_goto hacts
        rw [hσ, hforks] at hshape
        exact Or.inr ⟨_, Nat.lt_succ_self _,
          .test f hf (hshape.trans (update_root _ _ f none)) (hevents.trans he)⟩
  | test f hf hσ he => exact goes_of_test hf hfit hσ he hstep
  | child f hf hσ he =>
      rcases household_busy hσ nofun hstep with ⟨hinput, hshape, hevents⟩ | ⟨q, hp, hacts⟩ |
        ⟨q, code, -, hforks, hcode, hacts⟩
      · exact Or.inl ⟨hinput, .child f hf (hshape.trans hσ) (hevents.trans he)⟩
      · cases (household_wait hσ rfl hp hacts).1
      · injection hcode with hcode
        rw [← hcode] at hacts
        obtain ⟨hshape, hevents⟩ := acts_printf hacts
        rw [hσ, hforks, update_child] at hshape
        rw [he, List.append_assoc] at hevents
        exact Or.inr ⟨_, Nat.lt_succ_self _, .printed f hf hshape hevents⟩
  | printed f hf hσ he =>
      rcases household_busy hσ nofun hstep with ⟨hinput, hshape, hevents⟩ | ⟨q, hp, hacts⟩ |
        ⟨q, code, -, hforks, hcode, hacts⟩
      · exact Or.inl ⟨hinput, .printed f hf (hshape.trans hσ) (hevents.trans he)⟩
      · cases (household_wait hσ rfl hp hacts).1
      · injection hcode with hcode
        rw [← hcode] at hacts
        obtain ⟨hshape, hevents⟩ := acts_exit hacts
        rw [hσ, hforks, update_child] at hshape
        exact Or.inr ⟨_, by omega, .ended f hf hshape (hevents.trans he)⟩
  | ended f hf hσ he =>
      rcases household_busy hσ nofun hstep with ⟨hinput, hshape, hevents⟩ | ⟨q, hp, hacts⟩ |
        ⟨q, code, -, -, hcode, -⟩
      · exact Or.inl ⟨hinput, .ended f hf (hshape.trans hσ) (hevents.trans he)⟩
      · -- the round is over
        obtain ⟨-, hshape, hevents⟩ := household_wait hσ rfl hp hacts
        refine Or.inr ⟨5 * (N - 1 - (f + 1)) + 3, by omega, .head (f + 1) hf hshape ?_⟩
        rw [hevents, he, rounds_succ, List.append_assoc]
        rfl
      · cases hcode
  | final hσ he =>
      rcases household_alone hσ hstep with ⟨hinput, hshape, hevents⟩ | ⟨q, -, hforks, hacts⟩
      · exact Or.inl ⟨hinput, .final (hshape.trans hσ) (hevents.trans he)⟩
      · obtain ⟨hshape, hevents⟩ := acts_exit hacts
        rw [hσ, hforks] at hshape
        exact Or.inr ⟨0, Nat.one_pos,
          .returned (hshape.trans (update_root _ _ (N - 1) none)) (hevents.trans he)⟩
  | returned hσ he =>
      obtain ⟨hinput, hshape, hevents⟩ := household_over hσ hstep
      exact Or.inl ⟨hinput, .returned (hshape.trans hσ) (hevents.trans he)⟩
  | failed f hf hσ he =>
      rcases household_alone hσ hstep with ⟨hinput, hshape, hevents⟩ | ⟨q, -, hforks, hacts⟩
      · exact Or.inl ⟨hinput, .failed f hf (hshape.trans hσ) (hevents.trans he)⟩
      · obtain ⟨hshape, hevents⟩ := acts_printf hacts
        rw [hσ, hforks] at hshape
        rw [he, List.append_assoc] at hevents
        exact Or.inr ⟨1, Nat.lt_succ_self 1,
          .reported f hf (hshape.trans (update_root _ _ f none)) hevents⟩
  | reported f hf hσ he =>
      rcases household_alone hσ hstep with ⟨hinput, hshape, hevents⟩ | ⟨q, -, hforks, hacts⟩
      · exact Or.inl ⟨hinput, .reported f hf (hshape.trans hσ) (hevents.trans he)⟩
      · obtain ⟨hshape, hevents⟩ := acts_exit hacts
        rw [hσ, hforks] at hshape
        exact Or.inr ⟨0, Nat.one_pos,
          .aborted f hf (hshape.trans (update_root _ _ f none)) (hevents.trans he)⟩
  | aborted f hf hσ he =>
      obtain ⟨hinput, hshape, hevents⟩ := household_over hσ hstep
      exact Or.inl ⟨hinput, .aborted f hf (hshape.trans hσ) (hevents.trans he)⟩

theorem position_of_reaches (hN : 1 ≤ N) (hfit : Nat.fib N < 2 ^ 31) {stdin : List UInt8}
    (h : Reaches (System.step (project N)) (start stdin) σ) : ∃ n, Position N σ n := by
  refine h.invariant (I := fun σ => ∃ n, Position N σ n) ⟨_, position_start hN stdin⟩ ?_
  rintro σ a σ' ⟨n, hσ⟩ hstep
  rcases hσ.next hfit hstep with ⟨-, hnext⟩ | ⟨m, -, hnext⟩
  · exact ⟨n, hnext⟩
  · exact ⟨m, hnext⟩

/-- The steps that are left are used up. -/
theorem steps_le (hfit : Nat.fib N < 2 ^ 31) (as : List Act) : ∀ {σ : System Label Empty} {n : Nat},
    Position N σ n → runActions (System.step (project N)) σ as = some σ' →
      ∃ m, Position N σ' m ∧ as.countP (!·.isInput) + m ≤ n := by
  induction as with
  | nil =>
      intro σ n h hrun
      injection hrun with hrun
      rw [← hrun]
      exact ⟨n, h, by rw [List.countP_nil, Nat.zero_add]⟩
  | cons a as ih =>
      intro σ n h hrun
      obtain ⟨σ₁, hfirst, hrest⟩ := Option.bind_eq_some_iff.mp hrun
      rw [List.countP_cons]
      rcases h.next hfit hfirst with ⟨hinput, hnext⟩ | ⟨m, hlt, hnext⟩
      · obtain ⟨k, hk, hle⟩ := ih hnext hrest
        rw [if_neg (by rw [hinput]; decide)]
        exact ⟨k, hk, by omega⟩
      · obtain ⟨k, hk, hle⟩ := ih hnext hrest
        refine ⟨k, hk, ?_⟩
        split <;> omega

end steps

/-! ## §4. The output. -/

def said : Effect Empty → CString
  | .printed text => text
  | _ => []

/-- What all processes have printed. -/
def output (events : List (Effect Empty)) : CString := events.flatMap said

/-- The first `f` terms, from `F(N)` down. -/
def terms (N f : Nat) : CString :=
  (List.range f).flatMap fun n => termText (Nat.fib (N - n) : Nat)

section output
variable {N : Nat} {σ : System Label Empty}

theorem terms_succ (N f : Nat) :
    terms N (f + 1) = terms N f ++ termText (Nat.fib (N - f) : Nat) := by
  unfold terms
  rw [List.range_succ, List.flatMap_append]
  simp

theorem output_rounds (N f : Nat) : output (rounds N f) = terms N f := by
  induction f with
  | zero => rfl
  | succ f ih =>
      have hround : output (round N f) = termText (Nat.fib (N - f) : Nat) := by
        simp [output, round, said]
      have happend : output (rounds N f ++ round N f)
          = output (rounds N f) ++ output (round N f) := List.flatMap_append
      rw [rounds_succ, terms_succ, happend, ih, hround]

/-- The begin of a round, and what else is printed behind the rounds. -/
theorem output_of_events {f : Nat} {more : List (Effect Empty)}
    (he : σ.events = rounds N f ++ more) : output σ.events = terms N f ++ output more := by
  have happend : output (rounds N f ++ more) = output (rounds N f) ++ output more :=
    List.flatMap_append
  rw [he, happend, output_rounds]

theorem terms_begin {f g : Nat} (h : f ≤ g) : terms N f <+: terms N g := by
  induction g, h using Nat.le_induction with
  | base => exact List.prefix_refl _
  | succ g _ ih =>
      rw [terms_succ]
      exact ih.trans (List.prefix_append _ _)

/-- All terms, and the last line. -/
def wholeOutput (N : Nat) : CString := terms N (N - 1) ++ finalText 1

theorem terms_begin_whole {f : Nat} (h : f ≤ N - 1) : terms N f <+: wholeOutput N :=
  (terms_begin h).trans (List.prefix_append _ _)

/-- What a begun round has printed. -/
theorem output_begun (N f : Nat) :
    output [.forked false, .printed (termText (Nat.fib (N - f) : Nat))]
      = termText (Nat.fib (N - f) : Nat) := by
  simp [output, said]

theorem Position.output {n : Nat} (h : Position N σ n) :
    output σ.events <+: wholeOutput N ∨
      ∃ f, f + 1 < N ∧ output σ.events = terms N f ++ errorText := by
  cases h with
  | head f hf hσ he =>
      rw [he, output_rounds]
      exact Or.inl (terms_begin_whole (by omega))
  | test f hf hσ he =>
      rw [he, output_rounds]
      exact Or.inl (terms_begin_whole (by omega))
  | child f hf hσ he =>
      rw [output_of_events he]
      show terms N f ++ [] <+: _ ∨ _
      rw [List.append_nil]
      exact Or.inl (terms_begin_whole (by omega))
  | printed f hf hσ he =>
      rw [output_of_events he, output_begun, ← terms_succ]
      exact Or.inl (terms_begin_whole (by omega))
  | ended f hf hσ he =>
      rw [output_of_events he, output_begun, ← terms_succ]
      exact Or.inl (terms_begin_whole (by omega))
  | final hσ he =>
      rw [output_of_events he]
      exact Or.inl (by simp [ProcessesThreads.output, said, wholeOutput])
  | returned hσ he =>
      rw [output_of_events he]
      exact Or.inl (by simp [ProcessesThreads.output, said, wholeOutput])
  | failed f hf hσ he =>
      rw [output_of_events he]
      show terms N f ++ [] <+: _ ∨ _
      rw [List.append_nil]
      exact Or.inl (terms_begin_whole (by omega))
  | reported f hf hσ he =>
      exact Or.inr ⟨f, hf, by rw [output_of_events he]; simp [ProcessesThreads.output, said]⟩
  | aborted f hf hσ he =>
      exact Or.inr ⟨f, hf, by rw [output_of_events he]; simp [ProcessesThreads.output, said]⟩

/-- Main has ended. -/
theorem Position.over {n : Nat} (h : Position N σ n) {q : Process Label Empty} {status : Int}
    (hq : σ.process [] = some q) (hstatus : q.status = .zombie status) :
    (status = 0 ∧ ProcessesThreads.output σ.events = wholeOutput N) ∨
      (status = -1 ∧ ∃ f, f + 1 < N ∧
        ProcessesThreads.output σ.events = terms N f ++ errorText) := by
  have hroot := shape_eq hq
  rw [hstatus] at hroot
  have hst : ∀ {st : Status Label Empty} {f : Nat} {child : Option (Status Label Empty)},
      σ.shape = household st f child → st = .zombie status := by
    intro st f child hσ
    rw [hσ] at hroot
    injection hroot with hroot
    exact congrArg Prod.fst hroot
  cases h with
  | returned hσ he =>
      have heq := hst hσ
      injection heq with heq
      refine Or.inl ⟨heq.symm, ?_⟩
      rw [output_of_events he]
      simp [ProcessesThreads.output, said, wholeOutput]
  | aborted f hf hσ he =>
      have heq := hst hσ
      injection heq with heq
      exact Or.inr ⟨heq.symm, f, hf, by
        rw [output_of_events he]
        simp [ProcessesThreads.output, said]⟩
  | head f hf hσ he => cases hst hσ
  | test f hf hσ he => cases hst hσ
  | child f hf hσ he => cases hst hσ
  | printed f hf hσ he => cases hst hσ
  | ended f hf hσ he => cases hst hσ
  | final hσ he => cases hst hσ
  | failed f hf hσ he => cases hst hσ
  | reported f hf hσ he => cases hst hσ

/-- **THE NUMBERS COME IN ORDER.**  In every run of all processes, whatever
numbers the children have and however the steps interleave: the output so far
is the begin of `F(N) F(N - 1) … F(2) 1`, or a `fork` has failed and an error
stands behind some of the terms; when main has returned 0 all of it is there,
and when it has returned -1 the error is. -/
theorem fibonacci_in_order (hN : 1 ≤ N) (hfit : Nat.fib N < 2 ^ 31) {stdin : List UInt8}
    (h : Reaches (System.step (project N)) (start stdin) σ) :
    (output σ.events <+: wholeOutput N ∨
        ∃ f, f + 1 < N ∧ output σ.events = terms N f ++ errorText) ∧
      ∀ q status, σ.process [] = some q → q.status = .zombie status →
        (status = 0 ∧ output σ.events = wholeOutput N) ∨
          (status = -1 ∧ ∃ f, f + 1 < N ∧ output σ.events = terms N f ++ errorText) := by
  obtain ⟨n, hposition⟩ := position_of_reaches hN hfit h
  exact ⟨hposition.output, fun q status hq hstatus => hposition.over hq hstatus⟩

end output

/-- Two children, whose numbers are 7 and 9. -/
def twoChildren : List Act :=
  [.run [] 0, .run [] 7, .run [0] 0, .run [0] 0, .run [] 0,
    .run [] 0, .run [] 9, .run [1] 0, .run [1] 0, .run [] 1,
    .run [] 0, .run [] 0, .run [] 0]

theorem fibonacci_in_order_three : ∃ σ : System Label Empty, output σ.events = str "2 1 1\n" ∧
    (output σ.events <+: wholeOutput 3 ∨
        ∃ f, f + 1 < 3 ∧ output σ.events = terms 3 f ++ errorText) ∧
      ∀ q status, σ.process [] = some q → q.status = .zombie status →
        (status = 0 ∧ output σ.events = wholeOutput 3) ∨
          (status = -1 ∧ ∃ f, f + 1 < 3 ∧ output σ.events = terms 3 f ++ errorText) := by
  obtain ⟨σ, hσ, hout⟩ : ∃ σ, Reaches (System.step (project 3)) (start []) σ ∧
      output σ.events = str "2 1 1\n" :=
    exists_reaches twoChildren (fun σ : System Label Empty => output σ.events) (by decide +kernel)
  exact ⟨σ, hout, fibonacci_in_order (by decide) (by decide) hσ⟩

/-! ## §5. The end. -/

section ends
variable {N : Nat} {σ : System Label Empty}

/-- Main has ended, and so have its children, who are all reaped. -/
def Over (σ : System Label Empty) : Prop :=
  (∃ q status, σ.process [] = some q ∧ q.status = .zombie status) ∧
    ∀ p c, p ≠ [] → σ.process p = some c → c.status = .reaped

/-- Somebody can make a call. -/
def CanGo (N : Nat) (σ : System Label Empty) : Prop :=
  ∃ a, a.isInput = false ∧ Enabled (System.step (project N)) σ a

theorem over_of_zombie {status : Int} {f : Nat}
    (hσ : σ.shape = household (.zombie status) f none) : Over σ := by
  obtain ⟨q, hq, hstatus, -⟩ := exists_of_shape (p := []) (by rw [hσ]; rfl)
  exact ⟨⟨q, status, hq, hstatus⟩, fun p c hp hc => household_reaped hσ hp hc⟩

theorem canGo_root {code : Code Label Empty} {f : Nat} {child : Option (Status Label Empty)}
    (hσ : σ.shape = household (.running code) f child) (answer : Int)
    (hgo : ∀ q, ∃ σ', σ.advance (project N) [] q answer code = some σ') : CanGo N σ := by
  have hroot : σ.shape [] = some (.running code, f + child.toList.length) := by
    rw [hσ]
    rfl
  exact ⟨.run [] answer, rfl, enabled_of_shape answer hroot hgo⟩

theorem canGo_child {st : Status Label Empty} {code : Code Label Empty} {f : Nat}
    (hσ : σ.shape = household st f (some (.running code))) (answer : Int)
    (hgo : ∀ q, ∃ σ', σ.advance (project N) [f] q answer code = some σ') : CanGo N σ := by
  have hchild : σ.shape [f] = some (.running code, 0) := by
    rw [hσ, household_child, if_neg (Nat.lt_irrefl f), if_pos rfl]
    rfl
  exact ⟨.run [f] answer, rfl, enabled_of_shape answer hchild hgo⟩

theorem Position.goes {n : Nat} (h : Position N σ n) : Over σ ∨ CanGo N σ := by
  cases h with
  | head f hf hσ he => exact Or.inr (canGo_root hσ 0 fun q => ⟨_, rfl⟩)
  | test f hf hσ he =>
      refine Or.inr (canGo_root hσ 1 fun q => ?_)
      by_cases hlt : f + 1 < N
      · have hcode : main N (.loop (f + 1) 0 1) = .fork fun r =>
            if r = -1 then .printf errorText (.exit (-1))
            else if r = 0 then childCode N (f + 1) 0 1 else waiting f := if_pos hlt
        rw [hcode]
        simp only [System.advance, if_pos Int.one_pos]
        exact ⟨_, rfl⟩
      · have hcode : main N (.loop (f + 1) 0 1) = .printf (finalText 1) (.exit 0) := if_neg hlt
        rw [hcode]
        exact ⟨_, rfl⟩
  | child f hf hσ he => exact Or.inr (canGo_child hσ 0 fun q => ⟨_, rfl⟩)
  | printed f hf hσ he => exact Or.inr (canGo_child hσ 0 fun q => ⟨_, rfl⟩)
  | ended f hf hσ he => exact Or.inr ⟨_, rfl, enabled_wait hσ rfl⟩
  | final hσ he => exact Or.inr (canGo_root hσ 0 fun q => ⟨_, rfl⟩)
  | returned hσ he => exact Or.inl (over_of_zombie hσ)
  | failed f hf hσ he => exact Or.inr (canGo_root hσ 0 fun q => ⟨_, rfl⟩)
  | reported f hf hσ he => exact Or.inr (canGo_root hσ 0 fun q => ⟨_, rfl⟩)
  | aborted f hf hσ he => exact Or.inl (over_of_zombie hσ)

/-- **EVERY RUN ENDS**, with main returned and each child waited for: until then
there is a process that can make a call, and all processes together make at
most five calls for each round and three more. -/
theorem fibonacci_ends (hN : 1 ≤ N) (hfit : Nat.fib N < 2 ^ 31) (stdin : List UInt8) :
    (∀ σ, Reaches (System.step (project N)) (start stdin) σ → Over σ ∨ CanGo N σ) ∧
      ∀ as σ, runActions (System.step (project N)) (start stdin) as = some σ →
        as.countP (!·.isInput) ≤ 5 * (N - 1) + 3 := by
  constructor
  · intro σ h
    obtain ⟨n, hposition⟩ := position_of_reaches hN hfit h
    exact hposition.goes
  · intro as σ h
    obtain ⟨m, -, hle⟩ := steps_le hfit as (position_start hN stdin) h
    omega

end ends

/-- The ten of the program. -/
theorem fibonacci_ends_ten :
    (∀ σ, Reaches (System.step (project 10)) (start []) σ → Over σ ∨ CanGo 10 σ) ∧
      ∀ as σ, runActions (System.step (project 10)) (start []) as = some σ →
        as.countP (!·.isInput) ≤ 5 * (10 - 1) + 3 :=
  fibonacci_ends (by decide) (by decide) []

end ConcurrencyCrypto.ProcessesThreads
