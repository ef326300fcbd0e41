/-
  ConcurrencyCrypto.Library.Reaping
  ─────────────────────────────────
  **SHELLS THAT WAIT FOR THEIR CHILDREN.**

  A shell is a loop that prints a prompt.  Some labels are its own; the rest
  are those of its children.  `Disciplined code n` follows the code of the
  shell with the number `n` of children that are left: prompt and loop are
  reached with none, whichever way every call ends.  `ChildSafe code` says
  that a child keeps out of the loop of the shell.

  Both only read the code, and the theorem carries them over to all runs:

    • `clean_of_disciplined` — at the prompt no child is left, and no other
                               process enters the loop.
-/
import ConcurrencyCrypto.Library.Processes

namespace ConcurrencyCrypto.Library

variable {L C : Type}

/-! ## §1. The two checks. -/

/-- A child that never prints the prompt nor enters the loop of the shell. -/
def ChildSafe (prompt : CString) (own : L → Prop) : Code L C → Prop
  | .printf text next => text ≠ prompt ∧ ChildSafe prompt own next
  | .perror _ next => ChildSafe prompt own next
  | .scanf _ _ next => ∀ r ws, ChildSafe prompt own (next r ws)
  | .fgets _ next => ∀ line, ChildSafe prompt own (next line)
  | .call _ next => ∀ r, ChildSafe prompt own (next r)
  | .fork next => ∀ r, ChildSafe prompt own (next r)
  | .wait next => ChildSafe prompt own next
  | .execl _ _ failed => ChildSafe prompt own failed
  | .goto l => ¬ own l
  | .exit _ => True
  | .undefined => True

/-- A shell with `n` children that reaches the prompt and its loop with
none. -/
def Disciplined (prompt : CString) (own : L → Prop) : Code L C → Nat → Prop
  | .printf text next, n => (text = prompt → n = 0) ∧ Disciplined prompt own next n
  | .perror _ next, n => Disciplined prompt own next n
  | .scanf _ _ next, n => ∀ r ws, Disciplined prompt own (next r ws) n
  | .fgets _ next, n => ∀ line, Disciplined prompt own (next line) n
  | .call _ next, n => ∀ r, Disciplined prompt own (next r) n
  | .fork next, n =>
      Disciplined prompt own (next (-1)) n ∧ ChildSafe prompt own (next 0) ∧
        ∀ pid, 0 < pid → Disciplined prompt own (next pid) (n + 1)
  | .wait next, n => Disciplined prompt own next (n - 1)
  | .execl _ _ failed, n => Disciplined prompt own failed n
  | .goto l, n => own l ∧ n = 0
  | .exit _, _ => True
  | .undefined, _ => True

/-- What is seen of a shell that waits for its children. -/
structure Clean (prompt : CString) (own : L → Prop) (t : Table L C) : Prop where
  /-- When the shell prints its prompt, all its children have been waited
  for. -/
  noChild : ∀ q next, t [] = some q → q.status = .running (.printf prompt next) →
    ∀ n c, t [n] = some c → c.status.isReaped = true
  /-- No other process prints the prompt or is in the loop. -/
  noSecondLoop : ∀ p q, p ≠ [] → t p = some q →
    (∀ next, q.status ≠ .running (.printf prompt next)) ∧
      ∀ l, own l → q.status ≠ .running (.goto l)

/-! ## §2. One step of the code. -/

section steps
variable {P : Project L C} {prompt : CString} {own : L → Prop} {failed : Bool}

theorem ChildSafe.move (hload : ∀ path argv, P.load path argv = none)
    (hchild : ∀ l, ¬ own l → ChildSafe prompt own (P.code l)) {code code' : Code L C}
    (h : Move P failed (.running code) (.running code')) (hsafe : ChildSafe prompt own code) :
    ChildSafe prompt own code' := by
  cases h with
  | printf text next => exact hsafe.2
  | perror text next => exact hsafe
  | scanf capacity n next r ws => exact hsafe r ws
  | fgets size next got => exact hsafe got
  | call c next r => exact hsafe r
  | forkFails next => exact hsafe (-1)
  | execFails path argv failed => exact hsafe
  | exec path argv failed l h => exact absurd h (by rw [hload]; simp)
  | goto l => exact hchild l hsafe
  | input st => exact hsafe

theorem Disciplined.move (hload : ∀ path argv, P.load path argv = none)
    (hown : ∀ l, own l → Disciplined prompt own (P.code l) 0) {code code' : Code L C}
    (h : Move P failed (.running code) (.running code')) {n : Nat}
    (hdisc : Disciplined prompt own code n) : Disciplined prompt own code' n := by
  cases h with
  | printf text next => exact hdisc.2
  | perror text next => exact hdisc
  | scanf capacity n next r ws => exact hdisc r ws
  | fgets size next got => exact hdisc got
  | call c next r => exact hdisc r
  | forkFails next => exact hdisc.1
  | execFails path argv failed => exact hdisc
  | exec path argv failed l h => exact absurd h (by rw [hload]; simp)
  | goto l =>
      obtain ⟨hl, rfl⟩ := hdisc
      exact hown l hl
  | input st => exact hdisc

/-! ## §3. All runs. -/

/-- Only a process that runs can be seen running afterwards. -/
theorem Move.of_running {st : Status L C} {code : Code L C} (h : Move P failed st (.running code)) :
    ∃ code₀, st = .running code₀ := by
  cases h with
  | _ => exact ⟨_, rfl⟩

/-- The check that the code of process `p` has to pass when `n` of its
children are left. -/
def Follows (prompt : CString) (own : L → Prop) (p : Pid) (n : Nat) (code : Code L C) : Prop :=
  if p = [] then Disciplined prompt own code n else ChildSafe prompt own code

theorem Follows.move (hload : ∀ path argv, P.load path argv = none)
    (hown : ∀ l, own l → Disciplined prompt own (P.code l) 0)
    (hchild : ∀ l, ¬ own l → ChildSafe prompt own (P.code l)) {code code' : Code L C}
    (h : Move P failed (.running code) (.running code')) {p : Pid} {n : Nat}
    (hf : Follows prompt own p n code) : Follows prompt own p n code' := by
  unfold Follows at hf ⊢
  by_cases hp : p = []
  · rw [if_pos hp] at hf ⊢
    exact hf.move hload hown h
  · rw [if_neg hp] at hf ⊢
    exact hf.move hload hchild h

theorem Follows.wait {p : Pid} {n : Nat} {next : Code L C}
    (hf : Follows prompt own p n (.wait next)) : Follows prompt own p (n - 1) next := hf

theorem Follows.fork {p : Pid} {n : Nat} {next : Int → Code L C}
    (hf : Follows prompt own p n (.fork next)) {answer : Int} (hanswer : 0 < answer) :
    Follows prompt own p (n + 1) (next answer) ∧ ChildSafe prompt own (next 0) := by
  unfold Follows at hf ⊢
  by_cases hp : p = []
  · rw [if_pos hp] at hf ⊢
    exact ⟨hf.2.2 answer hanswer, hf.2.1⟩
  · rw [if_neg hp] at hf ⊢
    exact ⟨hf answer, hf 0⟩

/-- What every action keeps. -/
structure Watched (prompt : CString) (own : L → Prop) (t : Table L C) : Prop where
  family : t.Family
  follows : ∀ p q code, t p = some q → q.status = .running code →
    Follows prompt own p (t.left p).card code

/-- One process moves on in its code, and the rest is as before. -/
theorem Watched.set {t : Table L C} (hw : Watched prompt own t) {p : Pid} {q : Process L C}
    (hp : t p = some q) {st : Status L C} (hst : st.isReaped = q.status.isReaped)
    (hcode : ∀ code, st = .running code → Follows prompt own p (t.left p).card code)
    (stdin : List UInt8) : Watched prompt own (t.set p ⟨st, stdin, q.forks⟩) := by
  refine ⟨by rw [Table.Family, Table.forks_set_same hp]; exact hw.family, ?_⟩
  intro p' q' code hq' hrun
  rw [Table.left_congr (Table.forks_set_same hp) (Table.reaped_set_same hp hst)]
  by_cases heq : p' = p
  · subst heq
    rw [Table.set_self] at hq'
    cases hq'
    exact hcode code hrun
  · rw [Table.set_ne heq] at hq'
    exact hw.follows p' q' code hq' hrun

/-- **EVERY ACTION KEEPS IT.** -/
theorem Watched.change (hload : ∀ path argv, P.load path argv = none)
    (hown : ∀ l, own l → Disciplined prompt own (P.code l) 0)
    (hchild : ∀ l, ¬ own l → ChildSafe prompt own (P.code l)) {t t' : Table L C}
    (hw : Watched prompt own t) (h : Change P t failed t') : Watched prompt own t' := by
  have hfam := hw.family.change h
  cases h with
  | move failed p q st stdin hp hst =>
      refine hw.set hp hst.isReaped_eq ?_ stdin
      rintro code rfl
      obtain ⟨code₀, hcode₀⟩ := hst.of_running
      rw [hcode₀] at hst
      exact (hw.follows p q code₀ hp hcode₀).move hload hown hchild hst
  | noChild p q next hp hst hnone =>
      refine hw.set hp (by rw [hst]; rfl) ?_ q.stdin
      rintro code ⟨⟩
      have hwait := (hw.follows p q _ hp hst).wait
      rw [Table.left_of_childless hp hnone] at hwait ⊢
      exact hwait
  | fork p q next answer hp hst hanswer =>
      obtain ⟨hparent, hnew⟩ := (hw.follows p q _ hp hst).fork hanswer
      refine ⟨hfam, ?_⟩
      intro p' q' code hq' hrun
      by_cases hchildp : p' = q.forks :: p
      · -- the new process
        subst hchildp
        rw [Table.set_self] at hq'
        cases hq'
        cases hrun
        rw [Follows, if_neg (List.cons_ne_nil _ _)]
        exact hnew
      · rw [Table.set_ne hchildp] at hq'
        by_cases heq : p' = p
        · subst heq
          rw [Table.set_self] at hq'
          cases hq'
          cases hrun
          rw [Table.left_fork hp (by rw [hst]; rfl) rfl]
          exact hparent
        · rw [Table.set_ne heq] at hq'
          rw [Table.left_fork_ne hw.family hp (by rw [hst]; rfl) heq]
          exact hw.follows p' q' code hq' hrun
  | reap p q next n c hp hst hc hzombie =>
      have hleft : c.status.isReaped = false := by
        cases hstatus : c.status with
        | zombie status => rfl
        | _ => rw [hstatus] at hzombie; exact absurd hzombie (by simp [Status.isZombie])
      refine ⟨hfam, ?_⟩
      intro p' q' code hq' hrun
      by_cases hchildp : p' = n :: p
      · subst hchildp
        rw [Table.set_self] at hq'
        cases hq'
        exact absurd hrun (by simp)
      · rw [Table.set_ne hchildp] at hq'
        by_cases heq : p' = p
        · subst heq
          rw [Table.set_self] at hq'
          cases hq'
          cases hrun
          rw [Table.left_reap hw.family hp hc hleft (by rw [hst]; rfl)]
          exact (hw.follows p' q _ hp hst).wait
        · rw [Table.set_ne heq] at hq'
          rw [Table.left_reap_ne hp hc (by rw [hst]; rfl) heq]
          exact hw.follows p' q' code hq' hrun

/-- At first there is the shell alone. -/
theorem Watched.start {l : L} (hl : own l) (stdin : List UInt8) :
    Watched prompt own (System.start l stdin : System L C).process := by
  refine ⟨Table.Family.start l stdin, ?_⟩
  intro p q code hp hrun
  by_cases hroot : p = []
  · subst hroot
    rw [Table.start_root] at hp
    cases hp
    cases hrun
    rw [Follows, if_pos rfl]
    exact ⟨hl, Finset.card_eq_zero.mpr (Table.left_of_forks_zero (Table.start_root l stdin) rfl)⟩
  · rw [Table.start_of_ne hroot] at hp
    cases hp

/-- What the invariant says at the prompt. -/
theorem Watched.clean {t : Table L C} (hw : Watched prompt own t) : Clean prompt own t := by
  constructor
  · intro q next hq hprompt n c hc
    have hf := hw.follows [] q _ hq hprompt
    rw [Follows, if_pos rfl] at hf
    have hnone : n ∉ t.left [] := by
      rw [Finset.card_eq_zero.mp (hf.1 rfl)]
      exact Finset.notMem_empty n
    rw [Table.mem_left, Table.forks_eq hq, Table.reaped_eq hc] at hnone
    by_contra hleft
    exact hnone ⟨hw.family.lt hq hc, Bool.eq_false_iff.mpr hleft⟩
  · intro p q hp hq
    constructor
    · intro next hrun
      have hf := hw.follows p q _ hq hrun
      rw [Follows, if_neg hp] at hf
      exact hf.1 rfl
    · intro l hl hrun
      have hf := hw.follows p q _ hq hrun
      rw [Follows, if_neg hp] at hf
      exact hf hl

/-- **A SHELL WHOSE CODE PASSES THE CHECKS WAITS FOR ITS CHILDREN**, on every
input and whatever fails. -/
theorem clean_of_disciplined (hload : ∀ path argv, P.load path argv = none)
    (hown : ∀ l, own l → Disciplined prompt own (P.code l) 0)
    (hchild : ∀ l, ¬ own l → ChildSafe prompt own (P.code l)) {l : L} (hl : own l)
    {stdin : List UInt8} {s : System L C}
    (h : Reaches (System.step P) (System.start l stdin) s) : Clean prompt own s.process := by
  refine Watched.clean (Reaches.invariant (I := fun s => Watched prompt own s.process) h
    (Watched.start hl stdin) ?_)
  intro s a s' hw hstep
  exact hw.change hload hown hchild (System.step_cases hstep)

end steps

end ConcurrencyCrypto.Library
