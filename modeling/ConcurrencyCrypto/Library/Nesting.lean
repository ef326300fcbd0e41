/-
  ConcurrencyCrypto.Library.Nesting
  ─────────────────────────────────
  **PROGRAMS THAT WAIT FOR EACH CHILD AT ONCE, NESTED TO ANY DEPTH.**

  A process that does nothing but wait while it has a child, whose child is
  such a process again: at any time one process is active, its ancestors wait,
  each for the next one, and everybody else has been waited for.

    • `WaitsAtOnce`       — the check, which only reads the code,
    • `OneActive.change`  — what it gives is kept by every action,
    • `OneActive.actor`   — who may take a step: the active process, or its
                            parent when it has ended,
    • `OneActive.enabled` — somebody can, until the first process has ended.
-/
import ConcurrencyCrypto.Library.Households
import ConcurrencyCrypto.Library.ProcessTrees

namespace ConcurrencyCrypto.Library

variable {L C : Type}

/-! ## §1. The check. -/

/-- The next call is `wait`. -/
def Code.IsWait : Code L C → Prop
  | .wait _ => True
  | _ => False

/-- Behind each `fork` that succeeds the parent calls `wait`. -/
def WaitsAtOnce : Code L C → Prop
  | .printf _ next => WaitsAtOnce next
  | .perror _ next => WaitsAtOnce next
  | .scanf _ _ next => ∀ r ws, WaitsAtOnce (next r ws)
  | .fgets _ next => ∀ got, WaitsAtOnce (next got)
  | .call _ next => ∀ r, WaitsAtOnce (next r)
  | .fork next =>
      WaitsAtOnce (next (-1)) ∧ WaitsAtOnce (next 0) ∧
        ∀ pid, 0 < pid → (next pid).IsWait ∧ WaitsAtOnce (next pid)
  | .wait next => WaitsAtOnce next
  | .execl _ _ failed => WaitsAtOnce failed
  | .goto _ => True
  | .exit _ => True
  | .undefined => True

theorem Code.IsWait.eq {code : Code L C} (h : code.IsWait) : ∃ next, code = .wait next := by
  cases code with
  | wait next => exact ⟨next, rfl⟩
  | _ => exact h.elim

namespace Status

/-- A process that has not been waited for; its code passes the check. -/
def Orderly : Status L C → Prop
  | .running code => WaitsAtOnce code
  | .foreign _ _ => True
  | .zombie _ => True
  | .reaped => False

/-- A process at its `wait`. -/
def AtWait : Status L C → Prop
  | .running code => code.IsWait ∧ WaitsAtOnce code
  | _ => False

theorem AtWait.eq {st : Status L C} (h : st.AtWait) :
    ∃ next, st = .running (.wait next) ∧ WaitsAtOnce next := by
  cases st with
  | running code =>
      obtain ⟨next, rfl⟩ := h.1.eq
      exact ⟨next, rfl, h.2⟩
  | _ => exact h.elim

theorem Orderly.not_reaped {st : Status L C} (h : st.Orderly) : st.isReaped = false := by
  cases st with
  | reaped => exact h.elim
  | _ => rfl

theorem AtWait.not_reaped {st : Status L C} (h : st.AtWait) : st.isReaped = false := by
  obtain ⟨next, rfl, -⟩ := h.eq
  rfl

theorem AtWait.not_zombie {st : Status L C} (h : st.AtWait) : st.isZombie = false := by
  obtain ⟨next, rfl, -⟩ := h.eq
  rfl

theorem not_reaped_of_zombie {st : Status L C} (h : st.isZombie = true) : st.isReaped = false := by
  cases st with
  | zombie status => rfl
  | _ => cases h

end Status

section moves
variable {P : Project L C} {failed : Bool} {st st' : Status L C}

/-- A step of its own keeps the active process in order. -/
theorem Move.orderly (hcode : ∀ l, WaitsAtOnce (P.code l)) (h : Move P failed st st')
    (hst : st.Orderly) : st'.Orderly := by
  cases h with
  | printf text next => exact hst
  | perror text next => exact hst
  | scanf capacity n next r ws => exact hst r ws
  | fgets size next got => exact hst got
  | call c next r => exact hst r
  | forkFails next => exact hst.1
  | execFails path argv failed => exact hst
  | exec path argv failed l h => trivial
  | foreign path argv failed h => trivial
  | goto l => exact hcode l
  | exit status => trivial
  | ends path argv status => trivial
  | input st => exact hst

/-- Of a process that waits only the input can change. -/
theorem Move.eq_of_atWait (h : Move P failed st st') (hst : st.AtWait) : st' = st := by
  obtain ⟨next, rfl, -⟩ := hst.eq
  cases h with
  | input => rfl

/-- Likewise of one that has been waited for. -/
theorem Move.eq_of_reaped (h : Move P failed st st') (hst : st.isReaped = true) : st' = st := by
  cases h with
  | input => rfl
  | _ => cases hst

end moves

/-! ## §2. One process is active. -/

/-- Process `p` is active: its ancestors wait, and everybody else has been
waited for. -/
structure OneActive (t : Table L C) (p : Pid) : Prop where
  family : t.Family
  active : ∃ q, t p = some q ∧ q.status.Orderly
  ancestors : ∀ p', p' <:+ p → p' ≠ p → ∃ q, t p' = some q ∧ q.status.AtWait
  others : ∀ p' q, t p' = some q → ¬ p' <:+ p → q.status.isReaped = true

section tables
variable {P : Project L C} {t t' : Table L C} {p : Pid}

/-- Three kinds of processes. -/
theorem OneActive.cases (h : OneActive t p) {p' : Pid} {q : Process L C} (hq : t p' = some q) :
    (p' = p ∧ q.status.Orderly) ∨ (p' <:+ p ∧ p' ≠ p ∧ q.status.AtWait) ∨
      (¬ p' <:+ p ∧ q.status.isReaped = true) := by
  by_cases hsuf : p' <:+ p
  · by_cases heq : p' = p
    · subst heq
      obtain ⟨q', hq', horderly⟩ := h.active
      rw [hq] at hq'
      injection hq' with hq'
      rw [hq']
      exact Or.inl ⟨rfl, horderly⟩
    · obtain ⟨q', hq', hwait⟩ := h.ancestors p' hsuf heq
      rw [hq] at hq'
      injection hq' with hq'
      rw [hq']
      exact Or.inr (Or.inl ⟨hsuf, heq, hwait⟩)
  · exact Or.inr (Or.inr ⟨hsuf, h.others p' q hq hsuf⟩)

/-- A proper ancestor has the next process on the way down as its child. -/
theorem exists_child_of_suffix {p' : Pid} (hsuf : p' <:+ p) (hne : p' ≠ p) :
    ∃ n, (n :: p') <:+ p :=
  (suffix_cases hsuf).resolve_left fun h => hne h.symm

/-- The child on the way down has not been waited for. -/
theorem OneActive.not_childless (h : OneActive t p) {p' : Pid} {q : Process L C}
    (hq : t p' = some q) (hsuf : p' <:+ p) (hne : p' ≠ p) : t.childless p' q = false := by
  obtain ⟨n, hn⟩ := exists_child_of_suffix hsuf hne
  have hchild : ∃ c, t (n :: p') = some c ∧ c.status.isReaped = false := by
    by_cases heq : n :: p' = p
    · obtain ⟨c, hc, horderly⟩ := h.active
      exact ⟨c, by rw [heq]; exact hc, horderly.not_reaped⟩
    · obtain ⟨c, hc, hwait⟩ := h.ancestors _ hn heq
      exact ⟨c, hc, hwait.not_reaped⟩
  obtain ⟨c, hc, hreaped⟩ := hchild
  by_contra hnone
  have hlt := h.family.lt hq hc
  have hall := List.all_eq_true.mp (Bool.eq_true_of_not_eq_false hnone) n (List.mem_range.mpr hlt)
  rw [Table.reaped_eq hc, hreaped] at hall
  cases hall

/-- One process moves on, or an input changes. -/
theorem OneActive.move (hcode : ∀ l, WaitsAtOnce (P.code l)) (h : OneActive t p) {failed : Bool}
    {p₁ : Pid} {q : Process L C} {st : Status L C} {stdin : List UInt8} (hq : t p₁ = some q)
    (hmove : Move P failed q.status st) : OneActive (t.set p₁ ⟨st, stdin, q.forks⟩) p := by
  have hfam : (t.set p₁ ⟨st, stdin, q.forks⟩).Family := by
    rw [Table.Family, Table.forks_set_same hq]
    exact h.family
  refine ⟨hfam, ?_, ?_, ?_⟩
  · obtain ⟨q', hq', horderly⟩ := h.active
    by_cases heq : p = p₁
    · subst heq
      rw [hq] at hq'
      injection hq' with hq'
      rw [← hq'] at horderly
      exact ⟨_, Table.set_self t p _, hmove.orderly hcode horderly⟩
    · exact ⟨q', by rw [Table.set_ne heq]; exact hq', horderly⟩
  · intro p' hsuf hne
    obtain ⟨q', hq', hwait⟩ := h.ancestors p' hsuf hne
    by_cases heq : p' = p₁
    · subst heq
      rw [hq] at hq'
      injection hq' with hq'
      rw [← hq'] at hwait
      refine ⟨_, Table.set_self t p' _, ?_⟩
      show st.AtWait
      rw [hmove.eq_of_atWait hwait]
      exact hwait
    · exact ⟨q', by rw [Table.set_ne heq]; exact hq', hwait⟩
  · intro p' q' hq' hsuf
    by_cases heq : p' = p₁
    · subst heq
      rw [Table.set_self] at hq'
      injection hq' with hq'
      have hreaped := h.others p' q hq hsuf
      rw [← hq']
      show st.isReaped = true
      rw [hmove.eq_of_reaped hreaped]
      exact hreaped
    · rw [Table.set_ne heq] at hq'
      exact h.others p' q' hq' hsuf

/-- The active process forks, and its child becomes active. -/
theorem OneActive.fork (h : OneActive t p) {q : Process L C} {next : Int → Code L C}
    {answer : Int} (hq : t p = some q) (hst : q.status = .running (.fork next))
    (hanswer : 0 < answer) :
    OneActive ((t.set p ⟨.running (next answer), q.stdin, q.forks + 1⟩).set
      (q.forks :: p) ⟨.running (next 0), q.stdin, 0⟩) (q.forks :: p) := by
  have hfork : WaitsAtOnce (.fork next) := by
    rcases h.cases hq with ⟨-, horderly⟩ | ⟨-, hne, -⟩ | ⟨hsuf, -⟩
    · rw [hst] at horderly
      exact horderly
    · exact absurd rfl hne
    · exact absurd (List.suffix_refl p) hsuf
  have hparent : p ≠ q.forks :: p := (child_ne q.forks p).symm
  refine ⟨h.family.fork hq, ⟨_, Table.set_self _ _ _, hfork.2.1⟩, ?_, ?_⟩
  · intro p' hsuf hne
    rw [Table.set_ne hne]
    have hsuf' : p' <:+ p := (List.suffix_cons_iff.mp hsuf).resolve_left hne
    by_cases heq : p' = p
    · subst heq
      exact ⟨_, Table.set_self _ _ _, hfork.2.2 answer hanswer⟩
    · rw [Table.set_ne heq]
      exact h.ancestors p' hsuf' heq
  · intro p' q' hq' hsuf
    have hne : p' ≠ q.forks :: p := by
      rintro rfl
      exact hsuf (List.suffix_refl _)
    have hsuf' : ¬ p' <:+ p := fun hc => hsuf (hc.trans (List.suffix_cons _ _))
    have heq : p' ≠ p := by
      rintro rfl
      exact hsuf' (List.suffix_refl _)
    rw [Table.set_ne hne, Table.set_ne heq] at hq'
    exact h.others p' q' hq' hsuf'

/-- A process that has ended and not been waited for is the active one. -/
theorem OneActive.eq_of_zombie (h : OneActive t p) {p₁ : Pid} {c : Process L C}
    (hc : t p₁ = some c) (hzombie : c.status.isZombie = true) : p = p₁ := by
  rcases h.cases hc with ⟨heq, -⟩ | ⟨-, -, hwait⟩ | ⟨-, hreaped⟩
  · exact heq.symm
  · rw [hwait.not_zombie] at hzombie
    cases hzombie
  · rw [Status.not_reaped_of_zombie hzombie] at hreaped
    cases hreaped

/-- Its parent has waited for the active process and is active again. -/
theorem OneActive.reap {p₁ : Pid} {n : Nat} (h : OneActive t (n :: p₁)) {q c : Process L C}
    {next : Code L C} (hq : t p₁ = some q) (hst : q.status = .running (.wait next))
    (hc : t (n :: p₁) = some c) :
    OneActive ((t.set p₁ ⟨.running next, q.stdin, q.forks⟩).set (n :: p₁)
      ⟨.reaped, c.stdin, c.forks⟩) p₁ := by
  have hne : p₁ ≠ n :: p₁ := (child_ne n p₁).symm
  have hc' : t.set p₁ ⟨.running next, q.stdin, q.forks⟩ (n :: p₁) = some c := by
    rw [Table.set_ne (child_ne n p₁), hc]
  have hnext : WaitsAtOnce next := by
    obtain ⟨q', hq', hwait⟩ := h.ancestors p₁ (List.suffix_cons _ _) hne
    rw [hq] at hq'
    injection hq' with hq'
    rw [← hq', hst] at hwait
    exact hwait.2
  refine ⟨?_, ⟨⟨.running next, q.stdin, q.forks⟩, ?_, hnext⟩, ?_, ?_⟩
  · rw [Table.Family, Table.forks_set_same hc', Table.forks_set_same hq]
    exact h.family
  · rw [Table.set_ne hne, Table.set_self]
  · intro p' hsuf heq
    have hne' : p' ≠ n :: p₁ := by
      rintro rfl
      have hlen := hsuf.length_le
      simp only [List.length_cons] at hlen
      omega
    rw [Table.set_ne hne', Table.set_ne heq]
    exact h.ancestors p' (hsuf.trans (List.suffix_cons _ _)) hne'
  · intro p' q' hq' hsuf
    by_cases heq : p' = n :: p₁
    · rw [heq, Table.set_self] at hq'
      injection hq' with hq'
      rw [← hq']
      rfl
    · have hne' : p' ≠ p₁ := by
        rintro rfl
        exact hsuf (List.suffix_refl _)
      rw [Table.set_ne heq, Table.set_ne hne'] at hq'
      refine h.others p' q' hq' ?_
      intro hc
      exact hsuf ((List.suffix_cons_iff.mp hc).resolve_left heq)

/-- **EVERY ACTION LEAVES ONE PROCESS ACTIVE.** -/
theorem OneActive.change (hcode : ∀ l, WaitsAtOnce (P.code l)) (h : OneActive t p)
    {failed : Bool} (hchange : Change P t failed t') : ∃ p', OneActive t' p' := by
  cases hchange with
  | move failed p₁ q st stdin hq hmove => exact ⟨p, h.move hcode hq hmove⟩
  | noChild p₁ q next hq hst hnone =>
      -- only the active process has no child
      rcases h.cases hq with ⟨rfl, horderly⟩ | ⟨hsuf, hne, -⟩ | ⟨-, hreaped⟩
      · rw [hst] at horderly
        refine ⟨p₁, ?_⟩
        have hfam : (t.set p₁ ⟨.running next, q.stdin, q.forks⟩).Family := by
          rw [Table.Family, Table.forks_set_same hq]
          exact h.family
        refine ⟨hfam, ⟨_, Table.set_self _ _ _, horderly⟩, ?_, ?_⟩
        · intro p' hsuf hne
          rw [Table.set_ne hne]
          exact h.ancestors p' hsuf hne
        · intro p' q' hq' hsuf
          have hne : p' ≠ p₁ := by
            rintro rfl
            exact hsuf (List.suffix_refl _)
          rw [Table.set_ne hne] at hq'
          exact h.others p' q' hq' hsuf
      · rw [h.not_childless hq hsuf hne] at hnone
        cases hnone
      · rw [hst] at hreaped
        cases hreaped
  | fork p₁ q next answer hq hst hanswer =>
      rcases h.cases hq with ⟨rfl, -⟩ | ⟨-, -, hwait⟩ | ⟨-, hreaped⟩
      · exact ⟨_, h.fork hq hst hanswer⟩
      · rw [hst] at hwait
        exact hwait.1.elim
      · rw [hst] at hreaped
        cases hreaped
  | reap p₁ q next n c hq hst hc hzombie =>
      have hp := h.eq_of_zombie hc hzombie
      subst hp
      exact ⟨p₁, h.reap hq hst hc⟩

/-- The active process has no child left. -/
theorem OneActive.childless (h : OneActive t p) (q : Process L C) : t.childless p q = true := by
  unfold Table.childless
  rw [List.all_eq_true]
  intro n _
  unfold Table.reaped
  cases hc : t (n :: p) with
  | none => rfl
  | some c =>
      refine h.others (n :: p) c hc ?_
      intro hsuf
      have hlen := hsuf.length_le
      simp only [List.length_cons] at hlen
      omega

end tables

/-! ## §3. Who steps. -/

/-- The process that an action is about. -/
def Act.actor : Act → Pid
  | .run p _ => p
  | .fails p => p
  | .ends p _ => p
  | .input p _ => p

/-- The next call of the process has no meaning: the program says so, or a word
does not fit into its array. -/
def Process.Undefined (q : Process L C) : Prop :=
  q.status = .running .undefined ∨
    ∃ capacity n next, q.status = .running (.scanf capacity n next) ∧
      ¬ ((scanf n q.stdin).1.all (·.length < capacity)) = true

section runs
variable {P : Project L C} {s s' : System L C} {p : Pid}

/-- **WHO TAKES A STEP**: the active process, or its parent, which waits for
it, when it has ended. -/
theorem OneActive.actor (h : OneActive s.process p) {a : Act} (ha : a.isInput = false)
    (hstep : s.step P a = some s') :
    a.actor = p ∨ ∃ n c, p = n :: a.actor ∧ s.process p = some c ∧ c.status.isZombie = true := by
  cases a with
  | run p₁ answer =>
      simp only [System.step] at hstep
      split at hstep
      · next q hq =>
          split at hstep
          · next code hcode =>
              rcases h.cases hq with ⟨heq, -⟩ | ⟨hsuf, hne, hwait⟩ | ⟨-, hreaped⟩
              · exact Or.inl heq
              · -- an ancestor is at its `wait`
                right
                obtain ⟨next, hst, -⟩ := hwait.eq
                rw [hcode] at hst
                injection hst with hst
                subst hst
                simp only [System.advance] at hstep
                split at hstep
                · rw [h.not_childless hq hsuf hne, if_neg Bool.false_ne_true] at hstep
                  cases hstep
                · split at hstep
                  · next c hc =>
                      split at hstep
                      · next hzombie =>
                          have hp := h.eq_of_zombie hc hzombie
                          exact ⟨answer.toNat, c, hp, by rw [hp]; exact hc, hzombie⟩
                      · cases hstep
                  · cases hstep
              · rw [hcode] at hreaped
                cases hreaped
          · cases hstep
      · cases hstep
  | fails p₁ =>
      simp only [System.step] at hstep
      split at hstep
      · next q hq =>
          split at hstep
          · next code hcode =>
              rcases h.cases hq with ⟨heq, -⟩ | ⟨-, -, hwait⟩ | ⟨-, hreaped⟩
              · exact Or.inl heq
              · obtain ⟨next, hst, -⟩ := hwait.eq
                rw [hcode] at hst
                injection hst with hst
                subst hst
                cases hstep
              · rw [hcode] at hreaped
                cases hreaped
          · cases hstep
      · cases hstep
  | ends p₁ status =>
      simp only [System.step] at hstep
      split at hstep
      · next q hq =>
          split at hstep
          · next path argv hforeign =>
              rcases h.cases hq with ⟨heq, -⟩ | ⟨-, -, hwait⟩ | ⟨-, hreaped⟩
              · exact Or.inl heq
              · rw [hforeign] at hwait
                exact hwait.elim
              · rw [hforeign] at hreaped
                cases hreaped
          · cases hstep
      · cases hstep
  | input p₁ text => cases ha

/-- **A process can make its call**, if that has a meaning and no child of it
that it would wait for goes on. -/
theorem exists_step_of_running {q : Process L C} {code : Code L C} (hq : s.process p = some q)
    (hcode : q.status = .running code) (hdefined : ¬ q.Undefined)
    (hwait : ∀ next, code = .wait next → s.process.childless p q = true ∨
      ∃ n c, s.process (n :: p) = some c ∧ c.status.isZombie = true) :
    ∃ answer s', s.step P (.run p answer) = some s' := by
  have hadvance : ∃ answer s', s.advance P p q answer code = some s' := by
    cases code with
    | printf text next => exact ⟨0, _, rfl⟩
    | perror text next => exact ⟨0, _, rfl⟩
    | scanf capacity n next =>
        have hfit : ((scanf n q.stdin).1.all (·.length < capacity)) = true := by
          by_contra hfit
          exact hdefined (Or.inr ⟨capacity, n, next, hcode, hfit⟩)
        exact ⟨0, _, if_pos hfit⟩
    | fgets size next =>
        by_cases hnil : q.stdin = []
        · exact ⟨0, _, if_pos hnil⟩
        · exact ⟨0, _, if_neg hnil⟩
    | call c next => exact ⟨0, _, rfl⟩
    | fork next =>
        refine ⟨1, ?_⟩
        simp only [System.advance]
        rw [if_pos Int.one_pos]
        exact ⟨_, rfl⟩
    | wait next =>
        rcases hwait next rfl with hnone | ⟨n, c, hc, hzombie⟩
        · -- the last child has been waited for: ECHILD
          refine ⟨-1, ?_⟩
          simp only [System.advance]
          rw [if_pos trivial, if_pos hnone]
          exact ⟨_, rfl⟩
        · refine ⟨n, ?_⟩
          have hn : ¬ (n : Int) = -1 := by omega
          simp only [System.advance, if_neg hn, Int.toNat_natCast, hc, hzombie, if_true]
          exact ⟨_, rfl⟩
    | execl path argv failed => exact ⟨0, _, rfl⟩
    | goto l => exact ⟨0, _, rfl⟩
    | exit status => exact ⟨0, _, rfl⟩
    | undefined => exact absurd (Or.inl hcode) hdefined
  obtain ⟨answer, s', hs'⟩ := hadvance
  exact ⟨answer, s', by rw [System.step_run hq hcode]; exact hs'⟩

/-- **SOMEBODY CAN STEP** until the first process has ended, unless the active
one has run into undefined behaviour. -/
theorem OneActive.enabled (h : OneActive s.process p) :
    (∃ q, s.process [] = some q ∧ q.status.isZombie = true) ∨
      (∃ q, s.process p = some q ∧ q.Undefined) ∨
      ∃ a s', a.isInput = false ∧ s.step P a = some s' := by
  obtain ⟨q, hq, horderly⟩ := h.active
  by_cases hundefined : q.Undefined
  · exact Or.inr (Or.inl ⟨q, hq, hundefined⟩)
  cases hst : q.status with
  | running code =>
      obtain ⟨answer, s', hs'⟩ := exists_step_of_running (P := P) hq hst hundefined
        fun _ _ => Or.inl (h.childless q)
      exact Or.inr (Or.inr ⟨.run p answer, s', rfl, hs'⟩)
  | foreign path argv =>
      refine Or.inr (Or.inr ⟨.ends p 0, s.set p { q with status := .zombie 0 }, rfl, ?_⟩)
      simp only [System.step, hq, hst]
  | zombie status =>
      cases p with
      | nil => exact Or.inl ⟨q, hq, by rw [hst]; rfl⟩
      | cons n p₁ =>
          -- its parent waits for it
          obtain ⟨q₁, hq₁, hwait⟩ := h.ancestors p₁ (List.suffix_cons _ _) (child_ne n p₁).symm
          obtain ⟨next, hst₁, -⟩ := hwait.eq
          have hdefined : ¬ q₁.Undefined := by
            rintro (hst' | ⟨_, _, _, hst', -⟩)
            · rw [hst₁] at hst'
              cases hst'
            · rw [hst₁] at hst'
              cases hst'
          obtain ⟨answer, s', hs'⟩ := exists_step_of_running (P := P) hq₁ hst₁ hdefined
            fun _ _ => Or.inr ⟨n, q, hq, by rw [hst]; rfl⟩
          exact Or.inr (Or.inr ⟨.run p₁ answer, s', rfl, hs'⟩)
  | reaped =>
      rw [hst] at horderly
      exact horderly.elim

/-- At first the first process is active. -/
theorem OneActive.start (l : L) (stdin : List UInt8) :
    OneActive (System.start l stdin : System L C).process [] := by
  refine ⟨Table.Family.start l stdin, ⟨_, Table.start_root l stdin, trivial⟩, ?_, ?_⟩
  · intro p' hsuf hne
    exact absurd (List.suffix_nil.mp hsuf) hne
  · intro p' q hq hsuf
    rw [Table.start_of_ne (fun h => hsuf (by rw [h]))] at hq
    cases hq

/-- **IN EVERY RUN ONE PROCESS IS ACTIVE.** -/
theorem one_active (hcode : ∀ l, WaitsAtOnce (P.code l)) {l : L} {stdin : List UInt8}
    (h : Reaches (System.step P) (System.start l stdin) s) : ∃ p, OneActive s.process p := by
  refine Reaches.invariant (I := fun s => ∃ p, OneActive s.process p) h
    ⟨[], OneActive.start l stdin⟩ ?_
  rintro s a s' ⟨p, hp⟩ hstep
  exact hp.change hcode (System.step_cases hstep)

end runs

/-! ## §4. Programs in a larger project. -/

section map
variable {L' C' : Type} (f : L → L') (g : C → C')

/-- The same code with the labels and calls of a larger project. -/
def Code.map : Code L C → Code L' C'
  | .printf text next => .printf text (next.map)
  | .perror text next => .perror text (next.map)
  | .scanf capacity n next => .scanf capacity n fun r ws => (next r ws).map
  | .fgets size next => .fgets size fun got => (next got).map
  | .call c next => .call (g c) fun r => (next r).map
  | .fork next => .fork fun pid => (next pid).map
  | .wait next => .wait (next.map)
  | .execl path argv failed => .execl path argv (failed.map)
  | .goto l => .goto (f l)
  | .exit status => .exit status
  | .undefined => .undefined

theorem isWait_map {code : Code L C} (h : code.IsWait) : (code.map f g).IsWait := by
  obtain ⟨next, rfl⟩ := h.eq
  trivial

/-- The check does not depend on the project. -/
theorem WaitsAtOnce.map (code : Code L C) : WaitsAtOnce code → WaitsAtOnce (code.map f g) := by
  induction code with
  | printf text next ih | perror text next ih | wait next ih | execl path argv failed ih =>
      exact ih
  | scanf capacity n next ih => exact fun h r ws => ih r ws (h r ws)
  | fgets size next ih => exact fun h got => ih got (h got)
  | call c next ih => exact fun h r => ih r (h r)
  | fork next ih =>
      rintro ⟨hfails, hchild, hparent⟩
      refine ⟨ih (-1) hfails, ih 0 hchild, ?_⟩
      intro pid hpid
      obtain ⟨hwait, hnext⟩ := hparent pid hpid
      exact ⟨isWait_map f g hwait, ih pid hnext⟩
  | goto l => exact fun _ => trivial
  | exit status => exact fun _ => trivial
  | undefined => exact fun _ => trivial

end map

end ConcurrencyCrypto.Library
