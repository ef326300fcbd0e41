/-
  ConcurrencyCrypto.Library.ProcessCosts
  ──────────────────────────────────────
  **HOW MANY CALLS A PROCESS AND ALL ITS DESCENDANTS CAN MAKE**, whatever
  fails and in whatever order they run.

  `Costs P code n` reads off the code that no more than `n` calls come from it,
  those of the programs it executes and of the children it forks included.
  The sum over all processes that exist is a budget: every call lowers it.

    • `Costs.length_le` — no run has more calls than its budget,
    • `Costs.enabled`   — and none stops before all processes have ended.
-/
import ConcurrencyCrypto.Library.Nesting

namespace ConcurrencyCrypto.Library

variable {L C : Type}

/-! ## §1. The calls that the code can lead to. -/

/-- See the top of the file.  A program with a cost reads nothing and has no
undefined behaviour. -/
inductive Costs (P : Project L C) : Code L C → Nat → Prop where
  | printf {text next n} (h : Costs P next n) : Costs P (.printf text next) (n + 1)
  | perror {text next n} (h : Costs P next n) : Costs P (.perror text next) (n + 1)
  | call {c next n} (h : ∀ r, Costs P (next r) n) : Costs P (.call c next) (n + 1)
  | fork {next m n} (hfails : Costs P (next (-1)) (m + n)) (hchild : Costs P (next 0) m)
      (hparent : ∀ pid, 0 < pid → Costs P (next pid) n) : Costs P (.fork next) (m + n + 1)
  | wait {next n} (h : Costs P next n) : Costs P (.wait next) (n + 1)
  | execl {path argv failed l n} (hload : P.load path argv = some l) (h : Costs P (.goto l) n)
      (hfails : Costs P failed n) : Costs P (.execl path argv failed) (n + 1)
  | goto {l n} (h : Costs P (P.code l) n) : Costs P (.goto l) (n + 1)
  | exit {status n} : Costs P (.exit status) (n + 1)

/-- A bound may be weakened. -/
theorem Costs.mono {P : Project L C} {code : Code L C} {n : Nat} (h : Costs P code n) :
    ∀ {m : Nat}, n ≤ m → Costs P code m := by
  have hsucc : ∀ {n m : Nat}, n + 1 ≤ m → ∃ k, m = k + 1 ∧ n ≤ k := by
    intro n m hle
    exact ⟨m - 1, by omega, by omega⟩
  induction h with
  | printf h ih =>
      intro m hle
      obtain ⟨k, rfl, hk⟩ := hsucc hle
      exact .printf (ih hk)
  | perror h ih =>
      intro m hle
      obtain ⟨k, rfl, hk⟩ := hsucc hle
      exact .perror (ih hk)
  | call h ih =>
      intro m hle
      obtain ⟨k, rfl, hk⟩ := hsucc hle
      exact .call fun r => ih r hk
  | @fork next a b hfails hchild hparent ihfails ihchild ihparent =>
      intro m hle
      obtain ⟨k, rfl, hk⟩ := hsucc hle
      -- what is left over goes to the parent
      obtain ⟨d, rfl⟩ : ∃ d, k = a + (b + d) := ⟨k - a - b, by omega⟩
      refine .fork (ihfails hk) hchild ?_
      intro pid hpid
      exact ihparent pid hpid (Nat.le_add_right b d)
  | wait h ih =>
      intro m hle
      obtain ⟨k, rfl, hk⟩ := hsucc hle
      exact .wait (ih hk)
  | execl hload h hfails ih ihfails =>
      intro m hle
      obtain ⟨k, rfl, hk⟩ := hsucc hle
      exact .execl hload (ih hk) (ihfails hk)
  | goto h ih =>
      intro m hle
      obtain ⟨k, rfl, hk⟩ := hsucc hle
      exact .goto (ih hk)
  | exit =>
      intro m hle
      obtain ⟨k, rfl, -⟩ := hsucc hle
      exact .exit

/-- What a process in this status can still cost. -/
def StatusCosts (P : Project L C) : Status L C → Nat → Prop
  | .running code, n => Costs P code n
  | .foreign _ _, _ => False
  | .zombie _, _ => True
  | .reaped, _ => True

/-! ## §2. The budget of all processes. -/

/-- The processes that exist are those in `A`, and each keeps to its cost. -/
structure Budget (P : Project L C) (t : Table L C) (A : Finset Pid) (cost : Pid → Nat) :
    Prop where
  family : t.Family
  present : ∀ p, p ∈ A ↔ (t p).isSome = true
  costs : ∀ p q, t p = some q → StatusCosts P q.status (cost p)

section budget
variable {P : Project L C} {t : Table L C} {A : Finset Pid} {cost : Pid → Nat} {p : Pid}
  {q : Process L C}

theorem Budget.mem (hb : Budget P t A cost) (hp : t p = some q) : p ∈ A := by
  rw [hb.present, hp]
  rfl

/-- The input of the processes does not matter. -/
theorem Budget.of_shape {s s' : System L C} (hb : Budget P s.process A cost)
    (h : s'.shape = s.shape) : Budget P s'.process A cost := by
  have hforks : ∀ σ : System L C, σ.process.forks = fun p => (σ.shape p).map Prod.snd := by
    intro σ
    funext p
    rw [System.shape, Option.map_map]
    rfl
  have hsome : ∀ (σ : System L C) (p : Pid), (σ.shape p).isSome = (σ.process p).isSome :=
    fun σ p => Option.isSome_map
  refine ⟨?_, ?_, ?_⟩
  · rw [Table.Family, hforks s', h, ← hforks s]
    exact hb.family
  · intro p
    rw [← hsome s', h, hsome s]
    exact hb.present p
  · intro p q hp
    have hshape := shape_eq hp
    rw [h] at hshape
    obtain ⟨r, hr, hstatus, -⟩ := exists_of_shape hshape
    have hcosts := hb.costs p r hr
    rw [hstatus] at hcosts
    exact hcosts

/-- A process that goes on at another cost. -/
theorem Budget.set (hb : Budget P t A cost) (hp : t p = some q) {st : Status L C} {n : Nat}
    (hst : StatusCosts P st n) (stdin : List UInt8) :
    Budget P (t.set p ⟨st, stdin, q.forks⟩) A (Function.update cost p n) := by
  refine ⟨?_, ?_, ?_⟩
  · rw [Table.Family, Table.forks_set_same hp]
    exact hb.family
  · intro p'
    by_cases heq : p' = p
    · rw [heq, Table.set_self]
      exact ⟨fun _ => rfl, fun _ => hb.mem hp⟩
    · rw [Table.set_ne heq]
      exact hb.present p'
  · intro p' q' hq'
    by_cases heq : p' = p
    · rw [heq, Table.set_self] at hq'
      injection hq' with hq'
      rw [heq, Function.update_self, ← hq']
      exact hst
    · rw [Table.set_ne heq] at hq'
      rw [Function.update_of_ne heq]
      exact hb.costs p' q' hq'

theorem sum_update_lt (hp : p ∈ A) {n : Nat} (hn : n < cost p) :
    ∑ x ∈ A, Function.update cost p n x < ∑ x ∈ A, cost x := by
  rw [Finset.sum_update_of_mem hp, Finset.sdiff_singleton_eq_erase,
    ← Finset.add_sum_erase A cost hp]
  omega

/-- A process that forks shares its cost with the child. -/
theorem Budget.fork (hb : Budget P t A cost) (hp : t p = some q) {st st' : Status L C}
    {m n : Nat} (hchild : StatusCosts P st' m) (hparent : StatusCosts P st n)
    (stdin stdin' : List UInt8) :
    Budget P ((t.set p ⟨st, stdin, q.forks + 1⟩).set (q.forks :: p) ⟨st', stdin', 0⟩)
      (insert (q.forks :: p) A)
      (Function.update (Function.update cost p n) (q.forks :: p) m) := by
  refine ⟨hb.family.fork hp, ?_, ?_⟩
  · intro p'
    rw [Finset.mem_insert]
    by_cases hnew : p' = q.forks :: p
    · rw [hnew, Table.set_self]
      exact ⟨fun _ => rfl, fun _ => Or.inl rfl⟩
    · rw [Table.set_ne hnew, or_iff_right hnew]
      by_cases heq : p' = p
      · rw [heq, Table.set_self]
        exact ⟨fun _ => rfl, fun _ => hb.mem hp⟩
      · rw [Table.set_ne heq]
        exact hb.present p'
  · intro p' q' hq'
    by_cases hnew : p' = q.forks :: p
    · rw [hnew, Table.set_self] at hq'
      injection hq' with hq'
      rw [hnew, Function.update_self, ← hq']
      exact hchild
    · rw [Table.set_ne hnew] at hq'
      rw [Function.update_of_ne hnew]
      by_cases heq : p' = p
      · rw [heq, Table.set_self] at hq'
        injection hq' with hq'
        rw [heq, Function.update_self, ← hq']
        exact hparent
      · rw [Table.set_ne heq] at hq'
        rw [Function.update_of_ne heq]
        exact hb.costs p' q' hq'

theorem Budget.sum_fork_lt (hb : Budget P t A cost) (hp : t p = some q) {m n : Nat}
    (hcost : cost p = m + n + 1) :
    ∑ x ∈ insert (q.forks :: p) A,
        Function.update (Function.update cost p n) (q.forks :: p) m x
      < ∑ x ∈ A, cost x := by
  have hnew : q.forks :: p ∉ A := by
    rw [hb.present, hb.family.next_free hp]
    exact Bool.false_ne_true
  have hold : ∑ x ∈ A, Function.update (Function.update cost p n) (q.forks :: p) m x
      = ∑ x ∈ A, Function.update cost p n x := by
    refine Finset.sum_congr rfl fun x hx => Function.update_of_ne ?_ _ _
    rintro rfl
    exact hnew hx
  rw [Finset.sum_insert hnew, Function.update_self, hold,
    Finset.sum_update_of_mem (hb.mem hp), Finset.sdiff_singleton_eq_erase,
    ← Finset.add_sum_erase A cost (hb.mem hp)]
  omega

end budget

/-! ## §3. Every call lowers the budget. -/

/-- From `t` to `t'` the budget has become smaller. -/
def Spends (P : Project L C) (t t' : Table L C) : Prop :=
  ∀ A cost, Budget P t A cost →
    ∃ A' cost', Budget P t' A' cost' ∧ ∑ p ∈ A', cost' p < ∑ p ∈ A, cost p

section spends
variable {P : Project L C} {s s' : System L C} {p : Pid} {q : Process L C} {code : Code L C}

/-- A process that goes on at a lower cost. -/
theorem spends_set {t : Table L C} {st : Status L C} (hp : t p = some q)
    (h : ∀ n, StatusCosts P q.status n → ∃ m, m < n ∧ StatusCosts P st m)
    (stdin : List UInt8) : Spends P t (t.set p ⟨st, stdin, q.forks⟩) := by
  intro A cost hb
  obtain ⟨m, hlt, hst⟩ := h (cost p) (hb.costs p q hp)
  exact ⟨A, _, hb.set hp hst stdin, sum_update_lt (hb.mem hp) hlt⟩

/-- A call that succeeds. -/
theorem spends_advance {answer : Int} (hp : s.process p = some q)
    (hcode : q.status = .running code) (h : s.advance P p q answer code = some s') :
    Spends P s.process s'.process := by
  have hrun : ∀ {st : Status L C}, (∀ n, Costs P code n → ∃ m, m < n ∧ StatusCosts P st m) →
      Spends P s.process (s.process.set p ⟨st, q.stdin, q.forks⟩) := by
    intro st hst
    refine spends_set hp ?_ q.stdin
    rw [hcode]
    exact hst
  cases code with
  | printf text next =>
      cases h
      refine hrun fun n hn => ?_
      cases hn with
      | printf hnext => exact ⟨_, Nat.lt_succ_self _, hnext⟩
  | perror text next =>
      cases h
      refine hrun fun n hn => ?_
      cases hn with
      | perror hnext => exact ⟨_, Nat.lt_succ_self _, hnext⟩
  | scanf capacity n next =>
      intro A cost hb
      have hcosts := hb.costs p q hp
      rw [hcode] at hcosts
      nomatch hcosts
  | fgets size next =>
      intro A cost hb
      have hcosts := hb.costs p q hp
      rw [hcode] at hcosts
      nomatch hcosts
  | call c next =>
      cases h
      refine hrun fun n hn => ?_
      cases hn with
      | call hnext => exact ⟨_, Nat.lt_succ_self _, hnext answer⟩
  | fork next =>
      simp only [System.advance] at h
      split at h
      · next hanswer =>
          cases h
          intro A cost hb
          have hcosts := hb.costs p q hp
          rw [hcode] at hcosts
          generalize hn : cost p = n at hcosts
          cases hcosts with
          | @fork _ m n hfails hchild hparent =>
              have hnew : StatusCosts P (.running (next 0)) m := hchild
              have hold : StatusCosts P (.running (next answer)) n := hparent answer hanswer
              exact ⟨_, _, hb.fork hp hnew hold q.stdin q.stdin, hb.sum_fork_lt hp hn⟩
      · cases h
  | wait next =>
      have hwait : ∀ n, Costs P (.wait next) n → ∃ m, m < n ∧ Costs P next m := by
        intro n hn
        cases hn with
        | wait hnext => exact ⟨_, Nat.lt_succ_self _, hnext⟩
      simp only [System.advance] at h
      split at h
      · split at h
        · cases h
          exact hrun hwait
        · cases h
      · split at h
        · next c hc =>
            split at h
            · next hzombie =>
                cases h
                intro A cost hb
                have hcosts := hb.costs p q hp
                rw [hcode] at hcosts
                obtain ⟨m, hlt, hnext⟩ := hwait _ hcosts
                have hwaits : StatusCosts P (.running next) m := hnext
                have hset := hb.set hp hwaits q.stdin
                have hc' : s.process.set p ⟨.running next, q.stdin, q.forks⟩ (answer.toNat :: p)
                    = some c := by
                  rw [Table.set_ne (child_ne _ p), hc]
                have hreaped : StatusCosts P .reaped
                    (Function.update cost p m (answer.toNat :: p)) := trivial
                refine ⟨A, _, hset.set hc' hreaped c.stdin, ?_⟩
                -- the child that is waited for costs as much as before
                rw [Function.update_eq_self]
                exact sum_update_lt (hb.mem hp) hlt
            · cases h
        · cases h
  | execl path argv failed =>
      cases h
      intro A cost hb
      have hcosts := hb.costs p q hp
      rw [hcode] at hcosts
      generalize hn : cost p = n at hcosts
      cases hcosts with
      | @execl _ _ _ l m hload hl hfails =>
          have hgoto : StatusCosts P (.running (.goto l)) m := hl
          have hset := hb.set hp hgoto q.stdin
          refine ⟨A, _, ?_, sum_update_lt (hb.mem hp) (show m < cost p by omega)⟩
          show Budget P (s.process.set p ⟨_, q.stdin, q.forks⟩) A _
          rw [hload]
          exact hset
  | goto l =>
      cases h
      refine hrun fun n hn => ?_
      cases hn with
      | goto hnext => exact ⟨_, Nat.lt_succ_self _, hnext⟩
  | exit status =>
      cases h
      refine hrun fun n hn => ?_
      cases hn with
      | @exit _ m => exact ⟨m, Nat.lt_succ_self m, trivial⟩
  | undefined => cases h

/-- A call that fails. -/
theorem spends_fail (hp : s.process p = some q) (hcode : q.status = .running code)
    (h : s.fail p q code = some s') : Spends P s.process s'.process := by
  cases code with
  | fork next =>
      cases h
      refine spends_set hp ?_ q.stdin
      rw [hcode]
      intro n hn
      cases hn with
      | fork hfails hchild hparent => exact ⟨_, Nat.lt_succ_self _, hfails⟩
  | execl path argv failed =>
      cases h
      refine spends_set hp ?_ q.stdin
      rw [hcode]
      intro n hn
      cases hn with
      | execl hload hl hfails => exact ⟨_, Nat.lt_succ_self _, hfails⟩
  | _ => cases h

/-- **EVERY CALL LOWERS THE BUDGET**; input that changes does not count. -/
theorem Budget.step {A : Finset Pid} {cost : Pid → Nat} (hb : Budget P s.process A cost) {a : Act}
    (h : s.step P a = some s') :
    (a.isInput = true ∧ Budget P s'.process A cost) ∨
      ∃ A' cost', Budget P s'.process A' cost' ∧ ∑ p ∈ A', cost' p < ∑ p ∈ A, cost p := by
  rcases step_acts h with ⟨hinput, hshape, -⟩ | ⟨p, q, path, argv, hp, hforeign⟩ |
    ⟨p, q, code, hp, hcode, ⟨answer, hadvance⟩ | hfail⟩
  · exact Or.inl ⟨hinput, hb.of_shape hshape⟩
  · have hcosts := hb.costs p q hp
    rw [hforeign] at hcosts
    exact hcosts.elim
  · exact Or.inr (spends_advance hp hcode hadvance A cost hb)
  · exact Or.inr (spends_fail hp hcode hfail A cost hb)

end spends

/-! ## §4. Whole runs. -/

section runs
variable {P : Project L C} {s s' : System L C} {A : Finset Pid} {cost : Pid → Nat}

/-- At first there is one process. -/
theorem Budget.start {l : L} {n : Nat} (h : Costs P (.goto l) n) (stdin : List UInt8) :
    Budget P (System.start l stdin).process {[]} fun _ => n := by
  refine ⟨Table.Family.start l stdin, ?_, ?_⟩
  · intro p
    rw [Finset.mem_singleton]
    by_cases hp : p = []
    · rw [hp, Table.start_root]
      exact ⟨fun _ => rfl, fun _ => rfl⟩
    · rw [Table.start_of_ne hp]
      exact ⟨fun h => absurd h hp, fun h => absurd h Bool.false_ne_true⟩
  · intro p q hq
    by_cases hp : p = []
    · rw [hp, Table.start_root] at hq
      cases hq
      exact h
    · rw [Table.start_of_ne hp] at hq
      cases hq

/-- The budget bounds the calls of a run, and what is left of it those that
may follow. -/
theorem Budget.run (as : List Act) : ∀ {s : System L C} {A : Finset Pid} {cost : Pid → Nat},
    Budget P s.process A cost → runActions (System.step P) s as = some s' →
      ∃ A' cost', Budget P s'.process A' cost' ∧
        as.countP (!·.isInput) + ∑ p ∈ A', cost' p ≤ ∑ p ∈ A, cost p := by
  induction as with
  | nil =>
      intro s A cost hb h
      injection h with h
      rw [← h]
      exact ⟨A, cost, hb, by rw [List.countP_nil, Nat.zero_add]⟩
  | cons a as ih =>
      intro s A cost hb h
      obtain ⟨s₁, hfirst, hrest⟩ := Option.bind_eq_some_iff.mp h
      rcases hb.step hfirst with ⟨hinput, hb₁⟩ | ⟨A₁, cost₁, hb₁, hlt⟩
      · obtain ⟨A', cost', hb', hle⟩ := ih hb₁ hrest
        refine ⟨A', cost', hb', ?_⟩
        rw [List.countP_cons, hinput]
        exact hle
      · obtain ⟨A', cost', hb', hle⟩ := ih hb₁ hrest
        refine ⟨A', cost', hb', ?_⟩
        have hone : as.countP (!·.isInput) + (if (!a.isInput) = true then 1 else 0)
            ≤ as.countP (!·.isInput) + 1 := by
          split
          · exact Nat.le_refl _
          · exact Nat.le_succ _
        rw [List.countP_cons]
        omega

/-- **NO RUN HAS MORE CALLS THAN THE BUDGET.** -/
theorem Costs.length_le {l : L} {n : Nat} (h : Costs P (.goto l) n) {stdin : List UInt8}
    {as : List Act} (hrun : runActions (System.step P) (System.start l stdin) as = some s') :
    as.countP (!·.isInput) ≤ n := by
  obtain ⟨A', cost', -, hle⟩ := Budget.run as (Budget.start h stdin) hrun
  rw [Finset.sum_singleton] at hle
  omega

/-- A process with a cost has no undefined behaviour before it. -/
theorem StatusCosts.defined {q : Process L C} {n : Nat} (h : StatusCosts P q.status n) :
    ¬ q.Undefined := by
  rintro (hst | ⟨capacity, m, next, hst, -⟩)
  · rw [hst] at h
    nomatch h
  · rw [hst] at h
    nomatch h

/-- **NO RUN STOPS BEFORE ALL PROCESSES HAVE ENDED.** -/
theorem Budget.enabled (hb : Budget P s.process A cost) (hrun : ¬ AllEnded s.process) :
    ∃ a, a.isInput = false ∧ Enabled (System.step P) s a := by
  obtain ⟨p₀, hp₀⟩ := not_forall.mp hrun
  obtain ⟨q₀, hq₀⟩ := not_forall.mp hp₀
  obtain ⟨hsome₀, hleft₀⟩ := Classical.not_imp.mp hq₀
  -- the deepest process that has not ended: all below it have
  obtain ⟨p, hp, hmax⟩ := Finset.exists_max_image
    (A.filter fun p => ∃ q, s.process p = some q ∧ ¬ q.status.isEnded = true) List.length
    ⟨p₀, Finset.mem_filter.mpr ⟨hb.mem hsome₀, q₀, hsome₀, hleft₀⟩⟩
  obtain ⟨-, q, hq, hleft⟩ := Finset.mem_filter.mp hp
  have hbelow : ∀ m, SubtreeEnded s.process (m :: p) := by
    intro m p' c hsuffix hc
    by_contra hc'
    have hle := hmax p' (Finset.mem_filter.mpr ⟨hb.mem hc, c, hc, hc'⟩)
    have hlen := hsuffix.length_le
    rw [List.length_cons] at hlen
    omega
  have hcosts := hb.costs p q hq
  cases hstatus : q.status with
  | zombie status =>
      rw [hstatus] at hleft
      exact absurd rfl hleft
  | reaped =>
      rw [hstatus] at hleft
      exact absurd rfl hleft
  | foreign path argv =>
      rw [hstatus] at hcosts
      exact hcosts.elim
  | running code =>
      obtain ⟨answer, s', hs'⟩ := exists_step_of_running (P := P) hq hstatus hcosts.defined (by
        intro next _
        by_cases hz : ∃ m c, s.process (m :: p) = some c ∧ c.status.isZombie = true
        · exact Or.inr hz
        · exact Or.inl (childless_of_ended hbelow hz q))
      exact ⟨.run p answer, rfl, s', hs'⟩

/-- In every state of a run some call can be made, or all processes have
ended. -/
theorem Costs.enabled {l : L} {n : Nat} (h : Costs P (.goto l) n) {stdin : List UInt8}
    (hreach : Reaches (System.step P) (System.start l stdin) s) :
    AllEnded s.process ∨ ∃ a, a.isInput = false ∧ Enabled (System.step P) s a := by
  obtain ⟨A, cost, hb⟩ := Reaches.invariant
    (I := fun s : System L C => ∃ A cost, Budget P s.process A cost) hreach
    ⟨_, _, Budget.start h stdin⟩ (by
      rintro s a s' ⟨A, cost, hb⟩ hstep
      rcases hb.step hstep with ⟨-, hb'⟩ | ⟨A', cost', hb', -⟩
      · exact ⟨A, cost, hb'⟩
      · exact ⟨A', cost', hb'⟩)
  by_cases hended : AllEnded s.process
  · exact Or.inl hended
  · exact Or.inr (hb.enabled hended)

end runs

end ConcurrencyCrypto.Library
