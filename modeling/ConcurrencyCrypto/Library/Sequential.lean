/-
  ConcurrencyCrypto.Library.Sequential
  ────────────────────────────────────
  **A PROGRAM THAT RUNS ALONE IS A RUN OF ALL PROCESSES.**

  `Code.run` lets a child run to its end before its parent goes on, and keeps
  of its children only how many wait for a `wait`.  The machine of all
  processes can take the same steps in that order, with the same effects.

    • `Code.run_runs`    — one turn,
    • `execute_reaches`  — a run from the start.
-/
import ConcurrencyCrypto.Library.Processes

namespace ConcurrencyCrypto.Library

variable {L C : Type}

/-! ## §1. Where the machine is. -/

/-- What a turn that has stopped leaves of its process. -/
inductive Stop.Leaves : Stop L → Status L C → Prop where
  | goto (l) : Leaves (.goto l) (.running (.goto l))
  | exited (status) : Leaves (.exited status) (.zombie status)
  | execed (path argv) : Leaves .execed (.foreign path argv)

/-- Process `p` of the machine is where the program is. -/
structure Mirrors (σ : System L C) (p : Pid) (st : Status L C) (s : Console C) : Prop where
  family : σ.process.Family
  here : ∃ forks, σ.process p = some ⟨st, s.stdin, forks⟩
  ended : ∀ n c, σ.process (n :: p) = some c → c.status.isReaped = false →
    c.status.isZombie = true
  zombies : (σ.process.left p).card = s.zombies
  events : σ.events = s.events

/-- The machine can do what the program does, and only process `p` and those
below it take part. -/
def Runs (P : Project L C) (p : Pid) (σ : System L C) (stop : Stop L) (s' : Console C) : Prop :=
  ∃ σ' st, Reaches (System.step P) σ σ' ∧ stop.Leaves st ∧ Mirrors σ' p st s' ∧
    ∀ p', ¬ p <:+ p' → σ'.process p' = σ.process p'

section sequential
variable {P : Project L C} {K : Oracle C} {σ σ₁ : System L C} {p : Pid} {s s₁ s' : Console C}
  {st st' : Status L C} {stop : Stop L} {next : Code L C}

/-- One step, and the rest of the run. -/
theorem Runs.of_step (a : Act) (hstep : σ.step P a = some σ₁)
    (hframe : ∀ p', ¬ p <:+ p' → σ₁.process p' = σ.process p') (h : Runs P p σ₁ stop s') :
    Runs P p σ stop s' := by
  obtain ⟨σ', st, hreach, hleaves, hmirrors, hframe'⟩ := h
  refine ⟨σ', st, hreach.head ⟨a, hstep⟩, hleaves, hmirrors, ?_⟩
  intro p' hp'
  rw [hframe' p' hp', hframe p' hp']

/-- The process moves on and keeps its children. -/
theorem Mirrors.move (hm : Mirrors σ p st s) {forks : Nat}
    (hp : σ.process p = some ⟨st, s.stdin, forks⟩) (hst : st'.isReaped = st.isReaped)
    (hσ₁ : σ₁.process = σ.process.set p ⟨st', s₁.stdin, forks⟩) (hz : s₁.zombies = s.zombies)
    (hevents : σ₁.events = s₁.events) : Mirrors σ₁ p st' s₁ := by
  have hforks : σ₁.process.forks = σ.process.forks := by
    rw [hσ₁]
    exact Table.forks_set_same hp
  have hreaped : σ₁.process.reaped = σ.process.reaped := by
    rw [hσ₁]
    exact Table.reaped_set_same hp hst
  refine ⟨?_, ⟨forks, by rw [hσ₁, Table.set_self]⟩, ?_, ?_, hevents⟩
  · rw [Table.Family, hforks]
    exact hm.family
  · intro n c hc
    rw [hσ₁, Table.set_ne (child_ne n p)] at hc
    exact hm.ended n c hc
  · rw [Table.left_congr hforks hreaped, hm.zombies, hz]

/-- A step of the process alone, and the rest of its run. -/
theorem Runs.of_move (a : Act) (st' : Status L C) (s₁ : Console C) (hm : Mirrors σ p st s)
    {forks : Nat} (hp : σ.process p = some ⟨st, s.stdin, forks⟩) (hstep : σ.step P a = some σ₁)
    (hσ₁ : σ₁.process = σ.process.set p ⟨st', s₁.stdin, forks⟩)
    (hst : st'.isReaped = st.isReaped) (hz : s₁.zombies = s.zombies)
    (hevents : σ₁.events = s₁.events) (h : Mirrors σ₁ p st' s₁ → Runs P p σ₁ stop s') :
    Runs P p σ stop s' := by
  refine Runs.of_step a hstep ?_ (h (hm.move hp hst hσ₁ hz hevents))
  intro p' hp'
  rw [hσ₁, Table.set_ne (ne_of_not_suffix hp')]

/-- A call of the process that leaves one effect, and the rest of its run. -/
theorem Runs.of_emit (a : Act) (st' : Status L C) (rest : List UInt8) (e : Effect C)
    (hm : Mirrors σ p st s) {forks : Nat} (hp : σ.process p = some ⟨st, s.stdin, forks⟩)
    (hstep : σ.step P a = some ((σ.set p ⟨st', rest, forks⟩).emit e))
    (hst : st'.isReaped = st.isReaped)
    (h : ∀ {σ₁ : System L C}, Mirrors σ₁ p st' ({ s with stdin := rest }.emit e) →
      Runs P p σ₁ stop s') : Runs P p σ stop s' :=
  Runs.of_move a st' ({ s with stdin := rest }.emit e) hm hp hstep rfl hst rfl
    (congrArg (· ++ _) hm.events) h

/-- The run is over. -/
theorem Runs.of_mirrors (hleaves : stop.Leaves st) (hm : Mirrors σ p st s) : Runs P p σ stop s :=
  ⟨σ, st, .refl, hleaves, hm, fun _ _ => rfl⟩

/-! ## §2. `fork` and `wait`. -/

/-- A child that is waited for. -/
theorem Mirrors.wait (hm : Mirrors σ p (.running (.wait next)) s) (hz : s.zombies ≠ 0) :
    ∃ n σ₁, σ.step P (.run p n) = some σ₁ ∧
      Mirrors σ₁ p (.running next) ({ s with zombies := s.zombies - 1 }.emit .waited) ∧
      ∀ p', ¬ p <:+ p' → σ₁.process p' = σ.process p' := by
  obtain ⟨forks, hp⟩ := hm.here
  obtain ⟨n, hn⟩ := Finset.card_ne_zero.mp (hm.zombies ▸ hz)
  rw [Table.mem_left] at hn
  obtain ⟨c, hc⟩ : ∃ c, σ.process (n :: p) = some c := by
    rw [← Option.ne_none_iff_exists']
    intro hnone
    rw [Table.reaped, hnone] at hn
    exact absurd hn.2 (by simp)
  have hleft : c.status.isReaped = false := by
    rw [← Table.reaped_eq hc]
    exact hn.2
  have hzombie := hm.ended n c hc hleft
  have hstep : σ.step P (.run p n) = some (((σ.set p ⟨.running next, s.stdin, forks⟩).set (n :: p)
      ⟨.reaped, c.stdin, c.forks⟩).emit .waited) := by
    have hne : ¬ (n : Int) = -1 := by omega
    rw [System.step_run hp rfl]
    simp only [System.advance, if_neg hne, Int.toNat_natCast, hc, hzombie, if_true]
  refine ⟨n, _, hstep, ⟨hm.family.change (System.step_cases hstep), ⟨forks, ?_⟩, ?_, ?_, ?_⟩, ?_⟩
  · exact (Table.set_ne (child_ne n p).symm _).trans (Table.set_self _ p _)
  · intro m d hd hdleft
    by_cases hmn : m = n
    · rw [hmn] at hd
      cases (Table.set_self _ (n :: p) _).symm.trans hd
      cases hdleft
    · have hne : m :: p ≠ n :: p := fun h => hmn (List.cons.inj h).1
      have hd' := (Table.set_ne hne _).symm.trans hd
      exact hm.ended m d ((Table.set_ne (child_ne m p) _).symm.trans hd') hdleft
  · have hst : (Status.running next : Status L C).isReaped
        = (Status.running (.wait next) : Status L C).isReaped := rfl
    exact (Table.left_reap hm.family hp hc hleft hst).trans (congrArg (· - 1) hm.zombies)
  · show σ.events ++ _ = s.events ++ _
    rw [hm.events]
  · intro p' hp'
    have hne : p' ≠ n :: p := by
      intro heq
      rw [heq] at hp'
      exact hp' (List.suffix_cons n p)
    exact (Table.set_ne hne _).trans (Table.set_ne (ne_of_not_suffix hp') _)

/-- No child is left to wait for. -/
theorem Mirrors.childless (hm : Mirrors σ p st s) (hz : s.zombies = 0) (q : Process L C)
    (hp : σ.process p = some q) : σ.process.childless p q = true := by
  have hleft := Finset.card_eq_zero.mp (hm.zombies.trans hz)
  unfold Table.childless
  rw [List.all_eq_true]
  intro n hn
  by_contra hreaped
  have hmem : n ∈ σ.process.left p := by
    rw [Table.mem_left, Table.forks_eq hp]
    exact ⟨List.mem_range.mp hn, Bool.eq_false_iff.mpr hreaped⟩
  rw [hleft] at hmem
  exact Finset.notMem_empty n hmem

/-- A child has just been forked. -/
theorem Mirrors.fork_child {next : Int → Code L C} {forks : Nat} {answer : Int}
    (hfam : σ₁.process.Family)
    (hσ₁ : σ₁.process = (σ.process.set p ⟨.running (next answer), s.stdin, forks + 1⟩).set
      (forks :: p) ⟨.running (next 0), s.stdin, 0⟩)
    (hevents : σ₁.events = s.events ++ [.forked false]) :
    Mirrors σ₁ (forks :: p) (.running (next 0)) ({ s with zombies := 0 }.emit (.forked false)) := by
  have hchild : σ₁.process (forks :: p) = some ⟨.running (next 0), s.stdin, 0⟩ := by
    rw [hσ₁, Table.set_self]
  refine ⟨hfam, ⟨0, hchild⟩, ?_, ?_, hevents⟩
  · intro n c hc
    exact absurd (hfam.lt hchild hc) (Nat.not_lt_zero n)
  · exact Finset.card_eq_zero.mpr (Table.left_of_forks_zero hchild rfl)

/-- The child has ended, and the parent goes on where it was. -/
theorem Mirrors.fork_parent {next : Int → Code L C} {forks : Nat} {answer : Int}
    (hm : Mirrors σ p (.running (.fork next)) s)
    (hp : σ.process p = some ⟨.running (.fork next), s.stdin, forks⟩)
    (hσ₁ : σ₁.process = (σ.process.set p ⟨.running (next answer), s.stdin, forks + 1⟩).set
      (forks :: p) ⟨.running (next 0), s.stdin, 0⟩)
    {σ₂ : System L C} (hfam : σ₂.process.Family)
    (hframe : ∀ p', ¬ (forks :: p) <:+ p' → σ₂.process p' = σ₁.process p') {c : Process L C}
    (hc : σ₂.process (forks :: p) = some c) (hzombie : c.status.isZombie = true)
    {events : List (Effect C)} (hevents : σ₂.events = events) :
    Mirrors σ₂ p (.running (next answer)) ⟨s.stdin, s.zombies + 1, events⟩ := by
  have hleft : c.status.isReaped = false := by
    cases hstatus : c.status with
    | zombie status => rfl
    | _ => rw [hstatus] at hzombie; exact absurd hzombie (by simp [Status.isZombie])
  have hchild₁ : σ₁.process (forks :: p) = some ⟨.running (next 0), s.stdin, 0⟩ := by
    rw [hσ₁, Table.set_self]
  have hp₁ : σ₁.process p = some ⟨.running (next answer), s.stdin, forks + 1⟩ := by
    rw [hσ₁, Table.set_ne (child_ne forks p).symm, Table.set_self]
  have hp₂ : σ₂.process p = some ⟨.running (next answer), s.stdin, forks + 1⟩ := by
    rw [hframe p fun h => absurd h.length_le (Nat.not_succ_le_self p.length), hp₁]
  -- the other children are as before
  have hother : ∀ n, n ≠ forks → σ₂.process (n :: p) = σ₁.process (n :: p) :=
    fun n hn => hframe (n :: p) (not_suffix_of_ne hn (List.suffix_refl _))
  refine ⟨hfam, ⟨forks + 1, hp₂⟩, ?_, ?_, hevents⟩
  · intro n d hd hdleft
    by_cases hn : n = forks
    · rw [hn, hc] at hd
      cases hd
      exact hzombie
    · have hne : n :: p ≠ forks :: p := fun h => hn (List.cons.inj h).1
      rw [hother n hn, hσ₁, Table.set_ne hne, Table.set_ne (child_ne n p)] at hd
      exact hm.ended n d hd hdleft
  · have hcongr : σ₂.process.left p = σ₁.process.left p := by
      refine Table.left_congr_at ?_ ?_
      · rw [Table.forks_eq hp₂, Table.forks_eq hp₁]
      · intro n
        by_cases hn : n = forks
        · rw [hn, Table.reaped_eq hc, Table.reaped_eq hchild₁, hleft]
          rfl
        · rw [Table.reaped, Table.reaped, hother n hn]
    have hst : (Status.running (next answer) : Status L C).isReaped
        = (Status.running (.fork next) : Status L C).isReaped := rfl
    have hst' : (Status.running (next 0) : Status L C).isReaped = false := rfl
    rw [hcongr, hσ₁]
    exact (Table.left_fork hp hst hst').trans (congrArg (· + 1) hm.zombies)

/-- A process that has stopped for good can end. -/
theorem Mirrors.ends (hm : Mirrors σ p st s) (hleaves : stop.Leaves st)
    (hended : (∃ status, stop = .exited status) ∨ stop = .execed) :
    ∃ σ', Reaches (System.step P) σ σ' ∧
      (∃ c, σ'.process p = some c ∧ c.status.isZombie = true) ∧ σ'.events = σ.events ∧
      ∀ p', p' ≠ p → σ'.process p' = σ.process p' := by
  obtain ⟨forks, hp⟩ := hm.here
  cases hleaves with
  | goto l =>
      rcases hended with ⟨status, h⟩ | h
      · cases h
      · cases h
  | exited status => exact ⟨σ, .refl, ⟨_, hp, rfl⟩, rfl, fun _ _ => rfl⟩
  | execed path argv =>
      -- the other program ends
      have hstep : σ.step P (.ends p 0) = some (σ.set p ⟨.zombie 0, s.stdin, forks⟩) := by
        unfold System.step
        simp only [hp]
      refine ⟨_, .single ⟨.ends p 0, hstep⟩, ⟨_, Table.set_self _ p _, rfl⟩, rfl, ?_⟩
      intro p' hp'
      exact Table.set_ne hp' _

/-- The child runs to its end, and then the parent goes on. -/
theorem Runs.of_fork {next : Int → Code L C} (hm : Mirrors σ p (.running (.fork next)) s)
    {answer : Int} (hanswer : 0 < answer) {stopped : Stop L} {child : Console C}
    (hended : (∃ status, stopped = .exited status) ∨ stopped = .execed)
    (hchild : ∀ {σ₁ : System L C} {p' : Pid}, Mirrors σ₁ p' (.running (next 0))
      ({ s with zombies := 0 }.emit (.forked false)) → Runs P p' σ₁ stopped child)
    (hparent : ∀ {σ₂ : System L C},
      Mirrors σ₂ p (.running (next answer)) ⟨s.stdin, s.zombies + 1, child.events⟩ →
        Runs P p σ₂ stop s') : Runs P p σ stop s' := by
  obtain ⟨forks, hp⟩ := hm.here
  have hstep := System.step_run (P := P) hp rfl answer
  simp only [System.advance, if_pos hanswer] at hstep
  have hfam₁ := hm.family.change (System.step_cases hstep)
  obtain ⟨σ₂, st₂, hreach₂, hleaves, hm₂, hframe₂⟩ :=
    hchild (Mirrors.fork_child hfam₁ rfl (congrArg (· ++ _) hm.events))
  obtain ⟨σ₃, hreach₃, ⟨c, hc, hzombie⟩, hevents₃, hframe₃⟩ := hm₂.ends (P := P) hleaves hended
  have hfam₃ : σ₃.process.Family :=
    hreach₃.invariant (I := fun σ => σ.process.Family) hm₂.family
      fun _ _ _ hfam hstep => hfam.change (System.step_cases hstep)
  have hframe : ∀ p', ¬ (forks :: p) <:+ p' → σ₃.process p' = _ :=
    fun p' hp' => (hframe₃ p' (ne_of_not_suffix hp')).trans (hframe₂ p' hp')
  obtain ⟨σ', st, hreach, hleaves', hm', hframe'⟩ :=
    hparent (hm.fork_parent hp rfl hfam₃ hframe hc hzombie (hevents₃.trans hm₂.events))
  refine ⟨σ', st, ((hreach₂.trans hreach₃).trans hreach).head ⟨.run p answer, hstep⟩, hleaves',
    hm', ?_⟩
  intro p' hp'
  have hchild' : ¬ (forks :: p) <:+ p' := fun h => hp' ((List.suffix_cons forks p).trans h)
  rw [hframe' p' hp', hframe p' hchild']
  exact (Table.set_ne (ne_of_not_suffix hchild') _).trans
    (Table.set_ne (ne_of_not_suffix hp') _)

/-! ## §3. One turn. -/

/-- The code's runs, wherever they start, are runs of the machine. -/
def RunsAlike (P : Project L C) (K : Oracle C) (code : Code L C) : Prop :=
  ∀ {σ : System L C} {p : Pid} {s s' : Console C} {stop : Stop L},
    Mirrors σ p (.running code) s → code.run K s = (stop, s') → stop ≠ .undefined →
      Runs P p σ stop s'

/-- **A `fork`**, if what the child and the parent do then runs alike. -/
theorem Runs.of_fork_run {next : Int → Code L C} (ih : ∀ answer, RunsAlike P K (next answer))
    (hm : Mirrors σ p (.running (.fork next)) s) (hrun : (Code.fork next).run K s = (stop, s'))
    (hstop : stop ≠ .undefined) : Runs P p σ stop s' := by
  obtain ⟨forks, hp⟩ := hm.here
  rw [Code.run] at hrun
  by_cases hfork : K.forkFails s.events = true
  · rw [if_pos hfork] at hrun
    exact Runs.of_emit (.fails p) (.running (next (-1))) s.stdin (.forked true) hm hp
      (System.step_fails hp rfl) rfl fun hm₁ => ih _ hm₁ hrun hstop
  · rw [if_neg hfork] at hrun
    have hpid : 0 < (s.events.length + 1 : Int) := by omega
    rcases hchild : (next 0).run K ({ s with zombies := 0 }.emit (.forked false)) with
      ⟨stopped, child⟩
    rw [hchild] at hrun
    cases stopped with
    | goto l =>
        -- a child in its parent's loop has no meaning here
        cases hrun
        exact absurd rfl hstop
    | undefined =>
        cases hrun
        exact absurd rfl hstop
    | exited status =>
        refine Runs.of_fork hm hpid (Or.inl ⟨status, rfl⟩) (fun hm₁ => ih 0 hm₁ hchild ?_)
          fun hm₂ => ih _ hm₂ hrun hstop
        intro h
        cases h
    | execed =>
        refine Runs.of_fork hm hpid (Or.inr rfl) (fun hm₁ => ih 0 hm₁ hchild ?_)
          fun hm₂ => ih _ hm₂ hrun hstop
        intro h
        cases h

/-- **A TURN IS A RUN OF THE MACHINE.** -/
theorem Code.run_runs (hload : ∀ path argv, P.load path argv = none) (code : Code L C) :
    RunsAlike P K code := by
  induction code with
  | printf text next ih =>
      intro σ p s s' stop hm hrun hstop
      obtain ⟨forks, hp⟩ := hm.here
      exact Runs.of_emit (.run p 0) (.running next) s.stdin (.printed text) hm hp
        (System.step_run hp rfl 0) rfl fun hm₁ => ih hm₁ hrun hstop
  | perror text next ih =>
      intro σ p s s' stop hm hrun hstop
      obtain ⟨forks, hp⟩ := hm.here
      exact Runs.of_emit (.run p 0) (.running next) s.stdin (.perror text) hm hp
        (System.step_run hp rfl 0) rfl fun hm₁ => ih hm₁ hrun hstop
  | scanf capacity n next ih =>
      intro σ p s s' stop hm hrun hstop
      obtain ⟨forks, hp⟩ := hm.here
      have hstep := System.step_run (P := P) hp rfl 0
      rw [Code.run] at hrun
      rcases hscan : Library.scanf n s.stdin with ⟨ws, rest⟩
      simp only [System.advance, hscan] at hstep hrun
      by_cases hfit : (ws.all (·.length < capacity)) = true
      · rw [if_pos hfit] at hrun hstep
        exact Runs.of_emit (.run p 0) (.running (next (scanfResult ws) (ws.map cString))) rest
          (.scanned ws rest.length) hm hp hstep rfl fun hm₁ => ih _ _ hm₁ hrun hstop
      · rw [if_neg hfit] at hrun
        cases hrun
        exact absurd rfl hstop
  | fgets size next ih =>
      intro σ p s s' stop hm hrun hstop
      obtain ⟨forks, hp⟩ := hm.here
      have hstep := System.step_run (P := P) hp rfl 0
      rw [Code.run] at hrun
      by_cases hnil : s.stdin = []
      · rw [if_pos hnil] at hrun
        simp only [System.advance, if_pos hnil] at hstep
        exact Runs.of_emit (.run p 0) (.running (next none)) s.stdin (.got none) hm hp hstep rfl
          fun hm₁ => ih _ hm₁ hrun hstop
      · rw [if_neg hnil] at hrun
        rcases hgot : Library.fgets (size - 1) s.stdin with ⟨line, rest⟩
        simp only [System.advance, if_neg hnil, hgot] at hstep hrun
        exact Runs.of_emit (.run p 0) (.running (next (some line))) rest (.got (some line)) hm hp
          hstep rfl fun hm₁ => ih _ hm₁ hrun hstop
  | call c next ih =>
      intro σ p s s' stop hm hrun hstop
      obtain ⟨forks, hp⟩ := hm.here
      exact Runs.of_emit (.run p (K.answer s.events c)) (.running (next (K.answer s.events c)))
        s.stdin (.called c (K.answer s.events c)) hm hp (System.step_run hp rfl _) rfl
        fun hm₁ => ih _ hm₁ hrun hstop
  | fork next ih =>
      intro σ p s s' stop hm hrun hstop
      exact Runs.of_fork_run (fun answer => ih answer) hm hrun hstop
  | wait next ih =>
      intro σ p s s' stop hm hrun hstop
      rw [Code.run] at hrun
      by_cases hz : s.zombies = 0
      · rw [if_pos hz] at hrun
        obtain ⟨forks, hp⟩ := hm.here
        have hstep := System.step_run (P := P) hp rfl (-1)
        simp only [System.advance, if_true, hm.childless hz _ hp] at hstep
        exact Runs.of_move (.run p (-1)) (.running next) s hm hp hstep rfl rfl rfl hm.events
          fun hm₁ => ih hm₁ hrun hstop
      · rw [if_neg hz] at hrun
        obtain ⟨n, σ₁, hstep, hm₁, hframe⟩ := hm.wait hz
        exact Runs.of_step (.run p n) hstep hframe (ih hm₁ hrun hstop)
  | execl path argv failed ih =>
      intro σ p s s' stop hm hrun hstop
      obtain ⟨forks, hp⟩ := hm.here
      rw [Code.run] at hrun
      by_cases hexec : K.execFails s.events = true
      · rw [if_pos hexec] at hrun
        exact Runs.of_emit (.fails p) (.running failed) s.stdin (.execed path argv true) hm hp
          (System.step_fails hp rfl) rfl fun hm₁ => ih hm₁ hrun hstop
      · rw [if_neg hexec] at hrun
        cases hrun
        have hstep := System.step_run (P := P) hp rfl 0
        simp only [System.advance, hload path argv] at hstep
        exact Runs.of_emit (.run p 0) (.foreign path argv) s.stdin (.execed path argv false) hm hp
          hstep rfl fun hm₁ => Runs.of_mirrors (.execed path argv) hm₁
  | goto l =>
      intro σ p s s' stop hm hrun hstop
      cases hrun
      exact Runs.of_mirrors (.goto l) hm
  | exit status =>
      intro σ p s s' stop hm hrun hstop
      obtain ⟨forks, hp⟩ := hm.here
      cases hrun
      exact Runs.of_move (.run p 0) (.zombie status) s hm hp (System.step_run hp rfl 0) rfl rfl rfl
        hm.events fun hm₁ => Runs.of_mirrors (.exited status) hm₁
  | undefined =>
      intro σ p s s' stop hm hrun hstop
      cases hrun
      exact absurd rfl hstop

/-! ## §4. A run. -/

/-- What comes behind a turn. -/
theorem Runs.trans {stop₁ : Stop L} (h : Runs P p σ stop₁ s₁)
    (hnext : ∀ {σ₂ : System L C} {st₂ : Status L C}, stop₁.Leaves st₂ → Mirrors σ₂ p st₂ s₁ →
      Runs P p σ₂ stop s') : Runs P p σ stop s' := by
  obtain ⟨σ₂, st₂, hreach₂, hleaves₂, hm₂, hframe₂⟩ := h
  obtain ⟨σ', st, hreach, hleaves, hm, hframe⟩ := hnext hleaves₂ hm₂
  refine ⟨σ', st, hreach₂.trans hreach, hleaves, hm, ?_⟩
  intro p' hp'
  rw [hframe p' hp', hframe₂ p' hp']

theorem execute_runs (hload : ∀ path argv, P.load path argv = none) (fuel : Nat) :
    ∀ {l : L} {σ : System L C} {s s' : Console C} {stop : Stop L},
      Mirrors σ p (.running (.goto l)) s → execute K P.code fuel l s = some (stop, s') →
        stop ≠ .undefined → Runs P p σ stop s' := by
  induction fuel with
  | zero =>
      intro l σ s s' stop hm h hstop
      cases h
  | succ fuel ih =>
      intro l σ s s' stop hm h hstop
      obtain ⟨forks, hp⟩ := hm.here
      refine Runs.of_move (.run p 0) (.running (P.code l)) s hm hp (System.step_run hp rfl 0)
        rfl rfl rfl hm.events fun hm₁ => ?_
      rcases hrun : (P.code l).run K s with ⟨stop₁, s₁⟩
      by_cases hgoto : ∃ l', stop₁ = .goto l'
      · obtain ⟨l', rfl⟩ := hgoto
        rw [execute_goto hrun] at h
        refine Runs.trans (Code.run_runs hload _ hm₁ hrun (by intro h; cases h)) ?_
        intro σ₂ st₂ hleaves hm₂
        cases hleaves
        exact ih hm₂ h hstop
      · rw [execute_stop hrun fun l' hl => hgoto ⟨l', hl⟩] at h
        cases h
        exact Code.run_runs hload _ hm₁ hrun hstop

/-- At first the program stands at its first label. -/
theorem Mirrors.start (l : L) (stdin : List UInt8) :
    Mirrors (System.start l stdin : System L C) [] (.running (.goto l)) (Console.start stdin) := by
  refine ⟨Table.Family.start l stdin, ⟨0, rfl⟩, ?_, ?_, rfl⟩
  · intro n c hc
    rw [Table.start_of_ne (List.cons_ne_nil n [])] at hc
    cases hc
  · exact Finset.card_eq_zero.mpr (Table.left_of_forks_zero (Table.start_root l stdin) rfl)

/-- **WHAT A PROGRAM DOES ALONE, THE MACHINE OF ALL PROCESSES CAN DO**: one of
its runs has the same trace, and ends in the same way. -/
theorem execute_reaches (hload : ∀ path argv, P.load path argv = none) {fuel : Nat} {l : L}
    {stdin : List UInt8} (h : execute K P.code fuel l (Console.start stdin) = some (stop, s'))
    (hstop : stop ≠ .undefined) :
    ∃ σ, Reaches (System.step P) (System.start l stdin) σ ∧ σ.events = s'.events ∧
      ∃ q, σ.process [] = some q ∧ stop.Leaves q.status ∧ q.stdin = s'.stdin := by
  obtain ⟨σ, st, hreach, hleaves, hm, -⟩ :=
    execute_runs hload fuel (Mirrors.start l stdin) h hstop
  obtain ⟨forks, hp⟩ := hm.here
  exact ⟨σ, hreach, hm.events, _, hp, hleaves, rfl⟩

end sequential

end ConcurrencyCrypto.Library
