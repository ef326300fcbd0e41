/-
  ConcurrencyCrypto.Philosophers.SharedIndex
  ──────────────────────────────────────────
  **WHEN MAIN IS FASTER.**

  Nothing makes main wait until a thread has read its index.

    • `index_read_iff` — thread `k` may read `0` and all of `k … N`, and nothing
                         else;
    • `index_race`     — so two threads can be one philosopher and eat together,
                         and one can leave the arrays.
-/
import ConcurrencyCrypto.Philosophers.Program

namespace ConcurrencyCrypto.Philosophers

open ConcurrencyCrypto.Library

variable {N : Nat}

/-! ## §1. When main is fast. -/

section fast
variable (state : Fin N → Int32)

/-- The threads below `j` are there, none has read its index yet. -/
def entered (j : Nat) : Fin N → ThreadPc :=
  fun k => if k.val < j then .entry else .unborn

/-- Main before its round `j`. -/
def Program.created (j : Nat) : Program N :=
  { Program.start state with
    i := j
    thread := entered j }

/-- Main behind the `pthread_create` of round `j`. -/
def Program.sleeping (j : Nat) : Program N :=
  { Program.start state with
    main := .sleep
    i := j
    thread := entered (j + 1) }

/-- Main at its first `pthread_join`. -/
def Program.joining : Program N :=
  { Program.start state with
    main := .join
    thread := entered N }

theorem entered_of_lt {j : Nat} {k : Fin N} (h : k.val < j) : entered j k = .entry :=
  if_pos h

theorem entered_succ {j : Nat} (hj : j < N) :
    Function.update (entered j) ⟨j, hj⟩ .entry = entered (N := N) (j + 1) := by
  funext k
  by_cases hk : k = ⟨j, hj⟩
  · rw [hk, Function.update_self]
    exact (entered_of_lt (Nat.lt_succ_self j)).symm
  · have hne : k.val ≠ j := fun h => hk (Fin.ext h)
    rw [Function.update_of_ne hk]
    unfold entered
    by_cases hlt : k.val < j
    · rw [if_pos hlt, if_pos (by omega)]
    · rw [if_neg hlt, if_neg (by omega)]

theorem step_created {j : Nat} (hj : j < N) :
    (Program.created state j).step (.main true) = some (.sleeping state j) := by
  have h : (Program.created state j).step (.main true)
      = some { Program.created state j with
          thread := Function.update (entered j) ⟨j, hj⟩ .entry
          main := .sleep } := by
    show (if _ : j < N then _ else _) = _
    rw [dif_pos hj]
    rfl
  rw [h, entered_succ hj]
  rfl

theorem reachable_created {j : Nat} (hj : j ≤ N) :
    Program.Reachable state (.created state j) := by
  induction j with
  | zero =>
      have hnobody : entered (N := N) 0 = fun _ => .unborn := by
        funext k
        exact if_neg (Nat.not_lt_zero _)
      have hstart : Program.created state 0 = Program.start state := by
        unfold Program.created
        rw [hnobody]
        rfl
      rw [hstart]
      exact Relation.ReflTransGen.refl
  | succ j ih =>
      exact ((ih (by omega)).tail ⟨_, step_created state hj⟩).tail ⟨.main true, rfl⟩

theorem reachable_sleeping {j : Nat} (hj : j < N) :
    Program.Reachable state (.sleeping state j) :=
  (reachable_created state (Nat.le_of_lt hj)).tail ⟨_, step_created state hj⟩

theorem reachable_joining : Program.Reachable state (.joining state) := by
  refine (reachable_created state (Nat.le_refl N)).tail ⟨.main true, ?_⟩
  show (if _ : N < N then _ else _) = _
  rw [dif_neg (Nat.lt_irrefl N)]
  rfl

variable {state} {s : Program N}

theorem step_thread (hdefined : s.undefined = false) (hmain : ∀ code, s.main ≠ .returned code)
    (k : Fin N) : s.step (.thread k) = s.threadStep k := by
  unfold Program.step
  rw [if_neg (by rw [hdefined]; decide)]
  split
  next code heq => exact absurd heq (hmain code)
  next => rfl

theorem step_entry (hdefined : s.undefined = false) (hmain : ∀ code, s.main ≠ .returned code)
    {k : Fin N} (hentry : s.thread k = .entry) :
    s.step (.thread k)
      = some { s with thread := Function.update s.thread k (.loop s.i .think) } := by
  rw [step_thread hdefined hmain]
  unfold Program.threadStep
  rw [hentry]

/-- A thread that has not read its index reads what `i` is now. -/
theorem reads (h : Program.Reachable state s) (hdefined : s.undefined = false)
    (hmain : ∀ code, s.main ≠ .returned code) {k : Fin N} (hentry : s.thread k = .entry) :
    ∃ s' pc, Program.Reachable state s' ∧ s'.thread k = .loop s.i pc :=
  ⟨_, .think, h.tail ⟨_, step_entry hdefined hmain hentry⟩, Function.update_self _ _ _⟩

/-- **WHICH INDEX A THREAD CAN HAVE.**  Thread `k` can come to run as philosopher
`v` exactly for `v` from `k` to `N`, which is no philosopher, and for `0`. -/
theorem index_read_iff (state : Fin N → Int32) (k : Fin N) (v : Nat) :
    (∃ s pc, Program.Reachable state s ∧ s.thread k = .loop v pc) ↔
      (k.val ≤ v ∧ v ≤ N) ∨ v = 0 := by
  constructor
  · rintro ⟨s, pc, hs, hloop⟩
    exact hs.indices.read k v pc hloop
  · have hk := k.isLt
    rintro (⟨hle, hN⟩ | rfl)
    · by_cases hv : v = k.val
      · -- its creator sleeps
        rw [hv]
        exact reads (reachable_sleeping state hk) rfl nofun (entered_of_lt (Nat.lt_succ_self _))
      · -- main has counted on
        exact reads (reachable_created state hN) rfl nofun (entered_of_lt (by omega))
    · -- main is joining
      exact reads (reachable_joining state) rfl nofun (entered_of_lt hk)

end fast

/-! ## §2. The race. -/

section race
variable {state : Fin N → Int32} {s : Program N}

/-- Nobody else's label changes when one steps alone. -/
theorem step_only {m : Nat} {t : Table N} {i : Fin N} {pc : Pc} {u : State N}
    (h : step (State.only m t i pc) i = some u) :
    u = State.only u.mutex u.table i (u.pc i) := by
  have h' := step_of_alone h rfl rfl (only_pc m t i pc)
  rw [h] at h'
  injection h' with h'
  have hpc : u.pc = Function.update (State.only m t i pc).pc i (u.pc i) := congrArg State.pc h'
  unfold State.only at hpc
  rw [Function.update_idem] at hpc
  unfold State.only
  rw [← hpc]

/-- **A thread does what its philosopher does alone.** -/
theorem reaches_of_philosopher (hdefined : s.undefined = false)
    (hmain : ∀ code, s.main ≠ .returned code) {k i : Fin N} {pc : Pc}
    (hloop : s.thread k = .loop i.val pc) {u : State N}
    (h : ReachesBy (· = i) step (State.only s.mutex s.table i pc) u) :
    Reaches Program.step s { s with
      mutex := u.mutex
      table := u.table
      thread := Function.update s.thread k (.loop i.val (u.pc i)) } := by
  suffices hall : u = State.only u.mutex u.table i (u.pc i) ∧
      Reaches Program.step s { s with
        mutex := u.mutex
        table := u.table
        thread := Function.update s.thread k (.loop i.val (u.pc i)) } from hall.2
  induction h with
  | refl =>
      refine ⟨?_, ?_⟩
      · rw [only_mutex, only_table, only_pc]
      · rw [only_mutex, only_table, only_pc, Function.update_eq_self_iff.mpr hloop.symm]
        exact Relation.ReflTransGen.refl
  | @tail u u' _ hlast ih =>
      obtain ⟨honly, hreach⟩ := ih
      obtain ⟨j, hj, hstep⟩ := hlast
      rw [hj, honly] at hstep
      refine ⟨step_only hstep, hreach.tail ⟨.thread k, ?_⟩⟩
      refine (step_thread ?_ ?_ k).trans ?_
      · exact hdefined
      · exact hmain
      · unfold Program.threadStep
        dsimp only
        rw [Function.update_self]
        dsimp only
        rw [dif_pos i.isLt]
        unfold Program.ownStep
        dsimp only
        rw [hstep]
        simp [Function.update_idem]

/-- The threads below `m` all eat as philosopher `last`, and main sleeps. -/
structure Feast (last : Fin N) (m : Nat) (s : Program N) : Prop where
  defined : s.undefined = false
  asleep : s.main = .sleep
  index : s.i = last.val
  unlocked : s.mutex = 1
  credit : s.table.eaters last = 0
  left : s.table.state (LEFT last) ≠ EATING
  right : s.table.state (RIGHT last) ≠ EATING
  thread : ∀ k, s.thread k = if k.val < m then .loop last.val .eat else .entry

/-- One more sits down. -/
theorem Feast.next (hN : 2 ≤ N) {last k : Fin N} (h : Feast last k.val s) :
    ∃ s', Reaches Program.step s s' ∧ Feast last (k.val + 1) s' := by
  have hmain : ∀ code, s.main ≠ .returned code := by
    intro code
    rw [h.asleep]
    exact nofun
  have hentry : s.thread k = .entry := by
    rw [h.thread k, if_neg (Nat.lt_irrefl _)]
  have hread := step_entry h.defined hmain hentry
  have heat : ReachesBy (· = last) step (State.only s.mutex s.table last .think)
      (State.turn (fun _ => .think) (s.table.setState last EATING) last 1 .eat) := by
    rw [h.unlocked]
    exact reaches_eat hN h.credit h.left h.right
  have hloop : Function.update s.thread k (.loop s.i .think) k = .loop last.val .think := by
    rw [Function.update_self, h.index]
  have hgoes := reaches_of_philosopher
    (s := { s with thread := Function.update s.thread k (.loop s.i .think) })
    h.defined hmain hloop heat
  refine ⟨_, Relation.ReflTransGen.head ⟨_, hread⟩ hgoes, ?_⟩
  · refine ⟨h.defined, h.asleep, h.index, rfl, h.credit, ?_, ?_, ?_⟩
    · show (s.table.setState last EATING).state (LEFT last) ≠ EATING
      rw [setState_of_ne (Neighbours.ne hN (Or.inl rfl)).symm]
      exact h.left
    · show (s.table.setState last EATING).state (RIGHT last) ≠ EATING
      rw [setState_of_ne (RIGHT_ne hN last)]
      exact h.right
    · intro j
      show Function.update (Function.update s.thread k _) k _ j = _
      rw [Function.update_idem, turn_pc]
      by_cases hjk : j = k
      · rw [hjk, Function.update_self, if_pos (Nat.lt_succ_self _)]
      · have hne : j.val ≠ k.val := fun heq => hjk (Fin.ext heq)
        rw [Function.update_of_ne hjk, h.thread j]
        by_cases hlt : j.val < k.val
        · rw [if_pos hlt, if_pos (by omega)]
        · rw [if_neg hlt, if_neg (by omega)]

theorem reachable_feast (hN : 2 ≤ N) {last : Fin N} (hlast : last.val + 1 = N)
    (hclean : ∀ i, state i ≠ HUNGRY ∧ state i ≠ EATING) {m : Nat} (hm : m ≤ N) :
    ∃ s, Program.Reachable state s ∧ Feast last m s := by
  induction m with
  | zero =>
      refine ⟨_, reachable_sleeping state last.isLt, rfl, rfl, rfl, rfl, rfl,
        (hclean _).2, (hclean _).2, ?_⟩
      intro k
      have hk := k.isLt
      rw [if_neg (Nat.not_lt_zero _)]
      exact entered_of_lt (by omega)
  | succ m ih =>
      obtain ⟨s, hs, hfeast⟩ := ih (by omega)
      obtain ⟨s', hs', hnext⟩ := hfeast.next hN (k := ⟨m, by omega⟩)
      exact ⟨s', hs.trans hs', hnext⟩

/-- A thread that has read an index outside the arrays gets to them. -/
theorem strays (hdefined : s.undefined = false) (hmain : ∀ code, s.main ≠ .returned code)
    (hunlocked : s.mutex = 1) {k : Fin N} {v : Nat} (hv : N ≤ v)
    (hloop : s.thread k = .loop v .think) :
    ∃ s', Reaches Program.step s s' ∧ s'.undefined = true ∧
      s'.thread k = .loop v .takeSection := by
  have hstray : ∀ (s : Program N) pc, s.undefined = false →
      (∀ code, s.main ≠ .returned code) → s.thread k = .loop v pc →
      s.step (.thread k) = s.strayStep k v pc := by
    intro s pc hdefined hmain hloop
    rw [step_thread hdefined hmain]
    unfold Program.threadStep
    rw [hloop]
    exact dif_neg (Nat.not_lt.mpr hv)
  have h1 : s.step (.thread k)
      = some { s with thread := Function.update s.thread k (.loop v .takeLock) } :=
    hstray s .think hdefined hmain hloop
  have h2 : ({ s with thread := Function.update s.thread k (.loop v .takeLock) } : Program N).step
      (.thread k) = some { s with
        mutex := 0
        thread := Function.update s.thread k (.loop v .takeSection) } := by
    rw [hstray { s with thread := Function.update s.thread k (.loop v .takeLock) } .takeLock
      hdefined hmain (Function.update_self _ _ _)]
    unfold Program.strayStep
    dsimp only
    rw [if_neg (by omega), Function.update_idem, hunlocked]
  have h3 := hstray
    { s with
      mutex := 0
      thread := Function.update s.thread k (.loop v .takeSection) }
    .takeSection hdefined hmain (Function.update_self _ _ _)
  exact ⟨_, Relation.ReflTransGen.refl.tail ⟨_, h1⟩ |>.tail ⟨_, h2⟩ |>.tail ⟨_, h3⟩, rfl,
    Function.update_self _ _ _⟩

/-- **THE RACE OF THE SHARED INDEX.**  Where the first `N - 1` threads are slow
to start, all `N` philosophers are the last one and eat at once.  And each
thread can be so slow that it takes the sticks of a philosopher `N`, outside
the arrays. -/
theorem index_race (hN : 2 ≤ N) (hclean : ∀ i, state i ≠ HUNGRY ∧ state i ≠ EATING) :
    (∃ s, Program.Reachable state s ∧ s.undefined = false ∧
        ∀ k, s.thread k = .loop (N - 1) .eat) ∧
      ∀ k, ∃ s, Program.Reachable state s ∧ s.undefined = true ∧
        s.thread k = .loop N .takeSection := by
  refine ⟨?_, ?_⟩
  · have hlast : (⟨N - 1, by omega⟩ : Fin N).val + 1 = N := Nat.sub_add_cancel (by omega)
    obtain ⟨s, hs, hfeast⟩ := reachable_feast hN hlast hclean (Nat.le_refl N)
    refine ⟨s, hs, hfeast.defined, fun k => ?_⟩
    rw [hfeast.thread k, if_pos k.isLt]
  · intro k
    have hentry : (Program.created state N).thread k = .entry := entered_of_lt k.isLt
    have hread := step_entry (s := Program.created state N) rfl nofun hentry
    obtain ⟨s, hs, hundefined, hloop⟩ := strays
      (s := { Program.created state N with
        thread := Function.update (Program.created state N).thread k (.loop N .think) })
      rfl nofun rfl (Nat.le_refl N) (Function.update_self _ _ _)
    exact ⟨s, ((reachable_created state (Nat.le_refl N)).tail ⟨_, hread⟩).trans hs,
      hundefined, hloop⟩

theorem index_race_two :
    (∃ s, Program.Reachable (N := 2) (fun _ => THINKING) s ∧ s.undefined = false ∧
        ∀ k, s.thread k = .loop (2 - 1) .eat) ∧
      ∀ k, ∃ s, Program.Reachable (N := 2) (fun _ => THINKING) s ∧ s.undefined = true ∧
        s.thread k = .loop 2 .takeSection :=
  index_race (by decide) fun _ => by decide

end race

end ConcurrencyCrypto.Philosophers
