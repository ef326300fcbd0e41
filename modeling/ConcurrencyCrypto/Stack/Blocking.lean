/-
  ConcurrencyCrypto.Stack.Blocking
  ────────────────────────────────
  **WHEN ALL THREADS ARE BLOCKED.**

  Every thread decides at random what it calls, and nobody looks at what the
  others wait for.  So all can wait for a free slot at once, or all for an
  item, and then no thread is left to help the others out.  That is the only
  way to block: neither the mutex nor a semaphore loses a wakeup.

    • `blocked_iff` — no thread can step exactly if all push on a full stack
                      or all pop from an empty one; each of the two happens.
-/
import ConcurrencyCrypto.Stack.Safety

namespace ConcurrencyCrypto.Stack

open ConcurrencyCrypto.Library

variable {T : Type}

/-! ## §1. Who has the mutex. -/

/-- Between `pthread_mutex_lock` and `pthread_mutex_unlock`. -/
def Pc.holds : Pc → Bool
  | .pushSection _ | .pushUnlock | .popSection | .popUnlock _ => true
  | _ => false

/-- The mutex is with the thread between its lock and its unlock. -/
def Owned (s : State T) : Prop := ∀ t, (s.pc t).holds = true ↔ s.mutex = some t

theorem Owned.self {s : State T} {t : T} (h : Owned s) (hholds : (s.pc t).holds = true) :
    s.mutex = some t :=
  (h t).mp hholds

section owner
variable [DecidableEq T] {s s' : State T} {t : T}

/-- A label that holds as much as the last one. -/
theorem Owned.same (h : Owned s) {pc : Pc} (hpc : pc.holds = (s.pc t).holds)
    (hmutex : s'.mutex = s.mutex) (hs' : s'.pc = Function.update s.pc t pc) : Owned s' := by
  intro u
  rw [hmutex, hs']
  by_cases hu : u = t
  · rw [hu, Function.update_self, hpc]
    exact h t
  · rw [Function.update_of_ne hu]
    exact h u

/-- The mutex is taken. -/
theorem Owned.lock (h : Owned s) (hfree : s.mutex = none) {pc : Pc} (hpc : pc.holds = true)
    (hmutex : s'.mutex = some t) (hs' : s'.pc = Function.update s.pc t pc) : Owned s' := by
  intro u
  rw [hmutex, hs']
  by_cases hu : u = t
  · rw [hu, Function.update_self]
    exact iff_of_true hpc rfl
  · rw [Function.update_of_ne hu]
    refine iff_of_false ?_ fun heq => hu (Option.some.inj heq).symm
    intro hholds
    have hown := h.self hholds
    rw [hfree] at hown
    cases hown

/-- The mutex is given back. -/
theorem Owned.unlock (h : Owned s) (hheld : (s.pc t).holds = true) {pc : Pc}
    (hpc : pc.holds = false) (hmutex : s'.mutex = none)
    (hs' : s'.pc = Function.update s.pc t pc) : Owned s' := by
  intro u
  rw [hmutex, hs']
  refine iff_of_false ?_ nofun
  by_cases hu : u = t
  · rw [hu, Function.update_self, hpc]
    decide
  · rw [Function.update_of_ne hu]
    intro hholds
    have hown := (h.self hheld).symm.trans (h.self hholds)
    exact hu (Option.some.inj hown).symm

theorem Owned.thread (h : Owned s) (hstep : threadStep s t = some s') : Owned s' := by
  unfold threadStep at hstep
  split at hstep
  next => cases hstep
  next num hpc =>
    split at hstep
    · cases hstep
    · injection hstep with hstep
      rw [← hstep]
      exact h.same (by rw [hpc]; rfl) rfl rfl
  next num hpc =>
    split at hstep
    next hfree =>
      injection hstep with hstep
      rw [← hstep]
      exact h.lock hfree rfl rfl rfl
    next => cases hstep
  next num hpc =>
    injection hstep with hstep
    rw [← hstep]
    exact h.same (by rw [hpc]; rfl) rfl rfl
  next hpc =>
    injection hstep with hstep
    rw [← hstep]
    exact h.unlock (by rw [hpc]; rfl) rfl rfl rfl
  next hpc =>
    injection hstep with hstep
    rw [← hstep]
    exact h.same (by rw [hpc]; rfl) rfl rfl
  next hpc =>
    split at hstep
    · cases hstep
    · injection hstep with hstep
      rw [← hstep]
      exact h.same (by rw [hpc]; rfl) rfl rfl
  next hpc =>
    split at hstep
    next hfree =>
      injection hstep with hstep
      rw [← hstep]
      exact h.lock hfree rfl rfl rfl
    next => cases hstep
  next hpc =>
    injection hstep with hstep
    rw [← hstep]
    exact h.same (by rw [hpc]; rfl) rfl rfl
  next val hpc =>
    injection hstep with hstep
    rw [← hstep]
    exact h.unlock (by rw [hpc]; rfl) rfl rfl rfl
  next val hpc =>
    injection hstep with hstep
    rw [← hstep]
    exact h.same (by rw [hpc]; rfl) rfl rfl

/-- Where a call leads. -/
def Call.entry : Call → Pc
  | .stkPush num => .pushWait num
  | .stkPop => .popWait

theorem step_call (c : Call) :
    step s (.call t c) = if s.pc t = .idle then some (s.goto t c.entry) else none := by
  cases c with
  | stkPush num => rfl
  | stkPop => rfl

theorem Owned.next (h : Owned s) {a : Action T} (hstep : step s a = some s') : Owned s' := by
  cases a with
  | step t => exact h.thread hstep
  | call t c =>
      rw [step_call] at hstep
      split at hstep
      next hpc =>
        injection hstep with hstep
        rw [← hstep]
        exact h.same (by rw [hpc]; cases c <;> rfl) rfl rfl
      next => cases hstep

theorem Reachable.owned {N : Nat} (h : Reachable N s) : Owned s := by
  obtain ⟨stk, hreach⟩ := h
  exact hreach.invariant (I := Owned) (fun _ => iff_of_false nofun nofun)
    fun _ _ _ hs hstep => hs.next hstep

end owner

/-! ## §2. The blocked states. -/

/-- No thread can step. -/
def State.Blocked [DecidableEq T] (s : State T) : Prop := ∀ a, step s a = none

/-- All threads wait for a free slot, and the stack is full. -/
def State.AllPush (N : Nat) (s : State T) : Prop :=
  (∀ t, ∃ num, s.pc t = .pushWait num) ∧ s.idx = N

/-- All threads wait for an item, and the stack is empty. -/
def State.AllPop (s : State T) : Prop := (∀ t, s.pc t = .popWait) ∧ s.idx = 0

section blocked
variable [DecidableEq T] {s : State T} {t : T}

/-- **Who is blocked** waits: for a slot, for an item, or for the mutex. -/
theorem waits_of_blocked (h : s.Blocked) (t : T) :
    (∃ num, s.pc t = .pushWait num ∧ s.isEmpty = 0) ∨ (s.pc t = .popWait ∧ s.isFull = 0) ∨
      (s.mutex ≠ none ∧ (s.pc t).holds = false) := by
  have hthread : threadStep s t = none := h (.step t)
  have hcall := h (.call t .stkPop)
  rw [step_call] at hcall
  unfold threadStep at hthread
  cases hpc : s.pc t with
  | idle =>
      rw [if_pos hpc] at hcall
      cases hcall
  | pushWait num =>
      rw [hpc] at hthread
      refine Or.inl ⟨num, rfl, ?_⟩
      by_contra hne
      simp [hne] at hthread
  | popWait =>
      rw [hpc] at hthread
      refine Or.inr (Or.inl ⟨rfl, ?_⟩)
      by_contra hne
      simp [hne] at hthread
  | pushLock num =>
      rw [hpc] at hthread
      refine Or.inr (Or.inr ⟨?_, rfl⟩)
      intro hfree
      simp [hfree] at hthread
  | popLock =>
      rw [hpc] at hthread
      refine Or.inr (Or.inr ⟨?_, rfl⟩)
      intro hfree
      simp [hfree] at hthread
  | _ =>
      rw [hpc] at hthread
      cases hthread

/-- The mutex is never what all wait for. -/
theorem free_of_blocked (hown : Owned s) (h : s.Blocked) : s.mutex = none := by
  cases hmutex : s.mutex with
  | none => rfl
  | some t =>
      have hholds : (s.pc t).holds = true := (hown t).mpr hmutex
      rcases waits_of_blocked h t with ⟨num, hpc, -⟩ | ⟨hpc, -⟩ | ⟨-, hfalse⟩
      · rw [hpc] at hholds
        cases hholds
      · rw [hpc] at hholds
        cases hholds
      · rw [hholds] at hfalse
        cases hfalse

/-- A state in which all wait at a semaphore that is at zero. -/
theorem blocked_of_waits (h : ∀ t, (∃ num, s.pc t = .pushWait num ∧ s.isEmpty = 0) ∨
    (s.pc t = .popWait ∧ s.isFull = 0)) : s.Blocked := by
  intro a
  cases a with
  | call t c =>
      rw [step_call]
      refine if_neg ?_
      rcases h t with ⟨num, hpc, -⟩ | ⟨hpc, -⟩
      · rw [hpc]
        exact nofun
      · rw [hpc]
        exact nofun
  | step t =>
      show threadStep s t = none
      unfold threadStep
      rcases h t with ⟨num, hpc, hzero⟩ | ⟨hpc, hzero⟩
      · rw [hpc]
        exact if_pos hzero
      · rw [hpc]
        exact if_pos hzero

variable [Fintype T] {N : Nat}

omit [DecidableEq T] in
/-- Threads that wait hold no slot and no item, so the semaphores count the
whole array. -/
theorem counts_of_waiting {st : List Int} (hinv : Invariant N s st)
    (hwait : ∀ t, (∃ num, s.pc t = .pushWait num) ∨ s.pc t = .popWait) :
    s.isFull = st.length ∧ s.isEmpty + st.length = N := by
  have hslots : s.isEmpty + st.length + ∑ t, (s.pc t).slot = N := hinv.slots
  have hitems : s.isFull + ∑ t, (s.pc t).item = st.length := hinv.items
  have hslot : ∑ t, (s.pc t).slot = 0 := by
    refine Finset.sum_eq_zero fun t _ => ?_
    rcases hwait t with ⟨num, hpc⟩ | hpc
    · rw [hpc]
      rfl
    · rw [hpc]
      rfl
  have hitem : ∑ t, (s.pc t).item = 0 := by
    refine Finset.sum_eq_zero fun t _ => ?_
    rcases hwait t with ⟨num, hpc⟩ | hpc
    · rw [hpc]
      rfl
    · rw [hpc]
      rfl
  omega

theorem allPush_or_allPop [Nonempty T] (hN : 0 < N) {st : List Int} (hinv : Invariant N s st)
    (hown : Owned s) (h : s.Blocked) : s.AllPush N ∨ s.AllPop := by
  have hfree := free_of_blocked hown h
  have hwaits : ∀ t, (∃ num, s.pc t = .pushWait num ∧ s.isEmpty = 0) ∨
      (s.pc t = .popWait ∧ s.isFull = 0) :=
    fun t => (waits_of_blocked h t).elim Or.inl fun hrest =>
      hrest.elim Or.inr fun hlock => absurd hfree hlock.1
  obtain ⟨hfull, hempty⟩ := counts_of_waiting hinv fun t => (hwaits t).elim
    (fun hpush => Or.inl (hpush.imp fun _ hpc => hpc.1)) fun hpop => Or.inr hpop.1
  have hidx := hinv.stores.idx
  -- one of them says which of the two it is
  obtain ⟨t₀⟩ := ‹Nonempty T›
  rcases hwaits t₀ with ⟨_, -, hzero⟩ | ⟨-, hzero⟩
  · refine Or.inl ⟨fun t => ?_, by omega⟩
    rcases hwaits t with ⟨num, hpc, -⟩ | ⟨-, hnone⟩
    · exact ⟨num, hpc⟩
    · omega
  · refine Or.inr ⟨fun t => ?_, by omega⟩
    rcases hwaits t with ⟨num, -, hnone⟩ | ⟨hpc, -⟩
    · omega
    · exact hpc

theorem blocked_of_allPush {st : List Int} (hinv : Invariant N s st) (h : s.AllPush N) :
    s.Blocked := by
  obtain ⟨hwait, hidx⟩ := h
  obtain ⟨-, hempty⟩ := counts_of_waiting hinv fun t => Or.inl (hwait t)
  have hlen := hinv.stores.idx
  refine blocked_of_waits fun t => ?_
  obtain ⟨num, hpc⟩ := hwait t
  exact Or.inl ⟨num, hpc, by omega⟩

theorem blocked_of_allPop {st : List Int} (hinv : Invariant N s st) (h : s.AllPop) :
    s.Blocked := by
  obtain ⟨hwait, hidx⟩ := h
  obtain ⟨hfull, -⟩ := counts_of_waiting hinv fun t => Or.inr (hwait t)
  have hlen := hinv.stores.idx
  exact blocked_of_waits fun t => Or.inr ⟨hwait t, by omega⟩

end blocked

/-! ## §3. Both are reached. -/

section reached
variable [DecidableEq T] {s : State T} {N : Nat}

/-- All who have not called yet call. -/
theorem reaches_calls [Fintype T] (hidle : s.pc = fun _ => .idle) (c : Call) :
    Reaches step s { s with pc := fun _ => c.entry } := by
  have hsome : ∀ called : Finset T,
      Reaches step s { s with pc := fun t => if t ∈ called then c.entry else .idle } := by
    intro called
    induction called using Finset.induction_on with
    | empty =>
        have hsame : ({ s with pc := fun t => if t ∈ (∅ : Finset T) then c.entry else .idle } :
            State T) = s := by
          simp [← hidle]
        rw [hsame]
        exact Relation.ReflTransGen.refl
    | insert t called ht ih =>
        refine ih.tail ⟨.call t c, ?_⟩
        rw [step_call, if_pos (if_neg ht)]
        unfold State.goto
        congr 2
        funext u
        by_cases hu : u = t
        · rw [hu, Function.update_self, if_pos (Finset.mem_insert_self t called)]
        · rw [Function.update_of_ne hu]
          simp [hu]
  have hall := hsome Finset.univ
  simp only [Finset.mem_univ, if_true] at hall
  exact hall

/-- `k` values are stored, and nobody is at work. -/
structure Rests (N k : Nat) (s : State T) : Prop where
  idle : s.pc = fun _ => .idle
  free : s.mutex = none
  full : s.isFull = k
  empty : s.isEmpty + k = N
  idx : s.idx = k

/-- One thread pushes one more value. -/
theorem Rests.push {k : Nat} (h : Rests N k s) (hk : k < N) (t : T) :
    ∃ s', Reaches step s s' ∧ Rests N (k + 1) s' := by
  have hempty : s.isEmpty ≠ 0 := by
    have := h.empty
    omega
  have hrun : runActions step s
      [.call t (.stkPush 0), .step t, .step t, .step t, .step t, .step t]
      = some { (s.pushSection t 0) with
          isEmpty := s.isEmpty - 1
          isFull := s.isFull + 1
          mutex := none
          pc := fun _ => .idle } := by
    simp [runActions, step, threadStep, State.goto, State.pushSection, h.idle, h.free, hempty]
  have := h.empty
  have := h.full
  have := h.idx
  exact ⟨_, reaches_of_run _ hrun, rfl, rfl, by show s.isFull + 1 = k + 1; omega,
    by show s.isEmpty - 1 + (k + 1) = N; omega,
    by show s.idx + 1 = ((k + 1 : Nat) : Int); omega⟩

theorem reachable_rests (t : T) {k : Nat} (hk : k ≤ N) :
    ∃ s : State T, Reachable N s ∧ Rests N k s := by
  induction k with
  | zero =>
      exact ⟨State.start N fun _ => 0, ⟨_, Relation.ReflTransGen.refl⟩, rfl, rfl, rfl, rfl, rfl⟩
  | succ k ih =>
      obtain ⟨s, ⟨stk, hs⟩, hrests⟩ := ih (Nat.le_of_succ_le hk)
      obtain ⟨s', hs', hnext⟩ := hrests.push hk t
      exact ⟨s', ⟨stk, hs.trans hs'⟩, hnext⟩

end reached

/-! ## §4. There is always a way to it. -/

/-- An action other than a call of `stkPop`. -/
def Action.pushes : Action T → Prop
  | .call _ .stkPop => False
  | _ => True

/-- The steps a thread has left while it only pushes.  Each push it completes
takes a free slot for good, each pop makes one for another push of six
steps. -/
def Pc.left : Pc → Nat
  | .idle => 6
  | .pushWait _ => 5
  | .pushLock _ => 4
  | .pushSection _ => 3
  | .pushUnlock => 8
  | .pushPost => 7
  | .popWait => 17
  | .popLock => 16
  | .popSection => 15
  | .popUnlock _ => 8
  | .popPost _ => 7

def State.left [Fintype T] (N : Nat) (s : State T) : Nat :=
  6 * (N - s.idx).toNat + ∑ t, (s.pc t).left

section everywhere
variable [DecidableEq T] [Fintype T] {N : Nat} {s s' : State T} {t : T}

/-- What a new label does to the sum. -/
theorem sum_left_goto (s : State T) (t : T) (pc : Pc) :
    ∑ u, (Function.update s.pc t pc u).left + (s.pc t).left = ∑ u, (s.pc u).left + pc.left := by
  have hledger : Conserved pc.left (fun u => (s.pc u).left)
      (pc.left + ∑ u, (s.pc u).left) := rfl
  have hnext : (s.pc t).left + ∑ u, (Function.update s.pc t pc u).left
      = pc.left + ∑ u, (s.pc u).left :=
    ledger_goto (s := s) (t := t) hledger (by omega)
  omega

theorem left_lt {pc : Pc} (hs' : s'.pc = Function.update s.pc t pc)
    (hlt : 6 * (N - s'.idx).toNat + pc.left < 6 * (N - s.idx).toNat + (s.pc t).left) :
    s'.left N < s.left N := by
  have hsum := sum_left_goto s t pc
  unfold State.left
  rw [hs']
  omega

/-- A step outside the sections. -/
theorem left_lt_of_same {pc : Pc} (hs' : s'.pc = Function.update s.pc t pc)
    (hidx : s'.idx = s.idx) (hlt : pc.left < (s.pc t).left) : s'.left N < s.left N :=
  left_lt hs' (by rw [hidx]; omega)

theorem thread_left_lt {st : List Int} (hinv : Invariant N s st)
    (hstep : threadStep s t = some s') : s'.left N < s.left N := by
  have hlen := hinv.stores.idx
  unfold threadStep at hstep
  split at hstep
  next => cases hstep
  next num hpc =>
    split at hstep
    · cases hstep
    · injection hstep with hstep
      rw [← hstep]
      exact left_lt_of_same rfl rfl (by rw [hpc]; show 4 < 5; decide)
  next num hpc =>
    split at hstep
    · injection hstep with hstep
      rw [← hstep]
      exact left_lt_of_same rfl rfl (by rw [hpc]; show 3 < 4; decide)
    · cases hstep
  next num hpc =>
    injection hstep with hstep
    rw [← hstep]
    have hroom := hinv.push_room hpc
    refine left_lt rfl ?_
    rw [hpc]
    show 6 * (N - (s.idx + 1)).toNat + 8 < 6 * (N - s.idx).toNat + 3
    omega
  next hpc =>
    injection hstep with hstep
    rw [← hstep]
    exact left_lt_of_same rfl rfl (by rw [hpc]; decide)
  next hpc =>
    injection hstep with hstep
    rw [← hstep]
    exact left_lt_of_same rfl rfl (by rw [hpc]; decide)
  next hpc =>
    split at hstep
    · cases hstep
    · injection hstep with hstep
      rw [← hstep]
      exact left_lt_of_same rfl rfl (by rw [hpc]; decide)
  next hpc =>
    split at hstep
    · injection hstep with hstep
      rw [← hstep]
      exact left_lt_of_same rfl rfl (by rw [hpc]; decide)
    · cases hstep
  next hpc =>
    injection hstep with hstep
    rw [← hstep]
    refine left_lt rfl ?_
    rw [hpc]
    show 6 * (N - (s.idx - 1)).toNat + 8 < 6 * (N - s.idx).toNat + 15
    omega
  next val hpc =>
    injection hstep with hstep
    rw [← hstep]
    exact left_lt_of_same rfl rfl (by rw [hpc]; show 7 < 8; decide)
  next val hpc =>
    injection hstep with hstep
    rw [← hstep]
    exact left_lt_of_same rfl rfl (by rw [hpc]; show 6 < 7; decide)

theorem push_left_lt {st : List Int} (hinv : Invariant N s st) {a : Action T}
    (ha : a.pushes) (hstep : step s a = some s') : s'.left N < s.left N := by
  cases a with
  | step t => exact thread_left_lt hinv hstep
  | call t c =>
      cases c with
      | stkPop => exact absurd ha not_false
      | stkPush num =>
          rw [step_call] at hstep
          split at hstep
          next hpc =>
            injection hstep with hstep
            rw [← hstep]
            exact left_lt_of_same rfl rfl (by rw [hpc]; show 5 < 6; decide)
          next => cases hstep

omit [Fintype T] in
/-- A state from which nobody can go on pushing allows no other step either. -/
theorem blocked_of_pushes (h : ∀ a : Action T, a.pushes → step s a = none) : s.Blocked := by
  intro a
  cases a with
  | step t => exact h (.step t) trivial
  | call t c =>
      have hpush := h (.call t (.stkPush 0)) trivial
      rw [step_call] at hpush ⊢
      split at hpush
      next => cases hpush
      next hbusy => exact if_neg hbusy

/-- **From anywhere to a standstill**: if the threads happen to push only, they
come to block. -/
theorem Reachable.can_block (h : Reachable N s) : ∃ s', Reaches step s s' ∧ s'.Blocked := by
  have hlower : ∀ (s : State T) a s', (∃ st, Invariant N s st) → a.pushes →
      step s a = some s' → (∃ st, Invariant N s' st) ∧ s'.left N < s.left N := by
    rintro s a s' ⟨st, hst⟩ ha hstep
    exact ⟨hst.next hstep, push_left_lt hst ha hstep⟩
  obtain ⟨s', hreach, -, hend⟩ :=
    exists_end_of_measure Action.pushes _ _ hlower s h.invariant
  exact ⟨s', hreach.reaches, blocked_of_pushes hend⟩

end everywhere

/-- **WHEN ALL THREADS ARE BLOCKED.**  In every reachable state, no thread can
step exactly if all of them are in `stkPush` on a full stack or all are in
`stkPop` on an empty one.  Whatever the capacity and the number of threads,
both are reached, and from no reachable state can a blocked one be avoided for
certain. -/
theorem blocked_iff [DecidableEq T] [Fintype T] [Nonempty T] {N : Nat} (hN : 0 < N) :
    (∀ s : State T, Reachable N s → (s.Blocked ↔ s.AllPush N ∨ s.AllPop)) ∧
      (∀ s : State T, Reachable N s → ∃ s', Reaches step s s' ∧ s'.Blocked) ∧
      (∃ s : State T, Reachable N s ∧ s.AllPush N) ∧
      ∃ s : State T, Reachable N s ∧ s.AllPop := by
  obtain ⟨t₀⟩ := ‹Nonempty T›
  refine ⟨?_, fun s hs => hs.can_block, ?_, ?_⟩
  · intro s hs
    obtain ⟨st, hinv⟩ := hs.invariant
    have hnonempty : Nonempty T := ⟨t₀⟩
    exact ⟨allPush_or_allPop hN hinv hs.owned, fun h =>
      h.elim (blocked_of_allPush hinv) (blocked_of_allPop hinv)⟩
  · obtain ⟨s, ⟨stk, hs⟩, hrests⟩ := reachable_rests t₀ (Nat.le_refl N)
    exact ⟨_, ⟨stk, hs.trans (reaches_calls hrests.idle (.stkPush 0))⟩, fun _ => ⟨0, rfl⟩,
      hrests.idx⟩
  · obtain ⟨s, ⟨stk, hs⟩, hrests⟩ := reachable_rests t₀ (Nat.zero_le N)
    exact ⟨_, ⟨stk, hs.trans (reaches_calls hrests.idle .stkPop)⟩, fun _ => rfl, hrests.idx⟩

/-- The five threads and ten slots of the program. -/
theorem blocked_iff_five :
    (∀ s : State (Fin 5), Reachable 10 s → (s.Blocked ↔ s.AllPush 10 ∨ s.AllPop)) ∧
      (∀ s : State (Fin 5), Reachable 10 s → ∃ s', Reaches step s s' ∧ s'.Blocked) ∧
      (∃ s : State (Fin 5), Reachable 10 s ∧ s.AllPush 10) ∧
      ∃ s : State (Fin 5), Reachable 10 s ∧ s.AllPop :=
  blocked_iff (by decide)

end ConcurrencyCrypto.Stack
