/-
  ConcurrencyCrypto.Stack.Safety
  ──────────────────────────────
  **THE SHARED ARRAY IS A STACK.**

  Two ledgers say what the semaphores count: the free slots are in `isEmpty`
  or with threads, and so are the stored items in `isFull` or with threads.
  A thread at its section has a slot to fill or an item to take, whatever
  the others are doing, so the sections stay inside the array and carry out
  the operations of a sequential stack, with the arguments of the calls.
-/
import ConcurrencyCrypto.Stack.Machine

namespace ConcurrencyCrypto.Stack

open ConcurrencyCrypto.Library

variable {T : Type}

/-! ## §1. The invariant. -/

/-- `st` is stored in the array, its top at `idx - 1`. -/
structure Stores (s : State T) (st : List Int) : Prop where
  idx : s.idx = st.length
  cells : (List.range st.length).map (fun k : Nat => s.stk k) = st.reverse

/-- The thread's last section was the pop of the value it will return. -/
def LastPop (log : List (T × Lifo.Event Int)) (t : T) (val : Int) : Prop :=
  ∃ before after, log = before ++ (t, .pop val) :: after ∧ ∀ e ∈ after, e.1 ≠ t

/-- **The invariant**, with the abstract stack. -/
structure Invariant [Fintype T] (N : Nat) (s : State T) (st : List Int) : Prop where
  slots : Conserved (s.isEmpty + st.length) (fun t => (s.pc t).slot) N
  items : Conserved s.isFull (fun t => (s.pc t).item) st.length
  legal : Lifo.run [] (s.log.map Prod.snd) = some st
  stores : Stores s st
  popped : ∀ t val, (s.pc t).val = some val → LastPop s.log t val

theorem Stores.push {s : State T} {st : List Int} (h : Stores s st) (t : T) (num : Int) :
    Stores (s.pushSection t num) (num :: st) where
  idx := by
    show s.idx + 1 = ((num :: st).length : Int)
    rw [h.idx, List.length_cons]
    rfl
  cells := by
    show (List.range (st.length + 1)).map
      (fun k : Nat => Function.update s.stk s.idx num k) = (num :: st).reverse
    rw [List.range_succ, List.map_append, List.reverse_cons, ← h.cells, h.idx]
    congr 1
    · refine List.map_congr_left fun k hk => Function.update_of_ne ?_ _ _
      have := List.mem_range.mp hk
      omega
    · simp

/-- The pop reads the top. -/
theorem Stores.top {s : State T} {v : Int} {st : List Int} (h : Stores s (v :: st)) :
    s.stk (s.idx - 1) = v ∧ (List.range st.length).map (fun k : Nat => s.stk k) = st.reverse := by
  have hcells := h.cells
  rw [List.length_cons, List.range_succ, List.map_append, List.reverse_cons] at hcells
  obtain ⟨hinit, hlast⟩ := List.append_inj' hcells rfl
  have hlast : s.stk (st.length : Int) = v := by simpa using hlast
  refine ⟨?_, hinit⟩
  rw [h.idx, List.length_cons]
  simpa using hlast

theorem Stores.contents {s : State T} {st : List Int} (h : Stores s st) :
    s.contents = st := by
  unfold State.contents
  rw [h.idx, Int.toNat_natCast, h.cells, List.reverse_reverse]

theorem LastPop.mono {log : List (T × Lifo.Event Int)} {t u : T} {val : Int}
    (h : LastPop log t val) (hu : u ≠ t) (e : Lifo.Event Int) :
    LastPop (log ++ [(u, e)]) t val := by
  obtain ⟨before, after, heq, hafter⟩ := h
  refine ⟨before, after ++ [(u, e)], by rw [heq]; simp, ?_⟩
  intro x hx
  rcases List.mem_append.mp hx with hx | hx
  · exact hafter x hx
  · rw [List.mem_singleton.mp hx]
    exact hu

section steps
variable [Fintype T] {N : Nat} {s : State T} {st : List Int} {t : T}

theorem invariant_start (N : Nat) (stk : Int → Int) :
    Invariant N (State.start N stk : State T) [] where
  slots := by simp [Conserved, State.start, Pc.slot]
  items := by simp [Conserved, State.start, Pc.item]
  legal := rfl
  stores := ⟨rfl, rfl⟩
  popped := nofun

/-- No thread holds more than all of them. -/
theorem held_le_sum (f : Pc → Nat) (t : T) : f (s.pc t) ≤ ∑ u, f (s.pc u) :=
  Finset.single_le_sum (f := fun u => f (s.pc u)) (fun _ _ => Nat.zero_le _)
    (Finset.mem_univ t)

/-- A thread that is to push has room. -/
theorem Invariant.push_room (h : Invariant N s st) {num : Int}
    (hpc : s.pc t = .pushSection num) : st.length < N := by
  have hsum : s.isEmpty + st.length + ∑ u, (s.pc u).slot = N := h.slots
  have hslot := held_le_sum (s := s) Pc.slot t
  rw [hpc] at hslot
  have hslot : 1 ≤ ∑ u, (s.pc u).slot := hslot
  omega

/-- A thread that is to pop has something to pop. -/
theorem Invariant.pop_pos (h : Invariant N s st) (hpc : s.pc t = .popSection) :
    ∃ v st', st = v :: st' := by
  have hitem := held_le_sum (s := s) Pc.item t
  have hle := h.items.held_le
  rw [hpc] at hitem
  cases st with
  | nil => exact absurd (Nat.le_trans hitem hle) (by decide)
  | cons v st' => exact ⟨v, st', rfl⟩

theorem Pc.inFlight_eq (pc : Pc) : pc.inFlight = pc.slot + pc.item := by
  cases pc <;> rfl

theorem Invariant.in_flight (h : Invariant N s st) :
    s.isEmpty + s.isFull + ∑ t, (s.pc t).inFlight = N := by
  have hslots : s.isEmpty + st.length + ∑ t, (s.pc t).slot = N := h.slots
  have hitems : s.isFull + ∑ t, (s.pc t).item = st.length := h.items
  have hsum : ∑ t, (s.pc t).inFlight = ∑ t, (s.pc t).slot + ∑ t, (s.pc t).item := by
    rw [← Finset.sum_add_distrib]
    exact Finset.sum_congr rfl fun t _ => Pc.inFlight_eq (s.pc t)
  omega

variable [DecidableEq T]

/-- What a new label does to a ledger. -/
theorem ledger_goto {f : Pc → Nat} {value value' total total' : Nat} {pc : Pc}
    (h : Conserved value (fun u => f (s.pc u)) total)
    (hbalance : value' + f pc + total = value + f (s.pc t) + total') :
    Conserved value' (fun u => f (Function.update s.pc t pc u)) total' := by
  refine h.exchange t ?_ ?_
  · intro u hu
    rw [Function.update_of_ne hu]
  · rw [Function.update_self]
    exact hbalance

omit [Fintype T] in
theorem popped_goto {pc : Pc} {log : List (T × Lifo.Event Int)}
    (hother : ∀ u val, u ≠ t → (s.pc u).val = some val → LastPop log u val)
    (hself : ∀ val, pc.val = some val → LastPop log t val) (u : T) (val : Int)
    (hu : (Function.update s.pc t pc u).val = some val) : LastPop log u val := by
  by_cases hut : u = t
  · subst hut
    rw [Function.update_self] at hu
    exact hself val hu
  · rw [Function.update_of_ne hut] at hu
    exact hother u val hut hu

/-- A step outside the sections moves tokens only. -/
theorem Invariant.moved (h : Invariant N s st) {isFull isEmpty : Nat} (mutex : Option T)
    {pc : Pc} (hslot : isEmpty + pc.slot = s.isEmpty + (s.pc t).slot)
    (hitem : isFull + pc.item = s.isFull + (s.pc t).item)
    (hval : ∀ val, pc.val = some val → (s.pc t).val = some val) :
    Invariant N ({ s with isFull := isFull, isEmpty := isEmpty, mutex := mutex }.goto t pc)
      st where
  slots := by
    refine ledger_goto (s := s) (t := t) h.slots ?_
    show isEmpty + st.length + pc.slot + N = s.isEmpty + st.length + (s.pc t).slot + N
    omega
  items := by
    refine ledger_goto (s := s) (t := t) h.items ?_
    show isFull + pc.item + st.length = s.isFull + (s.pc t).item + st.length
    omega
  legal := h.legal
  stores := ⟨h.stores.idx, h.stores.cells⟩
  popped := popped_goto (fun u val _ => h.popped u val)
    (fun val hpc => h.popped t val (hval val hpc))

/-- **The section of `stkPush`** is a push. -/
theorem Invariant.pushed (h : Invariant N s st) {num : Int}
    (hpc : s.pc t = .pushSection num) :
    Invariant N ((s.pushSection t num).goto t .pushUnlock) (num :: st) where
  slots := by
    refine ledger_goto (s := s) (t := t) h.slots ?_
    rw [hpc]
    show s.isEmpty + (st.length + 1) + 0 + N = s.isEmpty + st.length + 1 + N
    omega
  items := by
    refine ledger_goto (s := s) (t := t) h.items ?_
    rw [hpc]
    show s.isFull + 1 + st.length = s.isFull + 0 + (st.length + 1)
    omega
  legal := by
    show Lifo.run [] ((s.log ++ [(t, Lifo.Event.push num)]).map Prod.snd) = _
    rw [List.map_append, List.map_singleton, Lifo.run_concat, h.legal]
    rfl
  stores := ⟨(h.stores.push t num).idx, (h.stores.push t num).cells⟩
  popped := popped_goto (s := s)
    (fun u val hu hval => (h.popped u val hval).mono hu.symm _) nofun

/-- **The section of `stkPop`** is a pop. -/
theorem Invariant.popped_top {v : Int} (h : Invariant N s (v :: st))
    (hpc : s.pc t = .popSection) :
    Invariant N ((s.popSection t).goto t (.popUnlock (s.stk (s.idx - 1)))) st := by
  obtain ⟨htop, hcells⟩ := h.stores.top
  refine ⟨?_, ?_, ?_, ⟨?_, hcells⟩, ?_⟩
  · refine ledger_goto (s := s) (t := t) h.slots ?_
    rw [hpc]
    show s.isEmpty + st.length + 1 + N = s.isEmpty + (st.length + 1) + 0 + N
    omega
  · refine ledger_goto (s := s) (t := t) h.items ?_
    rw [hpc]
    show s.isFull + 0 + (st.length + 1) = s.isFull + 1 + st.length
    omega
  · show Lifo.run [] ((s.log ++ [(t, Lifo.Event.pop (s.stk (s.idx - 1)))]).map Prod.snd) = _
    rw [List.map_append, List.map_singleton, Lifo.run_concat, h.legal, htop]
    exact Lifo.apply_pop_iff.mpr rfl
  · show s.idx - 1 = (st.length : Int)
    rw [h.stores.idx, List.length_cons]
    omega
  · refine popped_goto (s := s)
      (fun u val hu hval => (h.popped u val hval).mono hu.symm _) ?_
    intro val hval
    injection hval with hval
    subst hval
    exact ⟨s.log, [], rfl, nofun⟩

/-- **Every step keeps the invariant.** -/
theorem Invariant.thread (h : Invariant N s st) {s' : State T}
    (hstep : threadStep s t = some s') : ∃ st', Invariant N s' st' := by
  unfold threadStep at hstep
  split at hstep
  next => cases hstep
  next num hpc =>
    split at hstep
    · cases hstep
    · injection hstep with hstep
      rw [← hstep]
      refine ⟨st, h.moved s.mutex ?_ (by rw [hpc]; rfl) nofun⟩
      rw [hpc]
      show s.isEmpty - 1 + 1 = s.isEmpty + 0
      omega
  next num hpc =>
    split at hstep
    · injection hstep with hstep
      rw [← hstep]
      exact ⟨st, h.moved (some t) (by rw [hpc]; rfl) (by rw [hpc]; rfl) nofun⟩
    · cases hstep
  next num hpc =>
    injection hstep with hstep
    rw [← hstep]
    exact ⟨_, h.pushed hpc⟩
  next hpc =>
    injection hstep with hstep
    rw [← hstep]
    exact ⟨st, h.moved none (by rw [hpc]; rfl) (by rw [hpc]; rfl) nofun⟩
  next hpc =>
    injection hstep with hstep
    rw [← hstep]
    exact ⟨st, h.moved s.mutex (by rw [hpc]; rfl) (by rw [hpc]; rfl) nofun⟩
  next hpc =>
    split at hstep
    · cases hstep
    · injection hstep with hstep
      rw [← hstep]
      refine ⟨st, h.moved s.mutex (by rw [hpc]; rfl) ?_ nofun⟩
      rw [hpc]
      show s.isFull - 1 + 1 = s.isFull + 0
      omega
  next hpc =>
    split at hstep
    · injection hstep with hstep
      rw [← hstep]
      exact ⟨st, h.moved (some t) (by rw [hpc]; rfl) (by rw [hpc]; rfl) nofun⟩
    · cases hstep
  next hpc =>
    injection hstep with hstep
    rw [← hstep]
    obtain ⟨v, st', rfl⟩ := h.pop_pos hpc
    exact ⟨st', h.popped_top hpc⟩
  next val hpc =>
    injection hstep with hstep
    rw [← hstep]
    exact ⟨st, h.moved none (by rw [hpc]; rfl) (by rw [hpc]; rfl)
      (by rw [hpc]; exact fun _ hval => hval)⟩
  next val hpc =>
    injection hstep with hstep
    rw [← hstep]
    exact ⟨st, h.moved s.mutex (by rw [hpc]; rfl) (by rw [hpc]; rfl) nofun⟩

theorem Invariant.next (h : Invariant N s st) {a : Action T} {s' : State T}
    (hstep : step s a = some s') : ∃ st', Invariant N s' st' := by
  cases a with
  | step t => exact h.thread hstep
  | call t c =>
      cases c with
      | stkPush num =>
          have hstep : (if s.pc t = .idle then some (s.goto t (.pushWait num)) else none)
            = some s' := hstep
          split at hstep
          next hpc =>
            injection hstep with hstep
            rw [← hstep]
            exact ⟨st, h.moved s.mutex (by rw [hpc]; rfl) (by rw [hpc]; rfl) nofun⟩
          next => cases hstep
      | stkPop =>
          have hstep : (if s.pc t = .idle then some (s.goto t .popWait) else none)
            = some s' := hstep
          split at hstep
          next hpc =>
            injection hstep with hstep
            rw [← hstep]
            exact ⟨st, h.moved s.mutex (by rw [hpc]; rfl) (by rw [hpc]; rfl) nofun⟩
          next => cases hstep

theorem Reachable.invariant (h : Reachable N s) : ∃ st, Invariant N s st := by
  obtain ⟨stk, hreach⟩ := h
  exact hreach.invariant (I := fun s => ∃ st, Invariant N s st) ⟨[], invariant_start N stk⟩
    fun _ _ _ hs hstep => hs.elim fun _ hst => hst.next hstep

end steps

/-! ## §2. The arguments of the calls. -/

section calls
variable [DecidableEq T] {s s' : State T}

/-- The arguments of `stkPush` that thread `t` has stored, and the one it is
about to store. -/
def State.nums (s : State T) (t : T) : List Int :=
  s.log.filterMap (storedBy t) ++ (s.pc t).num.toList

/-- A step outside the sections keeps the argument at hand. -/
theorem nums_goto {u : T} {isFull isEmpty : Nat} {mutex : Option T} {pc : Pc}
    (hnum : pc.num = (s.pc u).num) (t : T) :
    ({ s with isFull := isFull, isEmpty := isEmpty, mutex := mutex }.goto u pc).nums t
      = s.nums t := by
  unfold State.nums State.goto
  dsimp only
  by_cases htu : t = u
  · rw [htu, Function.update_self, hnum]
  · rw [Function.update_of_ne htu]

/-- The section of `stkPush` stores the argument. -/
theorem nums_pushSection {u : T} {num : Int} (hpc : s.pc u = .pushSection num) (t : T) :
    ((s.pushSection u num).goto u .pushUnlock).nums t = s.nums t := by
  show (s.log ++ [(u, Lifo.Event.push num)]).filterMap (storedBy t) ++
    (Function.update s.pc u .pushUnlock t).num.toList = s.nums t
  unfold State.nums
  rw [List.filterMap_append, List.append_assoc]
  by_cases htu : t = u
  · rw [htu, Function.update_self, hpc]
    simp [storedBy, Pc.num]
  · rw [Function.update_of_ne htu]
    simp [storedBy, Ne.symm htu]

theorem nums_popSection {u : T} (hpc : s.pc u = .popSection) (val : Int) (t : T) :
    ((s.popSection u).goto u (.popUnlock val)).nums t = s.nums t := by
  show (s.log ++ [(u, Lifo.Event.pop (s.stk (s.idx - 1)))]).filterMap (storedBy t) ++
    (Function.update s.pc u (.popUnlock val) t).num.toList = s.nums t
  unfold State.nums
  rw [List.filterMap_append, List.append_assoc]
  by_cases htu : t = u
  · rw [htu, Function.update_self, hpc]
    simp [storedBy, Pc.num]
  · rw [Function.update_of_ne htu]
    simp [storedBy]

theorem nums_thread {u : T} (hstep : threadStep s u = some s') (t : T) :
    s'.nums t = s.nums t := by
  unfold threadStep at hstep
  split at hstep
  next => cases hstep
  next num hpc =>
    split at hstep
    · cases hstep
    · injection hstep with hstep
      rw [← hstep]
      exact nums_goto (by rw [hpc]; rfl) t
  next num hpc =>
    split at hstep
    · injection hstep with hstep
      rw [← hstep]
      exact nums_goto (by rw [hpc]; rfl) t
    · cases hstep
  next num hpc =>
    injection hstep with hstep
    rw [← hstep]
    exact nums_pushSection hpc t
  next hpc =>
    injection hstep with hstep
    rw [← hstep]
    exact nums_goto (by rw [hpc]; rfl) t
  next hpc =>
    injection hstep with hstep
    rw [← hstep]
    exact nums_goto (by rw [hpc]; rfl) t
  next hpc =>
    split at hstep
    · cases hstep
    · injection hstep with hstep
      rw [← hstep]
      exact nums_goto (by rw [hpc]; rfl) t
  next hpc =>
    split at hstep
    · injection hstep with hstep
      rw [← hstep]
      exact nums_goto (by rw [hpc]; rfl) t
    · cases hstep
  next hpc =>
    injection hstep with hstep
    rw [← hstep]
    exact nums_popSection hpc _ t
  next val hpc =>
    injection hstep with hstep
    rw [← hstep]
    exact nums_goto (by rw [hpc]; rfl) t
  next val hpc =>
    injection hstep with hstep
    rw [← hstep]
    exact nums_goto (by rw [hpc]; rfl) t

/-- A call of `stkPush` adds its argument. -/
theorem nums_next {a : Action T} (hstep : step s a = some s') (t : T) :
    s'.nums t = s.nums t ++ (a.num t).toList := by
  cases a with
  | step u =>
      show _ = s.nums t ++ []
      rw [List.append_nil]
      exact nums_thread hstep t
  | call u c =>
      cases c with
      | stkPush num =>
          obtain ⟨hpc, hstep⟩ := Option.ite_none_right_eq_some.mp hstep
          injection hstep with hstep
          rw [← hstep]
          unfold State.nums State.goto Action.num
          dsimp only
          by_cases htu : t = u
          · rw [htu, Function.update_self, hpc]
            simp [Pc.num]
          · rw [Function.update_of_ne htu, if_neg (Ne.symm htu)]
            simp
      | stkPop =>
          obtain ⟨hpc, hstep⟩ := Option.ite_none_right_eq_some.mp hstep
          injection hstep with hstep
          rw [← hstep]
          show _ = s.nums t ++ []
          rw [List.append_nil]
          exact nums_goto (by rw [hpc]; rfl) t

/-- **WHAT A THREAD STORES IS WHAT IT CALLS `stkPush` WITH**, in this order. -/
theorem nums_run (as : List (Action T)) (t : T) : ∀ {s s' : State T},
    runActions step s as = some s' → s'.nums t = s.nums t ++ as.filterMap (Action.num t) := by
  induction as with
  | nil =>
      intro s s' h
      injection h with h
      rw [h]
      exact (List.append_nil _).symm
  | cons a as ih =>
      intro s s' h
      obtain ⟨s₁, hfirst, hrest⟩ := Option.bind_eq_some_iff.mp h
      rw [ih hrest, nums_next hfirst t, List.append_assoc]
      cases hnum : a.num t with
      | none => rw [List.filterMap_cons_none hnum]; rfl
      | some num => rw [List.filterMap_cons_some hnum]; rfl

end calls

/-! ## §3. Bounds, tokens and the history. -/

section history
variable [Fintype T] [DecidableEq T] {N : Nat} {s : State T}

/-- **THE SHARED STACK IS A STACK.**  For any threads and capacity, in every
reachable state: `idx` and every access are within bounds; the semaphores and
the threads in flight have `N` units; the completed sections are a legal
history of a stack that ends with the contents of the array, in which each
pop returns the latest value not yet popped, and nothing is lost or returned
twice; what a call of `stkPop` returns is what its section popped; and in any
run to the state, what the sections of a thread have pushed are the arguments
of its calls of `stkPush`, except one whose section is still to come. -/
theorem shared_stack_lifo (h : Reachable N s) :
    (0 ≤ s.idx ∧ s.idx ≤ N) ∧
      (∀ t num, s.pc t = .pushSection num → 0 ≤ s.idx ∧ s.idx ≤ N - 1) ∧
      (∀ t, s.pc t = .popSection → 0 ≤ s.idx - 1 ∧ s.idx - 1 ≤ N - 1) ∧
      s.isEmpty + s.isFull + ∑ t, (s.pc t).inFlight = N ∧
      Lifo.run [] (s.log.map Prod.snd) = some s.contents ∧
      (∀ before v after, s.log.map Prod.snd = before ++ .pop v :: after →
        ∃ earlier between, before = earlier ++ .push v :: between ∧ Lifo.Balanced between) ∧
      (Lifo.pushed (s.log.map Prod.snd)).Perm
        (Lifo.popped (s.log.map Prod.snd) ++ s.contents) ∧
      (∀ t val, (s.pc t).val = some val → LastPop s.log t val) ∧
      ∀ stk as, runActions step (State.start N stk) as = some s → ∀ t,
        as.filterMap (Action.num t) = s.log.filterMap (storedBy t) ++ (s.pc t).num.toList := by
  obtain ⟨st, hinv⟩ := h.invariant
  have hidx := hinv.stores.idx
  have hlen : st.length ≤ N := by
    have := hinv.slots
    unfold Conserved at this
    omega
  have hlegal : Lifo.run [] (s.log.map Prod.snd) = some s.contents := by
    rw [hinv.stores.contents]
    exact hinv.legal
  refine ⟨⟨by omega, by omega⟩, ?_, ?_, hinv.in_flight, hlegal, ?_, Lifo.run_perm _ hlegal,
    hinv.popped, fun stk as hrun t => (nums_run as t hrun).symm⟩
  · intro t num hpc
    have := hinv.push_room hpc
    omega
  · intro t hpc
    obtain ⟨v, st', rfl⟩ := hinv.pop_pos hpc
    rw [List.length_cons] at hidx hlen
    omega
  · intro before v after hlog
    rw [hlog] at hlegal
    exact Lifo.pop_matches hlegal

end history

/-- On a stack of one slot the first thread pushes 7, and the second pops it
while the first waits to push 8. -/
def handOver (first second : Fin 2) : List (Action (Fin 2)) :=
  [Action.call first (.stkPush 7), Action.call second .stkPop] ++
    List.replicate 5 (Action.step first) ++
    [Action.call first (.stkPush 8)] ++ List.replicate 3 (Action.step second)

theorem shared_stack_lifo_two :
    ∃ s : State (Fin 2), s.pc 1 = .popUnlock 7 ∧
      (0 ≤ s.idx ∧ s.idx ≤ (1 : Nat)) ∧
      (∀ t num, s.pc t = .pushSection num → 0 ≤ s.idx ∧ s.idx ≤ (1 : Nat) - 1) ∧
      (∀ t, s.pc t = .popSection → 0 ≤ s.idx - 1 ∧ s.idx - 1 ≤ (1 : Nat) - 1) ∧
      s.isEmpty + s.isFull + ∑ t, (s.pc t).inFlight = 1 ∧
      Lifo.run [] (s.log.map Prod.snd) = some s.contents ∧
      (∀ before v after, s.log.map Prod.snd = before ++ .pop v :: after →
        ∃ earlier between, before = earlier ++ .push v :: between ∧ Lifo.Balanced between) ∧
      (Lifo.pushed (s.log.map Prod.snd)).Perm
        (Lifo.popped (s.log.map Prod.snd) ++ s.contents) ∧
      (∀ t val, (s.pc t).val = some val → LastPop s.log t val) ∧
      ∀ stk as, runActions step (State.start 1 stk) as = some s → ∀ t,
        as.filterMap (Action.num t) = s.log.filterMap (storedBy t) ++ (s.pc t).num.toList :=
  have hrun : ∃ s : State (Fin 2), Reaches step (State.start 1 fun _ => 0) s ∧
      s.pc 1 = .popUnlock 7 :=
    exists_reaches (handOver 0 1) (fun s : State (Fin 2) => s.pc 1) (by decide +kernel)
  hrun.elim fun s hs => ⟨s, hs.2, shared_stack_lifo ⟨_, hs.1⟩⟩

end ConcurrencyCrypto.Stack
