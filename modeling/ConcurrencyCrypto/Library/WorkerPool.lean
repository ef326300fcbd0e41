/-
  ConcurrencyCrypto.Library.WorkerPool
  ────────────────────────────────────
  **NUMBERED WORKERS BEHIND A SEMAPHORE.**

  A thread that has a unit of a semaphore looks for a free worker in an array
  of flags, from index 0 on and under a mutex; it gives the worker back with
  one store outside the mutex.  Every read and every store is a step of its
  own, so a scan may be overtaken by any number of releases.

    • `Safe`   — who owns which worker, and what a flag that is down means;
      kept by every step, so no worker has two owners;
    • `Enough` — a scan has a free worker in front of it; kept by every step,
      as long as no more threads have a unit than there are live workers.
-/
import Mathlib

namespace ConcurrencyCrypto.Library

/-! ## §1. Pools and their steps. -/

/-- Where a thread is with respect to the pool. -/
inductive WorkerPhase (n : Nat) where
  /-- It has no unit. -/
  | idle
  /-- It has a unit and is yet to scan. -/
  | waiting
  /-- About to read flag `i`. -/
  | looking (i : Nat)
  /-- Flag `m` was up; about to take it down. -/
  | taking (m : Fin n)
  /-- The scan is over. -/
  | unlocking (found : Option (Fin n))
  | owning (m : Fin n)
  /-- The scan found nothing. -/
  | missed
  /-- The worker is given back, the unit is not yet. -/
  | released

namespace WorkerPhase
variable {n : Nat}

/-- The worker the thread owns: from the store that takes the flag down to
the store that puts it up. -/
def worker : WorkerPhase n → Option (Fin n)
  | .unlocking found => found
  | .owning m => some m
  | _ => none

/-- It is inside the mutex. -/
def scanning : WorkerPhase n → Bool
  | .looking _ | .taking _ | .unlocking _ => true
  | _ => false

def hasUnit : WorkerPhase n → Bool
  | .idle => false
  | _ => true

/-- What a scan leads to. -/
def ofFound : Option (Fin n) → WorkerPhase n
  | some m => .owning m
  | none => .missed

@[simp] theorem worker_ofFound (found : Option (Fin n)) : (ofFound found).worker = found := by
  cases found <;> rfl

@[simp] theorem scanning_ofFound (found : Option (Fin n)) :
    (ofFound found).scanning = false := by
  cases found <;> rfl

theorem ofFound_ne_taking (found : Option (Fin n)) (m : Fin n) : ofFound found ≠ .taking m := by
  cases found <;> exact nofun

end WorkerPhase

/-- The flags, who holds the mutex, and where everybody is. -/
structure WorkerPool (T : Type*) (n : Nat) where
  available : Vector Bool n
  mutex : Option T
  phase : T → WorkerPhase n

namespace WorkerPool
variable {T : Type*} [DecidableEq T] {n : Nat}

/-- Thread `t` goes to another phase. -/
def move (p : WorkerPool T n) (t : T) (ph : WorkerPhase n) : WorkerPool T n :=
  { p with phase := Function.update p.phase t ph }

/-- One step of thread `t`. -/
inductive Next (p : WorkerPool T n) (t : T) : WorkerPool T n → Prop where
  /-- The unit is taken or given back. -/
  | unit {ph : WorkerPhase n}
      (hold : p.phase t = .idle ∨ p.phase t = .missed ∨ p.phase t = .released)
      (hnew : ph = .idle ∨ ph = .waiting) : Next p t (p.move t ph)
  | lock (h : p.phase t = .waiting) (hmutex : p.mutex = none) :
      Next p t ({ p with mutex := some t }.move t (.looking 0))
  | busy (i : Fin n) (h : p.phase t = .looking i.val) (hi : p.available.get i = false) :
      Next p t (p.move t (.looking (i.val + 1)))
  | free (i : Fin n) (h : p.phase t = .looking i.val) (hi : p.available.get i = true) :
      Next p t (p.move t (.taking i))
  | exhausted (i : Nat) (hi : n ≤ i) (h : p.phase t = .looking i) :
      Next p t (p.move t (.unlocking none))
  | claim (m : Fin n) (h : p.phase t = .taking m) :
      Next p t ({ p with available := p.available.set m.val false m.isLt }.move t
        (.unlocking (some m)))
  | unlock (found : Option (Fin n)) (h : p.phase t = .unlocking found) :
      Next p t ({ p with mutex := none }.move t (.ofFound found))
  | release (m : Fin n) (h : p.phase t = .owning m) :
      Next p t ({ p with available := p.available.set m.val true m.isLt }.move t .released)

@[simp] theorem move_self (p : WorkerPool T n) (t : T) (ph : WorkerPhase n) :
    (p.move t ph).phase t = ph := by
  show Function.update p.phase t ph t = ph
  exact Function.update_self t ph p.phase

theorem move_of_ne (p : WorkerPool T n) {t u : T} (ph : WorkerPhase n) (h : u ≠ t) :
    (p.move t ph).phase u = p.phase u := by
  show Function.update p.phase t ph u = p.phase u
  exact Function.update_of_ne h ph p.phase

/-- Who owns a worker behind a move of `t`. -/
theorem worker_move {p : WorkerPool T n} {t u : T} {ph : WorkerPhase n} {k : Fin n}
    (h : ((p.move t ph).phase u).worker = some k) :
    (u = t ∧ ph.worker = some k) ∨ (u ≠ t ∧ (p.phase u).worker = some k) := by
  by_cases hut : u = t
  · rw [hut, move_self] at h
    exact Or.inl ⟨hut, h⟩
  · rw [move_of_ne p ph hut] at h
    exact Or.inr ⟨hut, h⟩

/-- Who is inside the mutex. -/
theorem scanning_move {p : WorkerPool T n} {t u : T} {ph : WorkerPhase n}
    (h : ((p.move t ph).phase u).scanning = true) :
    (u = t ∧ ph.scanning = true) ∨ (u ≠ t ∧ (p.phase u).scanning = true) := by
  by_cases hut : u = t
  · rw [hut, move_self] at h
    exact Or.inl ⟨hut, h⟩
  · rw [move_of_ne p ph hut] at h
    exact Or.inr ⟨hut, h⟩

omit [DecidableEq T] in
theorem get_set (v : Vector Bool n) (m k : Fin n) (b : Bool) :
    (v.set m.val b m.isLt).get k = if k = m then b else v.get k := by
  show (v.set m.val b m.isLt)[k.val] = if k = m then b else v[k.val]
  rw [Vector.getElem_set]
  by_cases h : k = m
  · rw [if_pos h, if_pos (by rw [h])]
  · rw [if_neg h, if_neg (fun hc => h (Fin.ext hc.symm))]

/-! ## §2. Ownership. -/

/-- **Ownership.**  A worker of an owner is busy and has no other owner; a
live worker that is busy has an owner; the mutex holds for the whole scan, so
what a scan has seen free stays free. -/
structure Safe (live : Fin n → Bool) (p : WorkerPool T n) : Prop where
  busy : ∀ t m, (p.phase t).worker = some m → p.available.get m = false
  unique : ∀ t u m, (p.phase t).worker = some m → (p.phase u).worker = some m → t = u
  accounted : ∀ m, live m = true → p.available.get m = false →
    ∃ t, (p.phase t).worker = some m
  scanner : ∀ t, (p.phase t).scanning = true → p.mutex = some t
  seen : ∀ t m, p.phase t = .taking m → p.available.get m = true

section safe
variable {live : Fin n → Bool} {p : WorkerPool T n} {t : T}

omit [DecidableEq T] in
theorem safe_start (live : Fin n → Bool) :
    Safe live (⟨Vector.ofFn live, none, fun _ => .idle⟩ : WorkerPool T n) where
  busy _ _ h := nomatch h
  unique _ _ _ h := nomatch h
  accounted m hlive hbusy := by
    have hget : (Vector.ofFn live).get m = live m := Vector.getElem_ofFn m.isLt
    rw [hget, hlive] at hbusy
    cases hbusy
  scanner _ h := nomatch h
  seen _ _ h := nomatch h

omit [DecidableEq T] in
/-- Two threads do not scan at once. -/
theorem Safe.scanner_unique (h : Safe live p) {u : T} (ht : (p.phase t).scanning = true)
    (hu : (p.phase u).scanning = true) : u = t := by
  have hmutex := h.scanner t ht
  rw [h.scanner u hu] at hmutex
  injection hmutex

/-- A step that changes neither flags nor owners. -/
theorem Safe.move (h : Safe live p) {ph : WorkerPhase n} {mutex : Option T}
    (hworker : ph.worker = (p.phase t).worker)
    (hscanner : ∀ u, u ≠ t → (p.phase u).scanning = true → mutex = some u)
    (hself : ph.scanning = true → mutex = some t)
    (hseen : ∀ m, ph = .taking m → p.available.get m = true) :
    Safe live ({ p with mutex := mutex }.move t ph) := by
  have hsame : ∀ u, (({ p with mutex := mutex }.move t ph).phase u).worker
      = (p.phase u).worker := by
    intro u
    by_cases hu : u = t
    · rw [hu, move_self, hworker]
    · rw [move_of_ne _ _ hu]
  refine ⟨?_, ?_, ?_, ?_, ?_⟩
  · intro u m hu
    rw [hsame] at hu
    exact h.busy u m hu
  · intro u v m hu hv
    rw [hsame] at hu hv
    exact h.unique u v m hu hv
  · intro m hlive hbusy
    obtain ⟨u, hu⟩ := h.accounted m hlive hbusy
    exact ⟨u, by rw [hsame, hu]⟩
  · intro u hu
    rcases scanning_move hu with ⟨rfl, hin⟩ | ⟨hut, hin⟩
    · exact hself hin
    · exact hscanner u hut hin
  · intro u m hu
    by_cases hut : u = t
    · subst hut
      rw [move_self] at hu
      exact hseen m hu
    · rw [move_of_ne _ _ hut] at hu
      exact h.seen u m hu

/-- The store that takes a flag down. -/
theorem Safe.claim (h : Safe live p) {m : Fin n} (hm : p.phase t = .taking m) :
    Safe live ({ p with available := p.available.set m.val false m.isLt }.move t
      (.unlocking (some m))) := by
  have hfree := h.seen t m hm
  have hscan : (p.phase t).scanning = true := by rw [hm]; rfl
  -- nobody owns a worker whose flag is up
  have hother : ∀ u k, (p.phase u).worker = some k → k ≠ m := by
    rintro u k hu rfl
    rw [h.busy u k hu] at hfree
    cases hfree
  refine ⟨?_, ?_, ?_, ?_, ?_⟩
  · intro u k hu
    show (p.available.set m.val false m.isLt).get k = false
    rw [get_set]
    split
    · rfl
    next hk =>
      rcases worker_move hu with ⟨-, hu⟩ | ⟨-, hu⟩
      · injection hu with hu
        exact absurd hu.symm hk
      · exact h.busy u k hu
  · intro u v k hu hv
    rcases worker_move hu with ⟨hut, hu⟩ | ⟨-, hu⟩
    · rcases worker_move hv with ⟨hvt, -⟩ | ⟨-, hv⟩
      · rw [hut, hvt]
      · injection hu with hu
        exact absurd hu.symm (hother v k hv)
    · rcases worker_move hv with ⟨-, hv⟩ | ⟨-, hv⟩
      · injection hv with hv
        exact absurd hv.symm (hother u k hu)
      · exact h.unique u v k hu hv
  · intro k hlive hbusy
    by_cases hk : k = m
    · exact ⟨t, by rw [move_self, hk]; rfl⟩
    · have hbusy' : (p.available.set m.val false m.isLt).get k = false := hbusy
      rw [get_set, if_neg hk] at hbusy'
      obtain ⟨u, hu⟩ := h.accounted k hlive hbusy'
      have hut : u ≠ t := by
        rintro rfl
        rw [hm] at hu
        cases hu
      exact ⟨u, by rw [move_of_ne _ _ hut, hu]⟩
  · intro u hu
    rcases scanning_move hu with ⟨rfl, -⟩ | ⟨-, hu⟩
    · exact h.scanner u hscan
    · exact h.scanner u hu
  · intro u k hu
    -- nobody else is inside the mutex
    by_cases hut : u = t
    · rw [hut, move_self] at hu
      cases hu
    · rw [move_of_ne _ _ hut] at hu
      exact absurd (h.scanner_unique hscan (by rw [hu]; rfl)) hut

/-- The store that puts it up again. -/
theorem Safe.release (h : Safe live p) {m : Fin n} (hm : p.phase t = .owning m) :
    Safe live ({ p with available := p.available.set m.val true m.isLt }.move t .released) := by
  have howner : (p.phase t).worker = some m := by rw [hm]; rfl
  -- an owner after the step is another thread, with another worker
  have hother : ∀ u k, ((({ p with available := p.available.set m.val true m.isLt }.move t
      .released).phase u).worker = some k) → (p.phase u).worker = some k ∧ k ≠ m := by
    intro u k hu
    rcases worker_move hu with ⟨-, hu⟩ | ⟨hut, hu⟩
    · cases hu
    · refine ⟨hu, ?_⟩
      rintro rfl
      exact hut (h.unique u t k hu howner)
  refine ⟨?_, ?_, ?_, ?_, ?_⟩
  · intro u k hu
    obtain ⟨hk, hne⟩ := hother u k hu
    show (p.available.set m.val true m.isLt).get k = false
    rw [get_set, if_neg hne]
    exact h.busy u k hk
  · intro u v k hu hv
    exact h.unique u v k (hother u k hu).1 (hother v k hv).1
  · intro k hlive hbusy
    have hbusy' : (p.available.set m.val true m.isLt).get k = false := hbusy
    rw [get_set] at hbusy'
    split at hbusy'
    · cases hbusy'
    next hk =>
      obtain ⟨u, hu⟩ := h.accounted k hlive hbusy'
      have hut : u ≠ t := by
        rintro rfl
        rw [howner] at hu
        injection hu with hu
        exact hk hu.symm
      exact ⟨u, by rw [move_of_ne _ _ hut, hu]⟩
  · intro u hu
    rcases scanning_move hu with ⟨-, hu⟩ | ⟨-, hu⟩
    · cases hu
    · exact h.scanner u hu
  · intro u k hu
    have hut : u ≠ t := by
      rintro rfl
      rw [move_self] at hu
      cases hu
    rw [move_of_ne _ _ hut] at hu
    show (p.available.set m.val true m.isLt).get k = true
    rw [get_set]
    split
    · rfl
    · exact h.seen u k hu

/-- **Every step keeps ownership in order.** -/
theorem Safe.next {p' : WorkerPool T n} (h : Safe live p) (hnext : Next p t p') :
    Safe live p' := by
  have hother : ∀ u, u ≠ t → (p.phase u).scanning = true → p.mutex = some u :=
    fun u _ hu => h.scanner u hu
  cases hnext with
  | unit hold hnew =>
      refine h.move ?_ hother ?_ ?_
      · rcases hold with hold | hold | hold <;> rcases hnew with hnew | hnew <;>
          rw [hold, hnew] <;> rfl
      · rcases hnew with hnew | hnew <;> rw [hnew] <;> exact fun hc => nomatch hc
      · rcases hnew with hnew | hnew <;> rw [hnew] <;> exact fun _ hc => nomatch hc
  | lock hw hmutex =>
      refine h.move (by rw [hw]; rfl) ?_ (fun _ => rfl) (fun _ hc => nomatch hc)
      intro u _ hu
      have := h.scanner u hu
      rw [hmutex] at this
      cases this
  | busy i hl hi =>
      exact h.move (by rw [hl]; rfl) hother (fun _ => h.scanner t (by rw [hl]; rfl))
        (fun _ hc => nomatch hc)
  | free i hl hi =>
      refine h.move (by rw [hl]; rfl) hother (fun _ => h.scanner t (by rw [hl]; rfl)) ?_
      intro m hm
      injection hm with hm
      rw [← hm]
      exact hi
  | exhausted i hi hl =>
      exact h.move (by rw [hl]; rfl) hother (fun _ => h.scanner t (by rw [hl]; rfl))
        (fun _ hc => nomatch hc)
  | claim m hm => exact h.claim hm
  | unlock found hu =>
      refine h.move (by rw [hu, WorkerPhase.worker_ofFound]; rfl) ?_ ?_ ?_
      · -- the thread that unlocks was the only one inside
        intro v hv hscan
        exact absurd (h.scanner_unique (by rw [hu]; rfl) hscan) hv
      · rw [WorkerPhase.scanning_ofFound]
        exact fun hc => nomatch hc
      · exact fun m hm => absurd hm (WorkerPhase.ofFound_ne_taking found m)
  | release m hm => exact h.release hm

end safe

/-! ## §3. A free worker for every scan. -/

/-- **A scan does not fail**: a free worker lies at or behind the index it has
reached, and no scan has come to its end without one. -/
structure Enough (p : WorkerPool T n) : Prop where
  ahead : ∀ t i, p.phase t = .looking i → ∃ m : Fin n, i ≤ m.val ∧ p.available.get m = true
  found : ∀ t, p.phase t ≠ .unlocking none ∧ p.phase t ≠ .missed

section enough
variable {live : Fin n → Bool} {p p' : WorkerPool T n} {t : T}

omit [DecidableEq T] in
theorem enough_start (available : Vector Bool n) :
    Enough (⟨available, none, fun _ => .idle⟩ : WorkerPool T n) where
  ahead _ _ h := nomatch h
  found _ := ⟨nofun, nofun⟩

/-- **If the semaphore let this thread in, a worker is free**: the others with
a unit own fewer workers than there are live ones. -/
theorem Safe.exists_free [Fintype T] (h : Safe live p)
    (hbound : (Finset.univ.filter fun u => (p.phase u).hasUnit = true).card
      ≤ (Finset.univ.filter fun m => live m = true).card)
    (ht : p.phase t = .waiting) : ∃ m : Fin n, p.available.get m = true := by
  -- the workers that have an owner, as options
  have hlt : ((((Finset.univ.filter fun u => (p.phase u).hasUnit = true).erase t).image
      fun u => (p.phase u).worker).card)
        < ((Finset.univ.filter fun m => live m = true).image some).card := by
    rw [Finset.card_image_of_injective _ (Option.some_injective _)]
    have hmem : t ∈ Finset.univ.filter fun u => (p.phase u).hasUnit = true := by
      rw [Finset.mem_filter, ht]
      exact ⟨Finset.mem_univ t, rfl⟩
    have hle := Finset.card_image_le
      (s := (Finset.univ.filter fun u => (p.phase u).hasUnit = true).erase t)
      (f := fun u => (p.phase u).worker)
    have herase := Finset.card_erase_lt_of_mem hmem
    omega
  obtain ⟨o, hlive, hnot⟩ := Finset.exists_mem_notMem_of_card_lt_card hlt
  obtain ⟨m, hm, rfl⟩ := Finset.mem_image.mp hlive
  refine ⟨m, ?_⟩
  by_contra hbusy
  obtain ⟨u, hu⟩ := h.accounted m (Finset.mem_filter.mp hm).2 (Bool.eq_false_of_not_eq_true hbusy)
  refine hnot (Finset.mem_image.mpr ⟨u, ?_, hu⟩)
  rw [Finset.mem_erase, Finset.mem_filter]
  refine ⟨?_, Finset.mem_univ u, ?_⟩
  · rintro rfl
    rw [ht] at hu
    cases hu
  · cases hphase : p.phase u with
    | idle =>
        rw [hphase] at hu
        cases hu
    | _ => rfl

/-- A step that puts no flag down, with what the new phase asks for. -/
theorem Enough.move (h : Enough p) {ph : WorkerPhase n} {mutex : Option T}
    {available : Vector Bool n}
    (hup : ∀ m, p.available.get m = true → available.get m = true)
    (hahead : ∀ i, ph = .looking i → ∃ m : Fin n, i ≤ m.val ∧ available.get m = true)
    (hfound : ph ≠ .unlocking none ∧ ph ≠ .missed) :
    Enough ((⟨available, mutex, p.phase⟩ : WorkerPool T n).move t ph) := by
  constructor
  · intro u i hu
    by_cases hut : u = t
    · subst hut
      rw [move_self] at hu
      exact hahead i hu
    · rw [move_of_ne _ _ hut] at hu
      obtain ⟨m, hm, hfree⟩ := h.ahead u i hu
      exact ⟨m, hm, hup m hfree⟩
  · intro u
    by_cases hut : u = t
    · subst hut
      rw [move_self]
      exact hfound
    · rw [move_of_ne _ _ hut]
      exact h.found u

/-- **Every step keeps it**, as long as the semaphore lets in no more threads
than there are live workers. -/
theorem Enough.next [Fintype T] (h : Enough p) (hsafe : Safe live p)
    (hbound : (Finset.univ.filter fun u => (p.phase u).hasUnit = true).card
      ≤ (Finset.univ.filter fun m => live m = true).card)
    (hnext : Next p t p') : Enough p' := by
  have hsame : ∀ m, p.available.get m = true → p.available.get m = true := fun _ hm => hm
  cases hnext with
  | unit hold hnew =>
      refine h.move hsame ?_ ?_
      · rcases hnew with hnew | hnew <;> rw [hnew] <;> exact fun _ hc => nomatch hc
      · rcases hnew with hnew | hnew <;> rw [hnew] <;> exact ⟨nofun, nofun⟩
  | lock hw hmutex =>
      refine h.move hsame ?_ ⟨nofun, nofun⟩
      intro i hi
      injection hi with hi
      obtain ⟨m, hfree⟩ := hsafe.exists_free hbound hw
      exact ⟨m, by omega, hfree⟩
  | busy i hl hi =>
      refine h.move hsame ?_ ⟨nofun, nofun⟩
      intro j hj
      injection hj with hj
      obtain ⟨m, hm, hfree⟩ := h.ahead t i.val hl
      -- the free worker is not the one just seen busy
      have hne : m ≠ i := by
        rintro rfl
        rw [hi] at hfree
        cases hfree
      have := Fin.val_ne_of_ne hne
      exact ⟨m, by omega, hfree⟩
  | free i hl hi => exact h.move hsame (fun _ hc => nomatch hc) ⟨nofun, nofun⟩
  | exhausted i hi hl =>
      obtain ⟨m, hm, -⟩ := h.ahead t i hl
      have := m.isLt
      omega
  | claim m hm =>
      have hscan : (p.phase t).scanning = true := by rw [hm]; rfl
      constructor
      · intro u i hu
        by_cases hut : u = t
        · subst hut
          rw [move_self] at hu
          cases hu
        · rw [move_of_ne _ _ hut] at hu
          exact absurd (hsafe.scanner_unique hscan (by rw [hu]; rfl)) hut
      · intro u
        by_cases hut : u = t
        · subst hut
          rw [move_self]
          exact ⟨nofun, nofun⟩
        · rw [move_of_ne _ _ hut]
          exact h.found u
  | unlock found hu =>
      cases found with
      | none => exact absurd hu (h.found t).1
      | some m => exact h.move hsame (fun _ hc => nomatch hc) ⟨nofun, nofun⟩
  | release m hm =>
      refine h.move ?_ (fun _ hc => nomatch hc) ⟨nofun, nofun⟩
      intro k hk
      rw [get_set]
      split
      · rfl
      · exact hk

end enough

end WorkerPool

end ConcurrencyCrypto.Library
