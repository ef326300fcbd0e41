/-
  ConcurrencyCrypto.Garage.WorkerPools
  ────────────────────────────────────
  **EVERY STEP OF THE PROGRAM IS A STEP OF EITHER POOL, OR NONE.**

  `poolOf` reads a pool off the labels of the cars, their scans and what they
  have found.  What a step does to labels and scans it therefore does to the
  pool, and it is shown once for mechanics and testers alike: the scan
  (`poolOf_scan`), any other step of a car (`poolOf_car`), and the creation of
  a car (`poolOf_service`).  `FineInvariant` has what these need of a
  reachable state.
-/
import ConcurrencyCrypto.Garage.Workers

namespace ConcurrencyCrypto.Garage

open ConcurrencyCrypto.Library

variable {cfg : Config}

/-! ## §1. The ways of a step. -/

/-- The ways from `s` to `s'` in one step. -/
inductive FineEffect (s s' : Fine cfg) : Prop where
  | service (a : Action cfg.K_CARS) (b : State cfg) (ha : ∀ i, a ≠ .car i)
      (hstep : step s.base a = some b) (hs' : s' = { s with base := b })
  | car (i : Fin cfg.K_CARS) (op : CarOp) (next : CarPc) (b : State cfg)
      (hcode : (s.base.pc i).code = some (op, next)) (hop : op.scans = false)
      (hstep : carStep s.base i = some b) (hs' : s' = { s with base := b })
  | mechanic (i : Fin cfg.K_CARS) (e next : CarPc) (c : Scan (Fin cfg.K_CARS) cfg.MECHANIC)
      (hcode : (s.base.pc i).code = some (.claim_mechanic e, next))
      (hstep : (s.mechanicScan i).step i = some c) (hs' : s' = s.withMechanicScan i e next c)
  | tester (i : Fin cfg.K_CARS) (e next : CarPc) (c : Scan (Fin cfg.K_CARS) cfg.TESTER)
      (hcode : (s.base.pc i).code = some (.claim_tester e, next))
      (hstep : (s.testerScan i).step i = some c) (hs' : s' = s.withTesterScan i e next c)

theorem baseStep_eq {s s' : Fine cfg} {a : Action cfg.K_CARS} (h : baseStep s a = some s') :
    ∃ b, step s.base a = some b ∧ s' = { s with base := b } := by
  obtain ⟨b, hb, hs'⟩ := Option.map_eq_some_iff.mp h
  exact ⟨b, hb, hs'.symm⟩

/-- **Inversion of a step.** -/
theorem fineStep_effect {s s' : Fine cfg} {a : Action cfg.K_CARS}
    (h : fineStep s a = some s') : FineEffect s s' := by
  unfold fineStep at h
  split at h
  next => cases h
  next hmain =>
    cases a with
    | car i =>
        dsimp only at h
        unfold fineCarStep at h
        split at h
        next e next hcode =>
          obtain ⟨c, hc, hs'⟩ := Option.map_eq_some_iff.mp h
          exact .mechanic i e next c hcode hc hs'.symm
        next e next hcode =>
          obtain ⟨c, hc, hs'⟩ := Option.map_eq_some_iff.mp h
          exact .tester i e next c hcode hc hs'.symm
        next hmechanic htester =>
          obtain ⟨b, hb, hs'⟩ := baseStep_eq h
          have hb' : carStep s.base i = some b := by
            unfold step at hb
            split at hb
            next => cases hb
            next => exact hb
          cases hcode : (s.base.pc i).code with
          | none =>
              unfold carStep at hb'
              rw [hcode] at hb'
              cases hb'
          | some opnext =>
              obtain ⟨op, next⟩ := opnext
              refine .car i op next b hcode ?_ hb' hs'
              cases op with
              | claim_mechanic e => exact absurd hcode (hmechanic e next)
              | claim_tester e => exact absurd hcode (htester e next)
              | _ => rfl
    | main created =>
        obtain ⟨b, hb, hs'⟩ := baseStep_eq h
        exact .service (.main created) b (by intro i hc; cases hc) hb hs'
    | creator vip now created =>
        obtain ⟨b, hb, hs'⟩ := baseStep_eq h
        exact .service (.creator vip now created) b (by intro i hc; cases hc) hb hs'
    | manager =>
        obtain ⟨b, hb, hs'⟩ := baseStep_eq h
        exact .service .manager b (by intro i hc; cases hc) hb hs'
    | monitor now =>
        obtain ⟨b, hb, hs'⟩ := baseStep_eq h
        exact .service (.monitor now) b (by intro i hc; cases hc) hb hs'

theorem code_claim_mechanic {pc e next : CarPc} (h : pc.code = some (.claim_mechanic e, next)) :
    pc = .claimMechanic ∧ e = .reportNoMechanic ∧ next = .waitDiagnostic := by
  cases pc <;> cases h
  exact ⟨rfl, rfl, rfl⟩

theorem code_claim_tester {pc e next : CarPc} (h : pc.code = some (.claim_tester e, next)) :
    pc = .claimTester ∧ e = .reportNoTester ∧ next = .printStarting := by
  cases pc <;> cases h
  exact ⟨rfl, rfl, rfl⟩

/-- Only the scans begin at these labels. -/
theorem not_claiming {pc next : CarPc} {op : CarOp} (h : pc.code = some (op, next))
    (hop : op.scans = false) : pc ≠ .claimMechanic ∧ pc ≠ .claimTester := by
  cases pc <;> cases h <;> first
    | exact absurd hop Bool.noConfusion
    | exact ⟨nofun, nofun⟩

/-! ## §2. The pool of a state. -/

/-- The step leaves the pool alone, or is a step of it. -/
def PoolStep {T : Type} [DecidableEq T] {n : Nat} (p p' : WorkerPool T n) : Prop :=
  p' = p ∨ ∃ t, WorkerPool.Next p t p'

/-- The pool of these labels, scans, finds, flags and mutex. -/
def poolOf {K n : Nat} (st : CarPc → Station) (pc : Fin K → CarPc) (scan : Fin K → ScanPc n)
    (my : Fin K → Option (Fin n)) (available : Vector Bool n) (mutex : Option (Fin K)) :
    WorkerPool (Fin K) n :=
  ⟨available, mutex, fun j => phaseOf (st (pc j)) (scan j) (my j)⟩

section pools
variable {n : Nat} {st : CarPc → Station} {pc : Fin cfg.K_CARS → CarPc}
  {scan : Fin cfg.K_CARS → ScanPc n} {my : Fin cfg.K_CARS → Option (Fin n)}
  {available : Vector Bool n} {mutex : Option (Fin cfg.K_CARS)} {i : Fin cfg.K_CARS}

/-- A step of the scan of car `i`. -/
theorem poolOf_scan {c : Scan (Fin cfg.K_CARS) n} {e next : CarPc}
    (hstep : Scan.step i ⟨mutex, available, my i, scan i⟩ = some c)
    (hfresh : Scan.Fresh ⟨mutex, available, my i, scan i⟩)
    (hhere : st (pc i) = .scanning) (he : st e = .lost) (hnext : st next = .served) :
    PoolStep (poolOf st pc scan my available mutex)
      (poolOf st (Function.update pc i (c.label (pc i) e next))
        (Function.update scan i c.pc.rest) (Function.update my i c.my) c.available c.mutex) := by
  have hphases : (fun j => phaseOf (st (Function.update pc i (c.label (pc i) e next) j))
        (Function.update scan i c.pc.rest j) (Function.update my i c.my j))
      = Function.update (fun j => phaseOf (st (pc j)) (scan j) (my j)) i c.after := by
    funext j
    by_cases hj : j = i
    · subst hj
      simp only [Function.update_self]
      obtain ⟨mutex', available', m, p⟩ := c
      cases p with
      | done =>
          cases m with
          | none => simp only [Scan.label, Scan.after, he]; rfl
          | some w => simp only [Scan.label, Scan.after, hnext]; rfl
      | _ => simp only [Scan.label, Scan.after, hhere]; rfl
    · simp only [Function.update_of_ne hj]
  right
  refine ⟨i, ?_⟩
  unfold poolOf
  rw [hphases]
  exact Scan.step_next _ hstep hfresh (by rw [hhere])

/-- Any other step of car `i`. -/
theorem poolOf_car {next : CarPc} {frees : Bool} (hrest : scan i = .lock)
    (hmove : Station.Move (st (pc i)) (st next) frees) :
    PoolStep (poolOf st pc scan my available mutex)
      (poolOf st (Function.update pc i next) scan my (giveBack frees (my i) available)
        mutex) := by
  have hphases : (fun j => phaseOf (st (Function.update pc i next j)) (scan j) (my j))
      = Function.update (fun j => phaseOf (st (pc j)) (scan j) (my j)) i
          (phaseOf (st next) .lock (my i)) := by
    funext j
    by_cases hj : j = i
    · subst hj
      rw [Function.update_self, Function.update_self, hrest]
    · rw [Function.update_of_ne hj, Function.update_of_ne hj]
  have hphase : (poolOf st pc scan my available mutex).phase i
      = phaseOf (st (pc i)) .lock (my i) := by
    rw [← hrest]
    rfl
  rcases hmove.next hphase with hsame | hnext
  · left
    rw [← hsame]
    unfold poolOf
    rw [hphases]
  · right
    refine ⟨i, ?_⟩
    unfold poolOf
    rw [hphases]
    exact hnext

/-- A step within a station. -/
theorem poolOf_same {next : CarPc} (hst : st next = st (pc i)) :
    poolOf st (Function.update pc i next) scan my available mutex
      = poolOf st pc scan my available mutex := by
  have hlabels : ∀ j, st (Function.update pc i next j) = st (pc j) := label_update st hst
  unfold poolOf
  simp only [hlabels]

/-- A car is created. -/
theorem poolOf_service {pc' : Fin cfg.K_CARS → CarPc}
    (hpc : ∀ j, pc' j = pc j ∨ (pc j = .unborn ∧ (pc' j = .insert ∨ pc' j = .failed)))
    (hnew : st .insert = st .unborn ∧ st .failed = st .unborn) :
    poolOf st pc' scan my available mutex = poolOf st pc scan my available mutex := by
  have hlabels : ∀ j, st (pc' j) = st (pc j) := by
    intro j
    rcases hpc j with hj | ⟨hj, hj' | hj'⟩
    · rw [hj]
    · rw [hj, hj', hnew.1]
    · rw [hj, hj', hnew.2]
  unfold poolOf
  simp only [hlabels]

end pools

/-! ## §3. The invariant. -/

/-- Behind its scan a car is at rest in it, and the base program is in order. -/
structure FineInvariant (s : Fine cfg) : Prop where
  base : Invariant s.base
  mechanic_rest : ∀ i, s.base.pc i ≠ .claimMechanic → s.mechanic_scan i = .lock
  tester_rest : ∀ i, s.base.pc i ≠ .claimTester → s.tester_scan i = .lock
  mechanic_fresh : ∀ i, (s.mechanicScan i).Fresh
  tester_fresh : ∀ i, (s.testerScan i).Fresh

section label
variable {K n : Nat} {c : Scan (Fin K) n} {here e next : CarPc} {pc : Fin K → CarPc}
  {scan : Fin K → ScanPc n} {my : Fin K → Option (Fin n)} {i : Fin K}

variable (c here e next) in
theorem Scan.label_cases :
    c.label here e next = here ∨ c.label here e next = e ∨ c.label here e next = next := by
  unfold Scan.label
  split
  · exact Or.inr (Or.inr rfl)
  · exact Or.inr (Or.inl rfl)
  · exact Or.inl rfl

/-- What the three labels have in common. -/
theorem Scan.label_common {β : Type} (f : CarPc → β) (he : f e = f here)
    (hnext : f next = f here) : f (c.label here e next) = f here := by
  rcases c.label_cases here e next with hl | hl | hl <;> rw [hl]
  · exact he
  · exact hnext

/-- Who is past the scan is at rest in it. -/
theorem Scan.rest_of_label (h : c.label here e next ≠ here) : c.pc.rest = .lock := by
  obtain ⟨mutex, available, my, pc⟩ := c
  cases pc with
  | done => rfl
  | _ => exact absurd rfl h

theorem Scan.Fresh.rest (h : c.Fresh) (k : Nat) (hk : c.pc.rest = .look k) : c.my = none := by
  obtain ⟨mutex, available, my, pc⟩ := c
  cases pc with
  | look j => exact h j rfl
  | _ => cases hk

/-- After a step of the scan of car `i`. -/
theorem rest_scan (hrest : ∀ j, pc j ≠ here → scan j = .lock) (j : Fin K)
    (hj : Function.update pc i (c.label here e next) j ≠ here) :
    Function.update scan i c.pc.rest j = .lock := by
  by_cases hji : j = i
  · subst hji
    rw [Function.update_self] at hj ⊢
    exact Scan.rest_of_label hj
  · rw [Function.update_of_ne hji] at hj ⊢
    exact hrest j hj

/-- After a step of a car that was not in this scan. -/
theorem rest_other {pc' : CarPc} (hrest : ∀ j, pc j ≠ here → scan j = .lock) (hi : pc i ≠ here)
    (j : Fin K) (hj : Function.update pc i pc' j ≠ here) : scan j = .lock := by
  by_cases hji : j = i
  · rw [hji]
    exact hrest i hi
  · rw [Function.update_of_ne hji] at hj
    exact hrest j hj

theorem fresh_scan {mutex mutex' : Option (Fin K)} {available available' : Vector Bool n}
    (hc : c.Fresh) (hfresh : ∀ j, Scan.Fresh ⟨mutex, available, my j, scan j⟩) (j : Fin K) :
    Scan.Fresh ⟨mutex', available', Function.update my i c.my j,
      Function.update scan i c.pc.rest j⟩ := by
  intro k hk
  dsimp only at hk ⊢
  by_cases hji : j = i
  · subst hji
    rw [Function.update_self] at hk ⊢
    exact hc.rest k hk
  · rw [Function.update_of_ne hji] at hk ⊢
    exact hfresh j k hk

end label

section invariant
variable {s : Fine cfg}

/-- A scan gives and takes no units. -/
theorem Invariant.scan_mechanic {b : State cfg} (h : Invariant b) {i : Fin cfg.K_CARS}
    (hpc : b.pc i = .claimMechanic) (ma : Vector Bool cfg.MECHANIC)
    (mm : Fin cfg.K_CARS → Option (Fin cfg.MECHANIC)) {pc' : CarPc}
    (hpc' : pc' = .claimMechanic ∨ pc' = .reportNoMechanic ∨ pc' = .waitDiagnostic) :
    Invariant { b with
      mechanic_available := ma, my_mechanic := mm, pc := Function.update b.pc i pc' } := by
  have hin : pc'.inside = true := by
    rcases hpc' with hpc' | hpc' | hpc' <;> rw [hpc'] <;> rfl
  have hunits : ∀ r, b.resource r + pc'.units r = b.resource r + (b.pc i).units r := by
    intro r
    rw [hpc]
    rcases hpc' with hpc' | hpc' | hpc' <;> rw [hpc'] <;> cases r <;> rfl
  exact h.car_served ma mm b.tester_available b.my_tester (by rw [hpc]; rfl) hin hunits

theorem Invariant.scan_tester {b : State cfg} (h : Invariant b) {i : Fin cfg.K_CARS}
    (hpc : b.pc i = .claimTester) (ta : Vector Bool cfg.TESTER)
    (mt : Fin cfg.K_CARS → Option (Fin cfg.TESTER)) {pc' : CarPc}
    (hpc' : pc' = .claimTester ∨ pc' = .reportNoTester ∨ pc' = .printStarting) :
    Invariant { b with
      tester_available := ta, my_tester := mt, pc := Function.update b.pc i pc' } := by
  have hin : pc'.inside = true := by
    rcases hpc' with hpc' | hpc' | hpc' <;> rw [hpc'] <;> rfl
  have hunits : ∀ r, b.resource r + pc'.units r = b.resource r + (b.pc i).units r := by
    intro r
    rw [hpc]
    rcases hpc' with hpc' | hpc' | hpc' <;> rw [hpc'] <;> cases r <;> rfl
  exact h.car_served b.mechanic_available b.my_mechanic ta mt (by rw [hpc]; rfl) hin hunits

theorem FineInvariant.mechanic (h : FineInvariant s) {i : Fin cfg.K_CARS}
    {c : Scan (Fin cfg.K_CARS) cfg.MECHANIC} (hpc : s.base.pc i = .claimMechanic)
    (hc : (s.mechanicScan i).step i = some c) :
    FineInvariant (s.withMechanicScan i .reportNoMechanic .waitDiagnostic c) := by
  unfold Fine.withMechanicScan
  rw [hpc]
  exact {
    base := h.base.scan_mechanic hpc c.available _ (c.label_cases _ _ _)
    mechanic_rest := rest_scan h.mechanic_rest
    tester_rest := rest_other h.tester_rest (by rw [hpc]; exact nofun)
    mechanic_fresh := fresh_scan ((h.mechanic_fresh i).step hc) h.mechanic_fresh
    tester_fresh := h.tester_fresh }

theorem FineInvariant.tester (h : FineInvariant s) {i : Fin cfg.K_CARS}
    {c : Scan (Fin cfg.K_CARS) cfg.TESTER} (hpc : s.base.pc i = .claimTester)
    (hc : (s.testerScan i).step i = some c) :
    FineInvariant (s.withTesterScan i .reportNoTester .printStarting c) := by
  unfold Fine.withTesterScan
  rw [hpc]
  exact {
    base := h.base.scan_tester hpc c.available _ (c.label_cases _ _ _)
    mechanic_rest := rest_other h.mechanic_rest (by rw [hpc]; exact nofun)
    tester_rest := rest_scan h.tester_rest
    mechanic_fresh := h.mechanic_fresh
    tester_fresh := fresh_scan ((h.tester_fresh i).step hc) h.tester_fresh }

/-- A step outside the scans: nobody leaves a scan by it. -/
theorem FineInvariant.of_base (h : FineInvariant s) {b : State cfg} (hb : Invariant b)
    (hmechanic : b.my_mechanic = s.base.my_mechanic) (htester : b.my_tester = s.base.my_tester)
    (hpc : ∀ j, (s.base.pc j = .claimMechanic → b.pc j = .claimMechanic) ∧
      (s.base.pc j = .claimTester → b.pc j = .claimTester)) :
    FineInvariant { s with base := b } where
  base := hb
  mechanic_rest j hj := h.mechanic_rest j fun hc => hj ((hpc j).1 hc)
  tester_rest j hj := h.tester_rest j fun hc => hj ((hpc j).2 hc)
  mechanic_fresh j k hk := by
    show b.my_mechanic j = none
    rw [hmechanic]
    exact h.mechanic_fresh j k hk
  tester_fresh j k hk := by
    show b.my_tester j = none
    rw [htester]
    exact h.tester_fresh j k hk

/-- **Every step keeps the invariant.** -/
theorem FineInvariant.next {s' : Fine cfg} {a : Action cfg.K_CARS} (h : FineInvariant s)
    (hstep : fineStep s a = some s') : FineInvariant s' := by
  cases fineStep_effect hstep with
  | service a b ha hb hs' =>
      subst hs'
      have hframe := step_frame h.base ha hb
      refine h.of_base (h.base.step hb) hframe.my_mechanic hframe.my_tester ?_
      intro j
      rcases hframe.pc j with hj | ⟨hj, -⟩
      · rw [hj]
        exact ⟨id, id⟩
      · rw [hj]
        exact ⟨nofun, nofun⟩
  | car i op next b hcode hop hb hs' =>
      subst hs'
      have hframe := carStep_frame hb hcode hop
      refine h.of_base (h.base.car hb) hframe.my_mechanic hframe.my_tester ?_
      intro j
      rw [hframe.pc]
      by_cases hji : j = i
      · subst hji
        obtain ⟨hmechanic, htester⟩ := not_claiming hcode hop
        exact ⟨fun hc => absurd hc hmechanic, fun hc => absurd hc htester⟩
      · rw [Function.update_of_ne hji]
        exact ⟨id, id⟩
  | mechanic i e next c hcode hc hs' =>
      subst hs'
      obtain ⟨hpc, rfl, rfl⟩ := code_claim_mechanic hcode
      exact h.mechanic hpc hc
  | tester i e next c hcode hc hs' =>
      subst hs'
      obtain ⟨hpc, rfl, rfl⟩ := code_claim_tester hcode
      exact h.tester hpc hc

theorem fineInvariant_start (cars : Heap (Fin cfg.K_CARS))
    (array : Vector (Fin cfg.K_CARS) cfg.K_CARS) :
    FineInvariant (Fine.start cars array : Fine cfg) where
  base := invariant_start cars array
  mechanic_rest _ _ := rfl
  tester_rest _ _ := rfl
  mechanic_fresh _ _ _ := rfl
  tester_fresh _ _ _ := rfl

end invariant

/-! ## §4. Every step is a step of the pools. -/

/-- **Every step is one of the pool of mechanics, and one of the pool of
testers, or none.** -/
theorem fineStep_pools {s s' : Fine cfg} {a : Action cfg.K_CARS} (h : FineInvariant s)
    (hstep : fineStep s a = some s') :
    PoolStep s.mechanics s'.mechanics ∧ PoolStep s.testers s'.testers := by
  cases fineStep_effect hstep with
  | service a b ha hb hs' =>
      subst hs'
      have hframe := step_frame h.base ha hb
      constructor <;> left
      · show poolOf mechanicStation b.pc s.mechanic_scan b.my_mechanic b.mechanic_available _ = _
        rw [hframe.my_mechanic, hframe.mechanics]
        exact poolOf_service hframe.pc ⟨rfl, rfl⟩
      · show poolOf testerStation b.pc s.tester_scan b.my_tester b.tester_available _ = _
        rw [hframe.my_tester, hframe.testers]
        exact poolOf_service hframe.pc ⟨rfl, rfl⟩
  | car i op next b hcode hop hb hs' =>
      subst hs'
      have hframe := carStep_frame hb hcode hop
      obtain ⟨hmechanic, htester⟩ := code_stations hcode hop
      obtain ⟨hpc, hpc'⟩ := not_claiming hcode hop
      constructor
      · show PoolStep _
          (poolOf mechanicStation b.pc s.mechanic_scan b.my_mechanic b.mechanic_available _)
        rw [hframe.pc, hframe.my_mechanic, hframe.mechanics]
        exact poolOf_car (h.mechanic_rest i hpc) hmechanic
      · show PoolStep _
          (poolOf testerStation b.pc s.tester_scan b.my_tester b.tester_available _)
        rw [hframe.pc, hframe.my_tester, hframe.testers]
        exact poolOf_car (h.tester_rest i hpc') htester
  | mechanic i e next c hcode hc hs' =>
      subst hs'
      obtain ⟨hpc, rfl, rfl⟩ := code_claim_mechanic hcode
      constructor
      · exact poolOf_scan hc (h.mechanic_fresh i) (by rw [hpc]; rfl) rfl rfl
      · left
        exact poolOf_same (Scan.label_common testerStation (by rw [hpc]; rfl) (by rw [hpc]; rfl))
  | tester i e next c hcode hc hs' =>
      subst hs'
      obtain ⟨hpc, rfl, rfl⟩ := code_claim_tester hcode
      constructor
      · left
        exact poolOf_same (Scan.label_common mechanicStation (by rw [hpc]; rfl) (by rw [hpc]; rfl))
      · exact poolOf_scan hc (h.tester_fresh i) (by rw [hpc]; rfl) rfl rfl

end ConcurrencyCrypto.Garage
