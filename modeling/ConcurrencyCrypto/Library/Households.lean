/-
  ConcurrencyCrypto.Library.Households
  ────────────────────────────────────
  **A PROCESS WITH ONE CHILD AT A TIME.**

  A process that waits for each child before it forks the next one has at most
  one that is not reaped.  Such a family is told by the status of the process,
  the number of its reaped children, and the status of the one that is left.

    • `household_step` — whoever steps in it is the process or that child;
    • `acts_printf`, … — what the step then does, by the call at hand.
-/
import ConcurrencyCrypto.Library.Processes

namespace ConcurrencyCrypto.Library

variable {L C : Type}

/-! ## §1. Families. -/

/-- A process without its input. -/
def System.shape (σ : System L C) : Pid → Option (Status L C × Nat) :=
  fun p => (σ.process p).map fun q => (q.status, q.forks)

/-- A process in status `st` with so many children reaped, and maybe one
more. -/
def household (st : Status L C) (reaped : Nat) (child : Option (Status L C)) :
    Pid → Option (Status L C × Nat)
  | [] => some (st, reaped + child.toList.length)
  | [n] => if n < reaped then some (.reaped, 0) else if n = reaped then child.map (·, 0) else none
  | _ => none

section shapes
variable {σ : System L C} {p : Pid} {st : Status L C} {f : Nat} {child : Option (Status L C)}

theorem shape_set (σ : System L C) (p : Pid) (q : Process L C) :
    (σ.set p q).shape = Function.update σ.shape p (some (q.status, q.forks)) := by
  funext p'
  by_cases hp : p' = p
  · rw [hp, Function.update_self]
    show ((σ.process.set p q) p).map _ = _
    rw [Table.set_self]
    rfl
  · rw [Function.update_of_ne hp]
    show ((σ.process.set p q) p').map _ = _
    rw [Table.set_ne hp]
    rfl

theorem shape_emit (σ : System L C) (e : Effect C) : (σ.emit e).shape = σ.shape := rfl

theorem shape_eq {q : Process L C} (hp : σ.process p = some q) :
    σ.shape p = some (q.status, q.forks) := by
  unfold System.shape
  rw [hp]
  rfl

theorem exists_of_shape {r : Status L C × Nat} (h : σ.shape p = some r) :
    ∃ q, σ.process p = some q ∧ q.status = r.1 ∧ q.forks = r.2 := by
  obtain ⟨q, hq, hr⟩ := Option.map_eq_some_iff.mp h
  exact ⟨q, hq, congrArg Prod.fst hr, congrArg Prod.snd hr⟩

/-- The first process moves on. -/
theorem update_root (st st' : Status L C) (f : Nat) (child : Option (Status L C)) :
    Function.update (household st f child) [] (some (st', f + child.toList.length))
      = household st' f child := by
  funext p
  cases p with
  | nil => exact Function.update_self _ _ _
  | cons n rest =>
      rw [Function.update_of_ne (List.cons_ne_nil n rest)]
      cases rest with
      | nil => rfl
      | cons m rest => rfl

theorem household_child (st : Status L C) (f : Nat) (child : Option (Status L C)) (n : Nat) :
    household st f child [n]
      = if n < f then some (.reaped, 0) else if n = f then child.map (·, 0) else none := rfl

/-- Nothing but the first process and the child `f` changes. -/
theorem update_both {st st' : Status L C} {f f' : Nat} {child child' : Option (Status L C)}
    {new : Status L C} (hroot : f' + child'.toList.length = f + 1)
    (hnew : household st' f' child' [f] = some (new, 0))
    (hother : ∀ n, n ≠ f → household st' f' child' [n] = household st f child [n]) :
    Function.update (Function.update (household st f child) [] (some (st', f + 1))) [f]
      (some (new, 0)) = household st' f' child' := by
  funext p
  cases p with
  | nil =>
      rw [Function.update_of_ne (List.cons_ne_nil f []).symm, Function.update_self, ← hroot]
      rfl
  | cons n rest =>
      cases rest with
      | nil =>
          by_cases hn : n = f
          · rw [hn, Function.update_self, hnew]
          · have hne : ([n] : Pid) ≠ [f] := fun h => hn (List.cons.inj h).1
            rw [Function.update_of_ne hne, Function.update_of_ne (List.cons_ne_nil n []),
              hother n hn]
      | cons m rest =>
          have hne : (n :: m :: rest : Pid) ≠ [f] := by
            intro h
            cases (List.cons.inj h).2
          rw [Function.update_of_ne hne, Function.update_of_ne (List.cons_ne_nil n _)]
          rfl

/-- A child is forked. -/
theorem update_fork (st st' child : Status L C) (f : Nat) :
    Function.update (Function.update (household st f none) [] (some (st', f + 1))) [f]
      (some (child, 0)) = household st' f (some child) := by
  refine update_both rfl ?_ ?_
  · rw [household_child, if_neg (Nat.lt_irrefl f), if_pos rfl]
    rfl
  · intro n hn
    rw [household_child, household_child, if_neg hn, if_neg hn]

/-- The child is reaped. -/
theorem update_reap (st st' child : Status L C) (f : Nat) :
    Function.update (Function.update (household st f (some child)) [] (some (st', f + 1))) [f]
      (some (.reaped, 0)) = household st' (f + 1) none := by
  refine update_both rfl ?_ ?_
  · rw [household_child, if_pos (Nat.lt_succ_self f)]
  · intro n hn
    rw [household_child, household_child, if_neg hn]
    by_cases hlt : n < f
    · rw [if_pos hlt, if_pos (Nat.lt_succ_of_lt hlt)]
    · rw [if_neg hlt, if_neg (by omega)]
      split
      · rfl
      · rfl

/-- The child moves on. -/
theorem update_child (st child child' : Status L C) (f : Nat) :
    Function.update (household st f (some child)) [f] (some (child', 0))
      = household st f (some child') := by
  funext p
  by_cases hp : p = [f]
  · rw [hp, Function.update_self, household_child, if_neg (Nat.lt_irrefl f), if_pos rfl]
    rfl
  · rw [Function.update_of_ne hp]
    cases p with
    | nil => rfl
    | cons n rest =>
        cases rest with
        | nil =>
            have hn : n ≠ f := fun h => hp (by rw [h])
            rw [household_child, household_child, if_neg hn, if_neg hn]
        | cons m rest => rfl

/-- Who there is. -/
theorem household_cases {r : Status L C × Nat} (h : household st f child p = some r) :
    (p = [] ∧ r = (st, f + child.toList.length)) ∨ r = (.reaped, 0) ∨
      ∃ st', child = some st' ∧ p = [f] ∧ r = (st', 0) := by
  cases p with
  | nil =>
      injection h with h
      exact Or.inl ⟨rfl, h.symm⟩
  | cons n rest =>
      cases rest with
      | nil =>
          rw [household_child] at h
          split at h
          · injection h with h
            exact Or.inr (Or.inl h.symm)
          · split at h
            next hn =>
              obtain ⟨st', hst', hr⟩ := Option.map_eq_some_iff.mp h
              exact Or.inr (Or.inr ⟨st', hst', by rw [hn], hr.symm⟩)
            next => cases h
      | cons m rest => cases h

end shapes

/-! ## §2. Who steps. -/

/-- The actions that change the input of a process. -/
def Act.isInput : Act → Bool
  | .input _ _ => true
  | _ => false

/-- Process `p`, which is `q`, makes the call it is at, or the call fails. -/
def Acts (P : Project L C) (σ : System L C) (p : Pid) (q : Process L C) (code : Code L C)
    (σ' : System L C) : Prop :=
  (∃ answer, σ.advance P p q answer code = some σ') ∨ σ.fail p q code = some σ'

section steps
variable {P : Project L C} {σ σ' : System L C} {p : Pid} {st : Status L C} {f : Nat}
  {child : Option (Status L C)}

/-- **Any step**: some input changes, a foreign program ends, or a process makes
its call. -/
theorem step_acts {a : Act} (h : σ.step P a = some σ') :
    (a.isInput = true ∧ σ'.shape = σ.shape ∧ σ'.events = σ.events) ∨
      (∃ p q path argv, σ.process p = some q ∧ q.status = .foreign path argv) ∨
      ∃ p q code, σ.process p = some q ∧ q.status = .running code ∧ Acts P σ p q code σ' := by
  cases a with
  | run p answer =>
      simp only [System.step] at h
      split at h
      · next q hp =>
          split at h
          · next code hcode => exact Or.inr (Or.inr ⟨p, q, code, hp, hcode, Or.inl ⟨answer, h⟩⟩)
          · cases h
      · cases h
  | fails p =>
      simp only [System.step] at h
      split at h
      · next q hp =>
          split at h
          · next code hcode => exact Or.inr (Or.inr ⟨p, q, code, hp, hcode, Or.inr h⟩)
          · cases h
      · cases h
  | ends p status =>
      simp only [System.step] at h
      split at h
      · next q hp =>
          split at h
          · next path argv hforeign => exact Or.inr (Or.inl ⟨p, q, path, argv, hp, hforeign⟩)
          · cases h
      · cases h
  | input p text =>
      simp only [System.step] at h
      split at h
      · next q hp =>
          cases h
          refine Or.inl ⟨rfl, ?_, rfl⟩
          rw [shape_set, ← shape_eq hp]
          exact Function.update_eq_self p _
      · cases h

/-- **WHO STEPS IN A HOUSEHOLD**: the process, or its child. -/
theorem household_step (hσ : σ.shape = household st f child)
    (hst : ∀ path argv, st ≠ .foreign path argv)
    (hchild : ∀ path argv, child ≠ some (.foreign path argv)) {a : Act}
    (h : σ.step P a = some σ') :
    (a.isInput = true ∧ σ'.shape = σ.shape ∧ σ'.events = σ.events) ∨
      (∃ q code, σ.process [] = some q ∧ q.forks = f + child.toList.length ∧
        st = .running code ∧ Acts P σ [] q code σ') ∨
      ∃ q code, σ.process [f] = some q ∧ q.forks = 0 ∧ child = some (.running code) ∧
        Acts P σ [f] q code σ' := by
  rcases step_acts h with hsame | ⟨p, q, path, argv, hp, hforeign⟩ | ⟨p, q, code, hp, hcode, hacts⟩
  · exact Or.inl hsame
  · have hshape := shape_eq hp
    rw [hσ] at hshape
    rcases household_cases hshape with ⟨-, hr⟩ | hr | ⟨st', hst', -, hr⟩
    · have hq : q.status = st := congrArg Prod.fst hr
      exact absurd (hq.symm.trans hforeign) (hst path argv)
    · have hq : q.status = .reaped := congrArg Prod.fst hr
      rw [hq] at hforeign
      cases hforeign
    · have hq : q.status = st' := congrArg Prod.fst hr
      rw [← hq, hforeign] at hst'
      exact absurd hst' (hchild path argv)
  · have hshape := shape_eq hp
    rw [hσ] at hshape
    rcases household_cases hshape with ⟨rfl, hr⟩ | hr | ⟨st', hst', rfl, hr⟩
    · have hq : q.status = st := congrArg Prod.fst hr
      exact Or.inr (Or.inl ⟨q, code, hp, congrArg Prod.snd hr, hq.symm.trans hcode, hacts⟩)
    · have hq : q.status = .reaped := congrArg Prod.fst hr
      rw [hq] at hcode
      cases hcode
    · have hq : q.status = st' := congrArg Prod.fst hr
      rw [← hq, hcode] at hst'
      exact Or.inr (Or.inr ⟨q, code, hp, congrArg Prod.snd hr, hst', hacts⟩)

/-- Without a child it is the process. -/
theorem household_alone {code : Code L C} (hσ : σ.shape = household (.running code) f none)
    {a : Act} (h : σ.step P a = some σ') :
    (a.isInput = true ∧ σ'.shape = σ.shape ∧ σ'.events = σ.events) ∨
      ∃ q, σ.process [] = some q ∧ q.forks = f ∧ Acts P σ [] q code σ' := by
  rcases household_step hσ nofun nofun h with hsame | ⟨q, code', hp, hforks, hcode, hacts⟩ |
    ⟨q, code', -, -, hchild, -⟩
  · exact Or.inl hsame
  · injection hcode with hcode
    rw [hcode]
    exact Or.inr ⟨q, hp, hforks, hacts⟩
  · cases hchild

/-- When it has ended nobody is left. -/
theorem household_over {status : Int} (hσ : σ.shape = household (.zombie status) f none)
    {a : Act} (h : σ.step P a = some σ') :
    a.isInput = true ∧ σ'.shape = σ.shape ∧ σ'.events = σ.events := by
  rcases household_step hσ nofun nofun h with hsame | ⟨q, code', -, -, hcode, -⟩ |
    ⟨q, code', -, -, hchild, -⟩
  · exact hsame
  · cases hcode
  · cases hchild

/-- With a child it is the process, at its `wait`, or the child. -/
theorem household_busy {next : Code L C} {c : Status L C}
    (hσ : σ.shape = household (.running (.wait next)) f (some c))
    (hc : ∀ path argv, c ≠ .foreign path argv) {a : Act} (h : σ.step P a = some σ') :
    (a.isInput = true ∧ σ'.shape = σ.shape ∧ σ'.events = σ.events) ∨
      (∃ q, σ.process [] = some q ∧ Acts P σ [] q (.wait next) σ') ∨
      ∃ q code, σ.process [f] = some q ∧ q.forks = 0 ∧ c = .running code ∧
        Acts P σ [f] q code σ' := by
  have hchild : ∀ path argv, some c ≠ some (.foreign path argv) :=
    fun path argv heq => hc path argv (Option.some.inj heq)
  rcases household_step hσ nofun hchild h with hsame | ⟨q, code, hp, -, hcode, hacts⟩ |
    ⟨q, code, hp, hforks, heq, hacts⟩
  · exact Or.inl hsame
  · injection hcode with hcode
    rw [← hcode] at hacts
    exact Or.inr (Or.inl ⟨q, hp, hacts⟩)
  · exact Or.inr (Or.inr ⟨q, code, hp, hforks, Option.some.inj heq, hacts⟩)

end steps

/-! ## §3. What it does. -/

section acts
variable {P : Project L C} {σ σ' : System L C} {p : Pid} {q : Process L C}

theorem acts_printf {text : CString} {next : Code L C}
    (h : Acts P σ p q (.printf text next) σ') :
    σ'.shape = Function.update σ.shape p (some (.running next, q.forks)) ∧
      σ'.events = σ.events ++ [.printed text] := by
  rcases h with ⟨answer, h⟩ | h
  · injection h with h
    rw [← h]
    exact ⟨shape_set σ p _, rfl⟩
  · cases h

theorem acts_goto {l : L} (h : Acts P σ p q (.goto l) σ') :
    σ'.shape = Function.update σ.shape p (some (.running (P.code l), q.forks)) ∧
      σ'.events = σ.events := by
  rcases h with ⟨answer, h⟩ | h
  · injection h with h
    rw [← h]
    exact ⟨shape_set σ p _, rfl⟩
  · cases h

theorem acts_exit {status : Int} (h : Acts P σ p q (.exit status) σ') :
    σ'.shape = Function.update σ.shape p (some (.zombie status, q.forks)) ∧
      σ'.events = σ.events := by
  rcases h with ⟨answer, h⟩ | h
  · injection h with h
    rw [← h]
    exact ⟨shape_set σ p _, rfl⟩
  · cases h

/-- A `fork` that fails, or a new child. -/
theorem acts_fork {next : Int → Code L C} (h : Acts P σ p q (.fork next) σ') :
    (σ'.shape = Function.update σ.shape p (some (.running (next (-1)), q.forks)) ∧
        σ'.events = σ.events ++ [.forked true]) ∨
      ∃ answer, 0 < answer ∧ σ'.events = σ.events ++ [.forked false] ∧
        σ'.shape = Function.update
          (Function.update σ.shape p (some (.running (next answer), q.forks + 1)))
          (q.forks :: p) (some (.running (next 0), 0)) := by
  rcases h with ⟨answer, h⟩ | h
  · simp only [System.advance] at h
    split at h
    next hanswer =>
      injection h with h
      rw [← h]
      refine Or.inr ⟨answer, hanswer, rfl, ?_⟩
      rw [shape_emit, shape_set, shape_set]
    next => cases h
  · injection h with h
    rw [← h]
    exact Or.inl ⟨shape_set σ p _, rfl⟩

/-- A `wait` that finds a child that has ended, or finds none that is left. -/
theorem acts_wait {next : Code L C} (h : Acts P σ p q (.wait next) σ') :
    (σ.process.childless p q = true) ∨
      ∃ n c, σ.process (n :: p) = some c ∧ c.status.isZombie = true ∧
        σ'.events = σ.events ++ [.waited] ∧
        σ'.shape = Function.update
          (Function.update σ.shape p (some (.running next, q.forks)))
          (n :: p) (some (.reaped, c.forks)) := by
  rcases h with ⟨answer, h⟩ | h
  · simp only [System.advance] at h
    split at h
    next =>
      split at h
      next hnone => exact Or.inl hnone
      next => cases h
    next =>
      split at h
      next c hc =>
        split at h
        next hzombie =>
          injection h with h
          rw [← h]
          refine Or.inr ⟨_, c, hc, hzombie, rfl, ?_⟩
          rw [shape_emit, shape_set, shape_set]
        next => cases h
      next => cases h
  · cases h

end acts

/-! ## §4. In a household. -/

section household
variable {P : Project L C} {σ σ' : System L C} {q : Process L C} {st c : Status L C} {f : Nat}

/-- **The `wait` of a household** is for its child, which has ended. -/
theorem household_wait {next : Code L C} (hσ : σ.shape = household st f (some c))
    (hc : c.isReaped = false) (hp : σ.process [] = some q)
    (h : Acts P σ [] q (.wait next) σ') :
    c.isZombie = true ∧ σ'.shape = household (.running next) (f + 1) none ∧
      σ'.events = σ.events ++ [.waited] := by
  have hforks : q.forks = f + 1 := by
    have hroot := shape_eq hp
    rw [hσ] at hroot
    injection hroot with hroot
    exact (congrArg Prod.snd hroot).symm
  have hself : σ.shape [f] = some (c, 0) := by
    rw [hσ, household_child, if_neg (Nat.lt_irrefl f), if_pos rfl]
    rfl
  obtain ⟨r, hr, hstatus, -⟩ := exists_of_shape hself
  have hleft : r.status.isReaped = false := by
    rw [hstatus]
    exact hc
  rcases acts_wait h with hnone | ⟨n, d, hd, hzombie, hevents, hshape⟩
  · -- the child is still there
    unfold Table.childless at hnone
    rw [List.all_eq_true] at hnone
    have hreaped := hnone f (by rw [hforks]; exact List.mem_range.mpr (Nat.lt_succ_self f))
    rw [Table.reaped_eq hr, hleft] at hreaped
    cases hreaped
  · have hchild := shape_eq hd
    rw [hσ] at hchild
    rcases household_cases hchild with ⟨heq, -⟩ | hgone | ⟨st', hst', heq, hd'⟩
    · cases heq
    · have hdst : d.status = .reaped := congrArg Prod.fst hgone
      rw [hdst] at hzombie
      cases hzombie
    · injection hst' with hst'
      obtain rfl : n = f := (List.cons.inj heq).1
      have hdst : d.status = c := (congrArg Prod.fst hd').trans hst'.symm
      have hdforks : d.forks = 0 := congrArg Prod.snd hd'
      refine ⟨by rw [← hdst]; exact hzombie, ?_, hevents⟩
      rw [hshape, hσ, hforks, hdforks, update_reap]

/-- **The `fork` of a household** without a child. -/
theorem household_fork {next : Int → Code L C} (hσ : σ.shape = household st f none)
    (hforks : q.forks = f) (h : Acts P σ [] q (.fork next) σ') :
    (σ'.shape = household (.running (next (-1))) f none ∧
        σ'.events = σ.events ++ [.forked true]) ∨
      ∃ answer, 0 < answer ∧ σ'.events = σ.events ++ [.forked false] ∧
        σ'.shape = household (.running (next answer)) f (some (.running (next 0))) := by
  rcases acts_fork h with ⟨hshape, hevents⟩ | ⟨answer, hanswer, hevents, hshape⟩
  · refine Or.inl ⟨?_, hevents⟩
    rw [hshape, hσ, hforks]
    exact update_root st _ f none
  · refine Or.inr ⟨answer, hanswer, hevents, ?_⟩
    rw [hshape, hσ, hforks]
    exact update_fork st _ _ f

/-- Where a process can go on. -/
theorem enabled_of_shape {p : Pid} {code : Code L C} {r : Nat} (answer : Int)
    (hp : σ.shape p = some (.running code, r))
    (hgo : ∀ q, ∃ σ', σ.advance P p q answer code = some σ') :
    Enabled (System.step P) σ (.run p answer) := by
  obtain ⟨q, hq, hstatus, -⟩ := exists_of_shape hp
  obtain ⟨σ', hσ'⟩ := hgo q
  exact ⟨σ', (System.step_run hq hstatus answer).trans hσ'⟩

/-- A household goes on behind the end of its child. -/
theorem enabled_wait {next : Code L C}
    (hσ : σ.shape = household (.running (.wait next)) f (some c)) (hc : c.isZombie = true) :
    Enabled (System.step P) σ (.run [] f) := by
  have hself : σ.shape [f] = some (c, 0) := by
    rw [hσ, household_child, if_neg (Nat.lt_irrefl f), if_pos rfl]
    rfl
  obtain ⟨r, hr, hstatus, -⟩ := exists_of_shape hself
  have hzombie : r.status.isZombie = true := by
    rw [hstatus]
    exact hc
  refine enabled_of_shape (f : Int) (by rw [hσ]; rfl) ?_
  intro q
  have hne : ¬ (f : Int) = -1 := by omega
  simp only [System.advance, if_neg hne, Int.toNat_natCast, hr, hzombie, if_true]
  exact ⟨_, rfl⟩

/-- All children of a household without a child are reaped. -/
theorem household_reaped {st : Status L C} (hσ : σ.shape = household st f none) {p : Pid}
    (hp : p ≠ []) {d : Process L C} (hd : σ.process p = some d) : d.status = .reaped := by
  have hshape := shape_eq hd
  rw [hσ] at hshape
  rcases household_cases hshape with ⟨heq, -⟩ | hgone | ⟨st', hst', -, -⟩
  · exact absurd heq hp
  · exact congrArg Prod.fst hgone
  · cases hst'

end household

end ConcurrencyCrypto.Library
