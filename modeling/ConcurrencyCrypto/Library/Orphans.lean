/-
  ConcurrencyCrypto.Library.Orphans
  ─────────────────────────────────
  **PROCESSES THAT END BEFORE THEIR CHILDREN ARE WAITED FOR.**

  `Tidy excuse code n` reads off the code of a process with `n` children left
  that it ends with none, unless it has just reported `excuse`: then it may
  leave one.  Programs are executed, and turns of a loop ended, with none.

    • `Tended.step`       — every action keeps that, whatever fails,
    • `reaped_of_tended`  — so where nobody has reported `excuse`, a process
                            that has ended is the last of its descendants.
-/
import ConcurrencyCrypto.Library.ProcessTrees

namespace ConcurrencyCrypto.Library

variable {L C : Type}

/-! ## §1. The check. -/

/-- See the top of the file. -/
def Tidy (excuse : CString) : Code L C → Nat → Prop
  | .printf _ next, n => Tidy excuse next n
  | .perror text next, n =>
      (text = excuse ∧ n ≤ 1 ∧ ∃ status, next = .exit status) ∨ Tidy excuse next n
  | .scanf _ _ next, n => ∀ r ws, Tidy excuse (next r ws) n
  | .fgets _ next, n => ∀ line, Tidy excuse (next line) n
  | .call _ next, n => ∀ r, Tidy excuse (next r) n
  | .fork next, n =>
      Tidy excuse (next (-1)) n ∧ Tidy excuse (next 0) 0 ∧
        ∀ pid, 0 < pid → Tidy excuse (next pid) (n + 1)
  | .wait next, n => Tidy excuse next (n - 1)
  | .execl _ _ failed, n => n = 0 ∧ Tidy excuse failed n
  | .goto _, n => n = 0
  | .exit _, n => n = 0
  | .undefined, _ => True

/-- A process in this status, with `n` children left; `said` says that the
excuse has been reported. -/
def Leaves (excuse : CString) (said : Prop) : Status L C → Nat → Prop
  | .running code, n => Tidy excuse code n ∨ (said ∧ n ≤ 1 ∧ ∃ status, code = .exit status)
  | .foreign _ _, n => n = 0
  | .zombie _, n => n = 0 ∨ (said ∧ n ≤ 1)
  | .reaped, n => n = 0 ∨ (said ∧ n ≤ 1)

section leaves
variable {excuse : CString} {said said' : Prop} {st : Status L C} {n : Nat}

/-- What has been reported stays reported. -/
theorem Leaves.mono (hsaid : said → said') (h : Leaves excuse said st n) :
    Leaves excuse said' st n := by
  cases st with
  | running code => exact h.imp_right fun hexit => ⟨hsaid hexit.1, hexit.2⟩
  | foreign path argv => exact h
  | zombie status => exact h.imp_right fun hleft => ⟨hsaid hleft.1, hleft.2⟩
  | reaped => exact h.imp_right fun hleft => ⟨hsaid hleft.1, hleft.2⟩

def Code.isExit : Code L C → Bool
  | .exit _ => true
  | _ => false

/-- Only its end is still to come when a process has given the excuse. -/
theorem Leaves.tidy {code : Code L C} (h : Leaves excuse said (.running code) n)
    (hcode : code.isExit = false) : Tidy excuse code n := by
  rcases h with h | ⟨-, -, status, rfl⟩
  · exact h
  · cases hcode

theorem Leaves.of_ended (h : Leaves excuse said st n) (hended : st.isEnded = true) :
    n = 0 ∨ (said ∧ n ≤ 1) := by
  cases st with
  | zombie status => exact h
  | reaped => exact h
  | _ => cases hended

end leaves

/-! ## §2. One step. -/

/-- What every action keeps. -/
structure Tended (excuse : CString) (s : System L C) : Prop where
  family : s.process.Family
  leaves : ∀ p q, s.process p = some q →
    Leaves excuse (.perror excuse ∈ s.events) q.status (s.process.left p).card

section steps
variable {P : Project L C} {excuse : CString} {s s' : System L C} {p : Pid} {q : Process L C}
  {code : Code L C}

/-- One process moves on, and the rest is as before. -/
theorem Tended.set (ht : Tended excuse s) (hp : s.process p = some q) {st : Status L C}
    (stdin : List UInt8) (hst : st.isReaped = q.status.isReaped)
    (hs' : s'.process = s.process.set p ⟨st, stdin, q.forks⟩) (hevents : s.events ⊆ s'.events)
    (hleaves : Leaves excuse (.perror excuse ∈ s'.events) st (s.process.left p).card) :
    Tended excuse s' := by
  have hleft : ∀ p', s'.process.left p' = s.process.left p' := by
    rw [hs']
    exact Table.left_congr (Table.forks_set_same hp) (Table.reaped_set_same hp hst)
  refine ⟨?_, ?_⟩
  · rw [Table.Family, hs', Table.forks_set_same hp]
    exact ht.family
  · intro p' q' hq'
    rw [hleft]
    rw [hs'] at hq'
    by_cases heq : p' = p
    · rw [heq, Table.set_self] at hq'
      cases hq'
      rw [heq]
      exact hleaves
    · rw [Table.set_ne heq] at hq'
      exact (ht.leaves p' q' hq').mono fun hsaid => hevents hsaid

/-- A new process, which has no children. -/
theorem Tended.fork (ht : Tended excuse s) (hp : s.process p = some q) {next : Int → Code L C}
    (hq : q.status = .running (.fork next)) {answer : Int} (hanswer : 0 < answer) :
    Tended excuse (((s.set p ⟨.running (next answer), q.stdin, q.forks + 1⟩).set
      (q.forks :: p) ⟨.running (next 0), q.stdin, 0⟩).emit (.forked false)) := by
  have hsame : (Status.running (next answer)).isReaped = q.status.isReaped := by
    rw [hq]
    rfl
  have htidy := ht.leaves p q hp
  rw [hq] at htidy
  obtain ⟨-, hchild, hparent⟩ := htidy.tidy rfl
  refine ⟨ht.family.fork hp, ?_⟩
  show ∀ p' q', (s.process.set p ⟨.running (next answer), q.stdin, q.forks + 1⟩).set
      (q.forks :: p) ⟨.running (next 0), q.stdin, 0⟩ p' = some q' →
    Leaves excuse (.perror excuse ∈ s.events ++ [.forked false]) q'.status
      (((s.process.set p ⟨.running (next answer), q.stdin, q.forks + 1⟩).set
        (q.forks :: p) ⟨.running (next 0), q.stdin, 0⟩).left p').card
  intro p' q' hq'
  by_cases hnew : p' = q.forks :: p
  · rw [hnew, Table.set_self] at hq'
    cases hq'
    rw [hnew, Table.left_of_forks_zero (Table.set_self _ _ _) rfl, Finset.card_empty]
    exact Or.inl hchild
  · rw [Table.set_ne hnew] at hq'
    by_cases heq : p' = p
    · rw [heq, Table.set_self] at hq'
      cases hq'
      rw [heq, Table.left_fork hp hsame rfl]
      exact Or.inl (hparent answer hanswer)
    · rw [Table.set_ne heq] at hq'
      rw [Table.left_fork_ne ht.family hp hsame heq]
      exact (ht.leaves p' q' hq').mono (List.mem_append_left _)

/-- A child that has ended is waited for. -/
theorem Tended.reap (ht : Tended excuse s) (hp : s.process p = some q) {next : Code L C}
    (hq : q.status = .running (.wait next)) {n : Nat} {c : Process L C}
    (hc : s.process (n :: p) = some c) (hzombie : c.status.isZombie = true) :
    Tended excuse (((s.set p ⟨.running next, q.stdin, q.forks⟩).set (n :: p)
      ⟨.reaped, c.stdin, c.forks⟩).emit .waited) := by
  have hsame : (Status.running next).isReaped = q.status.isReaped := by
    rw [hq]
    rfl
  obtain ⟨status, hstatus⟩ : ∃ status, c.status = .zombie status := by
    cases hc' : c.status with
    | zombie status => exact ⟨status, rfl⟩
    | _ => rw [hc'] at hzombie; cases hzombie
  have hc' : s.process.set p ⟨.running next, q.stdin, q.forks⟩ (n :: p) = some c := by
    rw [Table.set_ne (child_ne n p), hc]
  have htidy := ht.leaves p q hp
  rw [hq] at htidy
  have hnext := htidy.tidy rfl
  refine ⟨?_, ?_⟩
  · show Table.Family ((s.process.set p ⟨.running next, q.stdin, q.forks⟩).set (n :: p)
      ⟨.reaped, c.stdin, c.forks⟩)
    rw [Table.Family, Table.forks_set_same hc', Table.forks_set_same hp]
    exact ht.family
  · show ∀ p' q', (s.process.set p ⟨.running next, q.stdin, q.forks⟩).set (n :: p)
        ⟨.reaped, c.stdin, c.forks⟩ p' = some q' →
      Leaves excuse (.perror excuse ∈ s.events ++ [.waited]) q'.status
        (((s.process.set p ⟨.running next, q.stdin, q.forks⟩).set (n :: p)
          ⟨.reaped, c.stdin, c.forks⟩).left p').card
    intro p' q' hq'
    by_cases hself : p' = p
    · rw [hself, Table.set_ne (child_ne n p).symm, Table.set_self] at hq'
      cases hq'
      rw [hself, Table.left_reap ht.family hp hc (by rw [hstatus]; rfl) hsame]
      exact Or.inl hnext
    · rw [Table.left_reap_ne hp hc hsame hself]
      by_cases hchild : p' = n :: p
      · rw [hchild, Table.set_self] at hq'
        cases hq'
        have hleaves := ht.leaves _ c hc
        rw [hstatus] at hleaves
        rw [hchild]
        have hreaped : Leaves excuse (.perror excuse ∈ s.events) (.reaped : Status L C)
          (s.process.left (n :: p)).card := hleaves
        exact hreaped.mono (List.mem_append_left _)
      · rw [Table.set_ne hchild, Table.set_ne hself] at hq'
        exact (ht.leaves p' q' hq').mono (List.mem_append_left _)

/-- A call that succeeds. -/
theorem Tended.advance (hcodes : ∀ l, Tidy excuse (P.code l) 0) (ht : Tended excuse s)
    (hp : s.process p = some q) (hq : q.status = .running code) {answer : Int}
    (h : s.advance P p q answer code = some s') : Tended excuse s' := by
  have hleaves := ht.leaves p q hp
  rw [hq] at hleaves
  -- the cases where the process goes on alone
  have hrun : ∀ {next : Code L C} (stdin : List UInt8) {es : List (Effect C)},
      s'.process = s.process.set p ⟨.running next, stdin, q.forks⟩ →
      s'.events = s.events ++ es → Tidy excuse next (s.process.left p).card → Tended excuse s' := by
    intro next stdin es hs' hevents hnext
    refine ht.set hp stdin (by rw [hq]; rfl) hs' ?_ (Or.inl hnext)
    rw [hevents]
    exact List.subset_append_left _ _
  cases code with
  | printf text next =>
      cases h
      exact hrun q.stdin rfl rfl (hleaves.tidy rfl)
  | perror text next =>
      cases h
      rcases hleaves.tidy rfl with ⟨htext, hle, hexit⟩ | hnext
      · refine ht.set hp q.stdin (by rw [hq]; rfl) rfl (List.subset_append_left _ _) ?_
        rw [htext]
        exact Or.inr ⟨List.mem_append_right _ (List.mem_singleton_self _), hle, hexit⟩
      · exact hrun q.stdin rfl rfl hnext
  | scanf capacity n next =>
      simp only [System.advance] at h
      split at h
      · cases h
        exact hrun _ rfl rfl (hleaves.tidy rfl _ _)
      · cases h
  | fgets size next =>
      simp only [System.advance] at h
      split at h
      · cases h
        exact hrun _ rfl rfl (hleaves.tidy rfl none)
      · cases h
        exact hrun _ rfl rfl (hleaves.tidy rfl (some _))
  | call c next =>
      cases h
      exact hrun q.stdin rfl rfl (hleaves.tidy rfl answer)
  | fork next =>
      simp only [System.advance] at h
      split at h
      · next hanswer =>
          cases h
          exact ht.fork hp hq hanswer
      · cases h
  | wait next =>
      simp only [System.advance] at h
      split at h
      · split at h
        · next hnone =>
            cases h
            have hnext : Tidy excuse next ((s.process.left p).card - 1) := hleaves.tidy rfl
            rw [Table.left_of_childless hp hnone] at hnext
            refine hrun q.stdin rfl (List.append_nil _).symm ?_
            rw [Table.left_of_childless hp hnone]
            exact hnext
        · cases h
      · split at h
        · next c hc =>
            split at h
            · next hzombie =>
                cases h
                exact ht.reap hp hq hc hzombie
            · cases h
        · cases h
  | execl path argv failed =>
      cases h
      obtain ⟨hnone, -⟩ := hleaves.tidy rfl
      refine ht.set hp q.stdin ?_ rfl (List.subset_append_left _ _) ?_
      · rw [hq]
        split
        · rfl
        · rfl
      · split
        · exact Or.inl hnone
        · exact hnone
  | goto l =>
      cases h
      have hnone : (s.process.left p).card = 0 := hleaves.tidy rfl
      refine hrun q.stdin rfl (List.append_nil _).symm ?_
      rw [hnone]
      exact hcodes l
  | exit status =>
      cases h
      refine ht.set hp q.stdin (by rw [hq]; rfl) rfl (List.Subset.refl _) ?_
      exact hleaves.imp_right fun hexit => ⟨hexit.1, hexit.2.1⟩
  | undefined => cases h

/-- A call that fails. -/
theorem Tended.fail (ht : Tended excuse s) (hp : s.process p = some q)
    (hq : q.status = .running code) (h : s.fail p q code = some s') : Tended excuse s' := by
  have hleaves := ht.leaves p q hp
  rw [hq] at hleaves
  cases code with
  | fork next =>
      cases h
      exact ht.set hp q.stdin (by rw [hq]; rfl) rfl (List.subset_append_left _ _)
        (Or.inl (hleaves.tidy rfl).1)
  | execl path argv failed =>
      cases h
      exact ht.set hp q.stdin (by rw [hq]; rfl) rfl (List.subset_append_left _ _)
        (Or.inl (hleaves.tidy rfl).2)
  | _ => cases h

/-- **EVERY ACTION KEEPS IT**, whatever fails. -/
theorem Tended.step (hcodes : ∀ l, Tidy excuse (P.code l) 0) (ht : Tended excuse s) {a : Act}
    (h : s.step P a = some s') : Tended excuse s' := by
  cases a with
  | run p answer =>
      simp only [System.step] at h
      split at h
      · next q hp =>
          split at h
          · next code hq => exact ht.advance hcodes hp hq h
          · cases h
      · cases h
  | fails p =>
      simp only [System.step] at h
      split at h
      · next q hp =>
          split at h
          · next code hq => exact ht.fail hp hq h
          · cases h
      · cases h
  | ends p status =>
      simp only [System.step] at h
      split at h
      · next q hp =>
          split at h
          · next path argv hq =>
              cases h
              have hleaves := ht.leaves p q hp
              rw [hq] at hleaves
              exact ht.set hp q.stdin (by rw [hq]; rfl) rfl (List.Subset.refl _) (Or.inl hleaves)
          · cases h
      · cases h
  | input p text =>
      simp only [System.step] at h
      split at h
      · next q hp =>
          cases h
          exact ht.set hp text rfl rfl (List.Subset.refl _) (ht.leaves p q hp)
      · cases h

end steps

/-! ## §3. Whole runs. -/

section runs
variable {P : Project L C} {excuse : CString} {s : System L C} {p : Pid} {q : Process L C}

/-- At first there is one process. -/
theorem Tended.start (l : L) (stdin : List UInt8) :
    Tended excuse (System.start l stdin : System L C) := by
  refine ⟨Table.Family.start l stdin, ?_⟩
  intro p q hp
  by_cases hroot : p = []
  · rw [hroot] at hp ⊢
    rw [Table.left_of_forks_zero (Table.start_root l stdin) rfl]
    rw [Table.start_root] at hp
    cases hp
    exact Or.inl (Finset.card_empty)
  · rw [Table.start_of_ne hroot] at hp
    cases hp

/-- **IN EVERY RUN**, whatever fails and in whatever order the processes run. -/
theorem tended_of_tidy (hcodes : ∀ l, Tidy excuse (P.code l) 0) {l : L} {stdin : List UInt8}
    (h : Reaches (System.step P) (System.start l stdin) s) : Tended excuse s :=
  h.invariant (I := Tended excuse) (Tended.start l stdin) fun _ _ _ ht => ht.step hcodes

/-- A process that has ended leaves one child at most, and gave the excuse if
it does. -/
theorem Tended.ended (ht : Tended excuse s) (hp : s.process p = some q)
    (hended : q.status.isEnded = true) :
    s.process.left p = ∅ ∨ (.perror excuse ∈ s.events ∧ (s.process.left p).card ≤ 1) :=
  ((ht.leaves p q hp).of_ended hended).imp_left Finset.card_eq_zero.mp

/-- Of a process without children left every child has been waited for. -/
theorem Table.Family.reaped_of_left {t : Table L C} (hfam : t.Family) (hleft : t.left p = ∅)
    (hp : t p = some q) {n : Nat} {c : Process L C} (hc : t (n :: p) = some c) :
    c.status = .reaped := by
  have hnot : n ∉ t.left p := by
    rw [hleft]
    exact Finset.notMem_empty n
  rw [Table.mem_left, Table.forks_eq hp, Table.reaped_eq hc] at hnot
  have hlt : n < (some q.forks).getD 0 := hfam.lt hp hc
  cases hstatus : c.status with
  | reaped => rfl
  | _ => exact absurd ⟨hlt, by rw [hstatus]; rfl⟩ hnot

/-- **THE LAST OF ITS DESCENDANTS**: where nobody has reported the excuse, all
below a process that has ended have been waited for. -/
theorem reaped_of_tended (ht : Tended excuse s) (hquiet : .perror excuse ∉ s.events)
    (hp : s.process p = some q) (hended : q.status.isEnded = true) {p' : Pid} (hbelow : p <:+ p')
    (hne : p' ≠ p) {c : Process L C} (hc : s.process p' = some c) : c.status = .reaped := by
  have hempty : ∀ {p q}, s.process p = some q → q.status.isEnded = true →
      s.process.left p = ∅ := by
    intro p q hp hended
    rcases ht.ended hp hended with hleft | ⟨hsaid, -⟩
    · exact hleft
    · exact absurd hsaid hquiet
  obtain ⟨front, rfl⟩ := hbelow
  induction front generalizing c with
  | nil => exact absurd rfl hne
  | cons n front ih =>
      -- the parent has ended too
      obtain ⟨d, hd, hdended⟩ : ∃ d, s.process (front ++ p) = some d ∧
          d.status.isEnded = true := by
        by_cases hself : front ++ p = p
        · exact ⟨q, by rw [hself, hp], hended⟩
        · cases hd : s.process (front ++ p) with
          | none =>
              have hnone := ht.family.none_below hd (List.suffix_cons n _)
              rw [List.cons_append, hnone] at hc
              cases hc
          | some d => exact ⟨d, rfl, by rw [ih hself hd]; rfl⟩
      exact ht.family.reaped_of_left (hempty hd hdended) hd hc

end runs

end ConcurrencyCrypto.Library
