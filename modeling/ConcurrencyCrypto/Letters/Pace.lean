/-
  ConcurrencyCrypto.Letters.Pace
  ──────────────────────────────
  **THE LETTERS KEEP PACE WITH THE STEPS**, whoever is scheduled.

  Where its program counter stands and how often it has printed tell how many
  steps a thread has taken.  The semaphores keep the threads within one round
  of each other, and a round of four letters takes thirteen steps: so every
  schedule that goes on prints on, and nobody starves.

    • `taken_step`        — one step of a thread,
    • `letters_keep_pace` — whole runs, those in which a thread cannot be
                            created included.
-/
import ConcurrencyCrypto.Letters.Protocol

namespace ConcurrencyCrypto.Letters

open ConcurrencyCrypto.Library

/-! ## §1. The steps a thread has taken. -/

/-- A turn of thread `t` has so many steps for a letter. -/
def Thread.turn : Thread → Int
  | .A => 3
  | .B => 4
  | .C => 3

/-- The steps that thread `t` is ahead of the letters it has printed. -/
def State.ahead (s : State) : Thread → Int
  | .A => match s.a with
    | .wait => 0
    | .print => 1
    | .post => -1
  | .B => match s.b with
    | .wait => 0
    | .print => 1
    | .post1 => -2
    | .post2 => -1
  | .C => match s.c with
    | .wait => 0
    | .print => 1
    | .test => -1

/-- The number of steps that thread `t` has taken. -/
def State.taken (s : State) (t : Thread) : Int := t.turn * s.printed t + s.ahead t

section steps
variable {s s' : State} {t u : Thread} {found : Char}

theorem taken_congr (hout : s'.printed u = s.printed u) (hahead : s'.ahead u = s.ahead u) :
    s'.taken u = s.taken u := by
  rw [State.taken, State.taken, hout, hahead]

/-- Of the step that prints. -/
theorem taken_print (hahead : s.ahead t = 1) (hout : s'.printed t = s.printed t + 1)
    (hbehind : s'.ahead t = 2 - t.turn) : s'.taken t = s.taken t + 1 := by
  rw [State.taken, State.taken, hout, hahead, hbehind, Nat.cast_add, Int.mul_add]
  omega

/-- What a thread leaves alone. -/
theorem threadStep_frame (hstep : threadStep s found t = some s') :
    s'.main = s.main ∧ (∀ u, u ≠ t → s'.printed u = s.printed u) ∧
      (t ≠ .A → s'.a = s.a) ∧ (t ≠ .B → s'.b = s.b) ∧ (t ≠ .C → s'.c = s.c) := by
  have hprint : ∀ u, u ≠ t → (s.print t found).printed u = s.printed u :=
    fun u hu => printed_print_of_ne s found hu.symm
  have hself : ∀ {u : Thread} {α : Prop}, u ≠ u → α := fun h => absurd rfl h
  cases threadStep_effect hstep with
  | waitA ha hpos hs' | postA ha hs' =>
      rw [hs']
      exact ⟨rfl, fun _ _ => rfl, hself, fun _ => rfl, fun _ => rfl⟩
  | printA ha hs' =>
      rw [hs']
      exact ⟨rfl, hprint, hself, fun _ => rfl, fun _ => rfl⟩
  | waitB hb hpos hs' | post1B hb hs' | post2B hb hs' =>
      rw [hs']
      exact ⟨rfl, fun _ _ => rfl, fun _ => rfl, hself, fun _ => rfl⟩
  | printB hb hs' =>
      rw [hs']
      exact ⟨rfl, hprint, fun _ => rfl, hself, fun _ => rfl⟩
  | waitC hc hpos hs' | postC hc heven hs' | passC hc hodd hs' =>
      rw [hs']
      exact ⟨rfl, fun _ _ => rfl, fun _ => rfl, fun _ => rfl, hself⟩
  | printC hc hs' =>
      rw [hs']
      exact ⟨rfl, hprint, fun _ => rfl, fun _ => rfl, hself⟩

/-- The step of a thread counts for it alone. -/
theorem taken_of_ne (hstep : threadStep s found t = some s') (hu : u ≠ t) :
    s'.taken u = s.taken u := by
  obtain ⟨-, hprinted, ha, hb, hc⟩ := threadStep_frame hstep
  refine taken_congr (hprinted u hu) ?_
  cases u with
  | A => rw [State.ahead, State.ahead, ha hu.symm]
  | B => rw [State.ahead, State.ahead, hb hu.symm]
  | C => rw [State.ahead, State.ahead, hc hu.symm]

/-- **ONE STEP OF A THREAD.** -/
theorem taken_step (hstep : threadStep s found t = some s') : s'.taken t = s.taken t + 1 := by
  -- a step that does not print moves the program counter on by one
  have hmoves : s'.printed t = s.printed t → s'.ahead t = s.ahead t + 1 →
      s'.taken t = s.taken t + 1 := by
    intro hprinted hahead
    rw [State.taken, State.taken, hprinted, hahead]
    omega
  cases threadStep_effect hstep with
  | waitA ha hpos hs' | postA ha hs' =>
      subst hs'
      exact hmoves rfl (by rw [State.ahead, State.ahead, ha]; rfl)
  | printA ha hs' =>
      subst hs'
      exact taken_print (by rw [State.ahead, ha]) (printed_print_self s .A found) rfl
  | waitB hb hpos hs' | post1B hb hs' | post2B hb hs' =>
      subst hs'
      exact hmoves rfl (by rw [State.ahead, State.ahead, hb]; rfl)
  | printB hb hs' =>
      subst hs'
      exact taken_print (by rw [State.ahead, hb]) (printed_print_self s .B found) rfl
  | waitC hc hpos hs' | postC hc heven hs' | passC hc hodd hs' =>
      subst hs'
      exact hmoves rfl (by rw [State.ahead, State.ahead, hc]; rfl)
  | printC hc hs' =>
      subst hs'
      exact taken_print (by rw [State.ahead, hc]) (printed_print_self s .C found) rfl

end steps

/-! ## §2. Whole runs. -/

/-- `ahead` in the words of the invariant. -/
theorem ahead_A (s : State) :
    s.ahead .A = here .print s.a - here .post s.a ∧ here .print s.a + here .post s.a ≤ 1 := by
  rw [State.ahead]
  cases s.a with
  | wait => exact ⟨rfl, by decide⟩
  | print => exact ⟨rfl, by decide⟩
  | post => exact ⟨rfl, by decide⟩

theorem ahead_B (s : State) :
    s.ahead .B = here .print s.b - 2 * here .post1 s.b - here .post2 s.b ∧
      here .print s.b + here .post1 s.b + here .post2 s.b ≤ 1 := by
  rw [State.ahead]
  cases s.b with
  | wait => exact ⟨rfl, by decide⟩
  | print => exact ⟨rfl, by decide⟩
  | post1 => exact ⟨rfl, by decide⟩
  | post2 => exact ⟨rfl, by decide⟩

theorem ahead_C (s : State) :
    s.ahead .C = here .print s.c - here .test s.c ∧ here .print s.c + here .test s.c ≤ 1 := by
  rw [State.ahead]
  cases s.c with
  | wait => exact ⟨rfl, by decide⟩
  | print => exact ⟨rfl, by decide⟩
  | test => exact ⟨rfl, by decide⟩

/-- What is kept in a run in which thread `t` has taken `steps t` steps. -/
structure Paced (steps : Thread → Nat) (s : State) : Prop where
  keeps : Invariant s
  taken : ∀ t, s.taken t = steps t
  /-- Threads that have not been created take none. -/
  waits : ∀ i, s.main = .create i ∨ s.main = .fails i →
    i < 3 ∧ ∀ t, i ≤ t.index → steps t = 0
  failed : s.main = .exited 1 → s.out.length ≤ 2

section runs
variable {steps : Thread → Nat} {s s' : State}

theorem paced_start : Paced (fun _ => 0) State.start where
  keeps := invariant_start
  taken := by
    intro t
    cases t with
    | A => rfl
    | B => rfl
    | C => rfl
  waits := by
    rintro i (hi | hi)
    · injection hi with hi
      exact ⟨by omega, fun _ _ => rfl⟩
    · cases hi
  failed := nofun

/-- A thread without steps has printed nothing. -/
theorem Paced.printed_eq_zero (h : Paced steps s) {t : Thread} (ht : steps t = 0) :
    s.printed t = 0 := by
  have htaken := h.taken t
  rw [State.taken, ht] at htaken
  cases t with
  | A =>
      obtain ⟨hahead, hle⟩ := ahead_A s
      have hturn : Thread.A.turn = 3 := rfl
      rw [hturn] at htaken
      omega
  | B =>
      obtain ⟨hahead, hle⟩ := ahead_B s
      have hturn : Thread.B.turn = 4 := rfl
      rw [hturn] at htaken
      omega
  | C =>
      obtain ⟨hahead, hle⟩ := ahead_C s
      have hturn : Thread.C.turn = 3 := rfl
      rw [hturn] at htaken
      omega

/-- **BEFORE ALL ARE CREATED** there are only so many letters: the next one
would be that of the thread to come. -/
theorem Paced.length_le_created (h : Paced steps s) {i : Nat}
    (hi : s.main = .create i ∨ s.main = .fails i) : s.out.length ≤ i := by
  obtain ⟨hlt, hnone⟩ := h.waits i hi
  have hlen := h.keeps.length
  have h1 := h.keeps.sem1
  have h2 := h.keeps.sem2
  have hC := h.printed_eq_zero (hnone .C (show i ≤ 2 by omega))
  by_cases hB : i ≤ 1
  · have hB' := h.printed_eq_zero (hnone .B hB)
    by_cases hA : i ≤ 0
    · have hA' := h.printed_eq_zero (hnone .A hA)
      omega
    · omega
  · omega

/-- **THE PACE**: thirteen steps for four letters, up to the round that is
begun. -/
theorem Paced.pace (h : Paced steps s) :
    4 * (steps .A + steps .B + steps .C) ≤ 13 * s.out.length + 6 ∧
      13 * s.out.length ≤ 4 * (steps .A + steps .B + steps .C) + 7 := by
  obtain ⟨hA, hA'⟩ := ahead_A s
  obtain ⟨hB, hB'⟩ := ahead_B s
  obtain ⟨hC, hC'⟩ := ahead_C s
  have htA : 3 * (s.printed .A : Int) + s.ahead .A = steps .A := h.taken .A
  have htB : 4 * (s.printed .B : Int) + s.ahead .B = steps .B := h.taken .B
  have htC : 3 * (s.printed .C : Int) + s.ahead .C = steps .C := h.taken .C
  have hlen := h.keeps.length
  have h1 := h.keeps.sem1
  have htested := h.keeps.tested
  have h2 := h.keeps.sem2
  have h3 := h.keeps.sem3
  generalize hq : (s.printed .C - here .test s.c) / 2 = q at h1
  -- there is one turn, wherever it is
  have hturn : s.s1 + here .print s.a + (s.s2 + here .print s.b + here .post s.a)
      + (s.printed .B - q) = 1 := by omega
  have hhalf : s.s3 + here .print s.c + 2 * here .post1 s.b + here .post2 s.b
      + here .test s.c ≤ 2 * (s.printed .B - q) := by omega
  have hsteps : 4 * ((steps .A : Int) + steps .B + steps .C)
      = 13 * s.out.length + 4 * here .print s.a - 5 * here .post s.a + 3 * here .print s.b
        - 6 * here .post1 s.b - 3 * here .post2 s.b + 5 * here .print s.c - 4 * here .test s.c
        - s.s2 + s.s3 := by omega
  -- it is at `C` or on its way there, or it is not
  have hwhere : s.printed .B - q = 0 ∨ s.printed .B - q = 1 := by omega
  rcases hwhere with hx | hx
  · rw [hx] at hturn hhalf
    clear hlen h1 htested h2 h3 hq htA htB htC hA hB hC
    omega
  · rw [hx] at hturn hhalf
    clear hlen h1 htested h2 h3 hq htA htB htC hA hB hC
    omega

/-- One step of a thread. -/
theorem Paced.thread (h : Paced steps s) {t : Thread} (hruns : s.runs t = true)
    (hstep : threadStep s found t = some s') :
    Paced (fun u => steps u + if u = t then 1 else 0) s' := by
  obtain ⟨hmain, -⟩ := threadStep_frame hstep
  refine ⟨?_, ?_, ?_, ?_⟩
  · refine h.keeps.next (a := .thread t found) ?_
    rw [step, if_pos hruns, hstep]
  · intro u
    by_cases hu : u = t
    · rw [hu, taken_step hstep, h.taken, if_pos rfl]
      rfl
    · rw [taken_of_ne hstep hu, h.taken, if_neg hu]
      rfl
  · intro i hi
    rw [hmain] at hi
    obtain ⟨hlt, hnone⟩ := h.waits i hi
    refine ⟨hlt, fun u hu => ?_⟩
    have hne : u ≠ t := by
      rintro rfl
      have hindex : u.index < i := by
        rcases hi with hi | hi
        · rw [State.runs, hi] at hruns
          exact of_decide_eq_true hruns
        · rw [State.runs, hi] at hruns
          exact of_decide_eq_true hruns
      omega
    rw [if_neg hne, hnone u hu]
  · intro hexit
    rw [hmain] at hexit
    rw [State.runs, hexit] at hruns
    cases hruns

/-- One step of `main`. -/
theorem Paced.main_step (h : Paced steps s) {created : Bool}
    (hstep : mainStep s created = some s') : Paced steps s' := by
  have hkeeps := h.keeps.main_step hstep
  have hnone : ∀ m : MainPc, (∀ i, m ≠ .create i) → (∀ i, m ≠ .fails i) →
      ∀ i, m = .create i ∨ m = .fails i → i < 3 ∧ ∀ t : Thread, i ≤ t.index → steps t = 0 :=
    fun m hcreate hfails i hi => hi.elim (fun h => absurd h (hcreate i))
      fun h => absurd h (hfails i)
  cases mainStep_effect hstep with
  | fails i hi hs' =>
      subst hs'
      refine ⟨hkeeps, h.taken, ?_, nofun⟩
      rintro j (hj | hj)
      · cases hj
      · injection hj with hj
        exact hj ▸ h.waits i (Or.inl hi)
  | creates i hi hlt hs' =>
      subst hs'
      refine ⟨hkeeps, h.taken, ?_, nofun⟩
      rintro j (hj | hj)
      · injection hj with hj
        exact ⟨by omega, fun t ht => (h.waits i (Or.inl hi)).2 t (by omega)⟩
      · cases hj
  | exits i hi hs' =>
      subst hs'
      refine ⟨hkeeps, h.taken, hnone _ nofun nofun, fun _ => ?_⟩
      have hle := h.length_le_created (Or.inr hi)
      have hlt := (h.waits i (Or.inr hi)).1
      show s.out.length ≤ 2
      omega
  | sleeps i hi hs' =>
      subst hs'
      exact ⟨hkeeps, h.taken, hnone _ nofun nofun, nofun⟩
  | returns hi hs' | ends hi hs' =>
      subst hs'
      exact ⟨hkeeps, h.taken, hnone _ nofun nofun, nofun⟩

/-- The threads as they are scheduled in a run. -/
def scheduled (as : List Action) : List Thread :=
  as.filterMap fun
    | .thread t _ => some t
    | .main _ => none

/-- **WHOLE RUNS**: how often each thread is scheduled is what it has taken. -/
theorem Paced.run (as : List Action) : ∀ {steps : Thread → Nat} {s : State}, Paced steps s →
    runActions step s as = some s' → Paced (fun t => steps t + (scheduled as).count t) s' := by
  induction as with
  | nil =>
      intro steps s h hrun
      injection hrun with hrun
      rw [← hrun]
      exact h
  | cons a as ih =>
      intro steps s h hrun
      obtain ⟨s₁, hfirst, hrest⟩ := Option.bind_eq_some_iff.mp hrun
      cases a with
      | thread t found =>
          obtain ⟨hruns, hstep⟩ := Option.ite_none_right_eq_some.mp hfirst
          have hnext := ih (h.thread hruns hstep) hrest
          have hcount : (fun u => steps u + (if u = t then 1 else 0) + (scheduled as).count u)
              = fun u => steps u + (scheduled (.thread t found :: as)).count u := by
            funext u
            have hcons : scheduled (.thread t found :: as) = t :: scheduled as := rfl
            rw [hcons, List.count_cons]
            by_cases hu : u = t
            · rw [if_pos hu, hu, if_pos (beq_self_eq_true _)]
              omega
            · have hne : ¬ (t == u) = true := fun heq => hu (eq_of_beq heq).symm
              rw [if_neg hu, if_neg hne]
              omega
          rwa [hcount] at hnext
      | main created => exact ih (h.main_step hfirst) hrest

theorem length_eq_counts (ts : List Thread) :
    ts.length = ts.count .A + ts.count .B + ts.count .C := by
  induction ts with
  | nil => rfl
  | cons t ts ih =>
      rw [List.length_cons, ih, List.count_cons, List.count_cons, List.count_cons]
      cases t with
      | A =>
          simp
          omega
      | B =>
          simp
          omega
      | C =>
          simp
          omega

/-- Who is not blocked can step. -/
theorem enabled_of_not_blocked {t : Thread} (hruns : s.runs t = true) (h : ¬ s.Blocked t)
    (found : Char) : Enabled step s (.thread t found) := by
  have hgo : (∃ s', threadStep s found t = some s') → Enabled step s (.thread t found) := by
    rintro ⟨s', hs'⟩
    exact ⟨s', by rw [step, if_pos hruns, hs']⟩
  refine hgo ?_
  cases t with
  | A =>
      unfold threadStep
      dsimp only
      split
      next ha => exact ⟨_, if_neg fun hs1 => h ⟨ha, hs1⟩⟩
      next => exact ⟨_, rfl⟩
      next => exact ⟨_, rfl⟩
  | B =>
      unfold threadStep
      dsimp only
      split
      next hb => exact ⟨_, if_neg fun hs2 => h ⟨hb, hs2⟩⟩
      next => exact ⟨_, rfl⟩
      next => exact ⟨_, rfl⟩
      next => exact ⟨_, rfl⟩
  | C =>
      unfold threadStep
      dsimp only
      split
      next hc => exact ⟨_, if_neg fun hs3 => h ⟨hc, hs3⟩⟩
      next => exact ⟨_, rfl⟩
      next =>
        split
        · exact ⟨_, rfl⟩
        · exact ⟨_, rfl⟩

end runs

/-- **THE LETTERS KEEP PACE** with the steps of the threads in every run, those
behind the return of `main` included.  When all threads are there the run can
go on until the process ends; where thread `i` cannot be created, no more than
`i` letters come out. -/
theorem letters_keep_pace (as : List Action) (s : State)
    (h : runActions step State.start as = some s) :
    4 * (scheduled as).length ≤ 13 * s.out.length + 6 ∧
      13 * s.out.length ≤ 4 * (scheduled as).length + 7 ∧
      (s.main = .sleep ∨ s.main = .returned →
        ∃ t, ∀ found, Enabled step s (.thread t found)) ∧
      (∀ i, s.main = .create i ∨ s.main = .fails i → s.out.length ≤ i) ∧
      (s.main = .exited 1 → s.out.length ≤ 2) := by
  have hpaced := paced_start.run as h
  have hpace := hpaced.pace
  simp only [Nat.zero_add, ← length_eq_counts] at hpace
  refine ⟨hpace.1, hpace.2, ?_, fun i => hpaced.length_le_created, hpaced.failed⟩
  intro hmain
  have hruns : ∀ t, s.runs t = true := by
    intro t
    rcases hmain with hmain | hmain
    · rw [State.runs, hmain]
    · rw [State.runs, hmain]
  by_contra hnone
  have hblocked : ∀ t, s.Blocked t := by
    intro t
    by_contra ht
    exact hnone ⟨t, enabled_of_not_blocked (hruns t) ht⟩
  exact hpaced.keeps.not_all_blocked ⟨hblocked .A, hblocked .B, hblocked .C⟩

/-- A round whose last letter comes after the return of `main`. -/
theorem letters_keep_pace_round :
    ∃ as s, runActions step State.start as = some s ∧ s.main = .returned ∧
      s.letters = ['A', 'B', 'C', '?'] ∧ 4 * (scheduled as).length ≤ 13 * s.out.length + 6 ∧
      ∃ t, ∀ found, Enabled step s (.thread t found) := by
  let as : List Action :=
    [.main true, .thread .A '?', .main true, .thread .A '?', .thread .A '?', .main true,
      .thread .B '?', .thread .B '?', .thread .B '?', .thread .B '?', .thread .C '?',
      .thread .C '?', .main true, .thread .C '?', .thread .C '?', .thread .C '?']
  have hrun : ∃ s, runActions step State.start as = some s ∧ s.main = .returned ∧
      s.letters = ['A', 'B', 'C', '?'] := ⟨_, rfl, rfl, rfl⟩
  obtain ⟨s, hs, hmain, hletters⟩ := hrun
  have hpace := letters_keep_pace as s hs
  exact ⟨as, s, hs, hmain, hletters, hpace.1, hpace.2.2.1 (Or.inr hmain)⟩

end ConcurrencyCrypto.Letters
