/-
  ConcurrencyCrypto.Letters.Safety
  ────────────────────────────────
  **THE THREADS PRINT IN THEIR ORDER, AND SOMEBODY CAN ALWAYS GO ON.**

  Every semaphore has been posted as often as its posters got past it and
  waited for as often as its waiter did, and how often that was is what the
  waiter has printed, up to the position of its program counter.  These
  three equations, with the parity of `flag`, are the whole invariant:
  whoever is about to print finds the numbers of letters that make its own
  the next one (`Invariant.turn_A`, `turn_B`, `turn_C`).
-/
import ConcurrencyCrypto.Letters.Machine

namespace ConcurrencyCrypto.Letters

open ConcurrencyCrypto.Library

/-! ## §1. The invariant. -/

/-- The threads that print in one round. -/
def pattern : List Thread := [.A, .B, .C, .C]

/-- 1 at the label, else 0. -/
def here {α : Type} [DecidableEq α] (label pc : α) : Nat := if pc = label then 1 else 0

@[simp] theorem here_self {α : Type} [DecidableEq α] (label : α) : here label label = 1 :=
  if_pos rfl

theorem here_of_ne {α : Type} [DecidableEq α] {label pc : α} (h : pc ≠ label) :
    here label pc = 0 :=
  if_neg h

/-- Who has printed so far. -/
def State.turns (s : State) : List Thread := s.out.map Prod.fst

/-- How often thread `t` has printed. -/
def State.printed (s : State) (t : Thread) : Nat := s.turns.count t

structure Invariant (s : State) : Prop where
  begins : BeginsCyclic pattern s.turns
  length : s.out.length = s.printed .A + s.printed .B + s.printed .C
  /-- `s1` starts at 1, and `C` posts it after every second letter. -/
  sem1 : s.s1 + s.printed .A + here .print s.a
    = 1 + (s.printed .C - here .test s.c) / 2
  tested : here .test s.c ≤ s.printed .C
  sem2 : s.s2 + s.printed .B + here .print s.b + here .post s.a = s.printed .A
  sem3 : s.s3 + s.printed .C + here .print s.c + 2 * here .post1 s.b + here .post2 s.b
    = 2 * s.printed .B
  /-- `C` counts its letters. -/
  flag : s.flag.tmod 2 = 0 ↔ (s.printed .C + here .print s.c) % 2 = 0

theorem invariant_start : Invariant State.start where
  begins := by
    intro i hi
    exact absurd hi (Nat.not_lt_zero i)
  length := rfl
  sem1 := rfl
  tested := Nat.le_refl 0
  sem2 := rfl
  sem3 := rfl
  flag := ⟨fun _ => rfl, fun _ => rfl⟩

/-! ## §2. Whose turn it is. -/

section turn
variable {s : State}

theorem Invariant.turn_A (h : Invariant s) (ha : s.a = .print) :
    cyclic pattern s.turns.length = some .A := by
  have hmod : s.out.length % 4 = 0 := by
    have h1 := h.sem1
    have h2 := h.sem2
    have h3 := h.sem3
    have hlen := h.length
    rw [ha, here_self] at h1
    omega
  show pattern[s.turns.length % 4]? = _
  rw [State.turns, List.length_map]
  rw [hmod]
  rfl

theorem Invariant.turn_B (h : Invariant s) (hb : s.b = .print) :
    cyclic pattern s.turns.length = some .B := by
  have hmod : s.out.length % 4 = 1 := by
    have h1 := h.sem1
    have h2 := h.sem2
    have h3 := h.sem3
    have hlen := h.length
    rw [hb, here_self] at h2
    omega
  show pattern[s.turns.length % 4]? = _
  rw [State.turns, List.length_map]
  rw [hmod]
  rfl

theorem Invariant.turn_C (h : Invariant s) (hc : s.c = .print) :
    cyclic pattern s.turns.length = some .C := by
  have hmod : s.out.length % 4 = 2 ∨ s.out.length % 4 = 3 := by
    have h1 := h.sem1
    have h2 := h.sem2
    have h3 := h.sem3
    have hlen := h.length
    have htest : here .test s.c = 0 := by
      rw [hc]
      rfl
    rw [hc, here_self] at h3
    rw [htest] at h1
    omega
  show pattern[s.turns.length % 4]? = _
  rw [State.turns, List.length_map]
  rcases hmod with hmod | hmod
  · rw [hmod]
    rfl
  · rw [hmod]
    rfl

/-- **Not all three wait for nothing.** -/
theorem Invariant.not_all_blocked (h : Invariant s) :
    ¬ (s.Blocked .A ∧ s.Blocked .B ∧ s.Blocked .C) := by
  rintro ⟨⟨ha, hs1⟩, ⟨hb, hs2⟩, ⟨hc, hs3⟩⟩
  have h1 := h.sem1
  have h2 := h.sem2
  have h3 := h.sem3
  rw [hs1, ha, hc, here_of_ne (by decide), here_of_ne (by decide)] at h1
  rw [hs2, ha, hb, here_of_ne (by decide), here_of_ne (by decide)] at h2
  rw [hs3, hb, hc, here_of_ne (by decide), here_of_ne (by decide), here_of_ne (by decide)] at h3
  omega

end turn

/-! ## §3. One step. -/

/-- Printing adds one to the printer's letters, and nothing to the others'. -/
theorem printed_print_self (s : State) (t : Thread) (found : Char) :
    (s.print t found).printed t = s.printed t + 1 := by
  unfold State.printed State.turns State.print
  rw [List.map_append, List.count_append, List.map_singleton, List.count_singleton_self]

theorem printed_print_of_ne (s : State) {t u : Thread} (found : Char) (h : t ≠ u) :
    (s.print t found).printed u = s.printed u := by
  unfold State.printed State.turns State.print
  rw [List.map_append, List.count_append, List.map_singleton, List.count_singleton,
    if_neg (by simpa using h), Nat.add_zero]

/-- `flag` changes its parity, also where it wraps. -/
theorem flag_succ (flag : Int) : (toInt (flag + 1)).tmod 2 = 0 ↔ ¬ flag.tmod 2 = 0 := by
  rw [← Int.dvd_iff_tmod_eq_zero, ← Int.dvd_iff_tmod_eq_zero]
  unfold toInt
  rw [Int.bmod_def]
  omega

section step
variable {s s' : State} {found : Char}

/-- Who prints is the next one, and one more. -/
theorem Invariant.print (h : Invariant s) {t : Thread}
    (hturn : cyclic pattern s.turns.length = some t) :
    BeginsCyclic pattern (s.print t found).turns ∧
      (s.print t found).out.length
        = (s.print t found).printed .A + (s.print t found).printed .B
          + (s.print t found).printed .C := by
  have hturns : (s.print t found).turns = s.turns ++ [t] := List.map_append
  refine ⟨hturns ▸ h.begins.concat hturn, ?_⟩
  have hlen : (s.print t found).out.length = s.out.length + 1 := List.length_append
  have hsum := h.length
  cases t with
  | A =>
      rw [printed_print_self, printed_print_of_ne s found (show Thread.A ≠ .B by decide),
        printed_print_of_ne s found (show Thread.A ≠ .C by decide)]
      omega
  | B =>
      rw [printed_print_self, printed_print_of_ne s found (show Thread.B ≠ .A by decide),
        printed_print_of_ne s found (show Thread.B ≠ .C by decide)]
      omega
  | C =>
      rw [printed_print_self, printed_print_of_ne s found (show Thread.C ≠ .A by decide),
        printed_print_of_ne s found (show Thread.C ≠ .B by decide)]
      omega

/-- **Every step of a thread keeps the invariant**: what it adds on one side of
an equation it adds on the other, or takes away again. -/
theorem Invariant.thread_step (h : Invariant s) {t : Thread}
    (hstep : ThreadEffect s s' found t) : Invariant s' := by
  have h1 := h.sem1
  have h2 := h.sem2
  have h3 := h.sem3
  have htested := h.tested
  have hflag := h.flag
  cases hstep with
  | waitA ha hpos hs' =>
      rw [ha] at h1 h2
      rw [hs']
      refine ⟨h.begins, h.length, ?_, htested, h2, h3, hflag⟩
      have h0 : here APc.print APc.wait = 0 := rfl
      show s.s1 - 1 + s.printed .A + 1 = 1 + (s.printed .C - here .test s.c) / 2
      omega
  | printA ha hs' =>
      obtain ⟨hbegins, hlen⟩ := h.print (h.turn_A ha)
      have hA := printed_print_self s .A found
      have hB := printed_print_of_ne s found (show Thread.A ≠ .B by decide)
      have hC := printed_print_of_ne s found (show Thread.A ≠ .C by decide)
      rw [ha] at h1 h2
      rw [hs']
      refine ⟨hbegins, hlen, ?_, ?_, ?_, ?_, ?_⟩
      · have h0 : here APc.print APc.print = 1 := rfl
        show s.s1 + (s.print .A found).printed .A + 0
          = 1 + ((s.print .A found).printed .C - here .test s.c) / 2
        omega
      · show here .test s.c ≤ (s.print .A found).printed .C
        rw [hC]
        exact htested
      · have h0 : here APc.post APc.print = 0 := rfl
        show s.s2 + (s.print .A found).printed .B + here .print s.b + 1
          = (s.print .A found).printed .A
        omega
      · show s.s3 + (s.print .A found).printed .C + here .print s.c + 2 * here .post1 s.b
            + here .post2 s.b = 2 * (s.print .A found).printed .B
        rw [hB, hC]
        exact h3
      · show s.flag.tmod 2 = 0 ↔ ((s.print .A found).printed .C + here .print s.c) % 2 = 0
        rw [hC]
        exact hflag
  | postA ha hs' =>
      rw [ha] at h1 h2
      rw [hs']
      refine ⟨h.begins, h.length, h1, htested, ?_, h3, hflag⟩
      have h0 : here APc.post APc.post = 1 := rfl
      show s.s2 + 1 + s.printed .B + here .print s.b + 0 = s.printed .A
      omega
  | waitB hb hpos hs' =>
      rw [hb] at h2 h3
      rw [hs']
      refine ⟨h.begins, h.length, h1, htested, ?_, h3, hflag⟩
      have h0 : here BPc.print BPc.wait = 0 := rfl
      show s.s2 - 1 + s.printed .B + 1 + here .post s.a = s.printed .A
      omega
  | printB hb hs' =>
      obtain ⟨hbegins, hlen⟩ := h.print (h.turn_B hb)
      have hA := printed_print_of_ne s found (show Thread.B ≠ .A by decide)
      have hB := printed_print_self s .B found
      have hC := printed_print_of_ne s found (show Thread.B ≠ .C by decide)
      rw [hb] at h2 h3
      rw [hs']
      refine ⟨hbegins, hlen, ?_, ?_, ?_, ?_, ?_⟩
      · show s.s1 + (s.print .B found).printed .A + here .print s.a
          = 1 + ((s.print .B found).printed .C - here .test s.c) / 2
        rw [hA, hC]
        exact h1
      · show here .test s.c ≤ (s.print .B found).printed .C
        rw [hC]
        exact htested
      · have h0 : here BPc.print BPc.print = 1 := rfl
        show s.s2 + (s.print .B found).printed .B + 0 + here .post s.a
          = (s.print .B found).printed .A
        omega
      · have h0 : here BPc.post1 BPc.print = 0 := rfl
        have h0' : here BPc.post2 BPc.print = 0 := rfl
        show s.s3 + (s.print .B found).printed .C + here .print s.c + 2 * 1 + 0
          = 2 * (s.print .B found).printed .B
        omega
      · show s.flag.tmod 2 = 0 ↔ ((s.print .B found).printed .C + here .print s.c) % 2 = 0
        rw [hC]
        exact hflag
  | post1B hb hs' =>
      rw [hb] at h2 h3
      rw [hs']
      refine ⟨h.begins, h.length, h1, htested, h2, ?_, hflag⟩
      have h0 : here BPc.post1 BPc.post1 = 1 := rfl
      have h0' : here BPc.post2 BPc.post1 = 0 := rfl
      show s.s3 + 1 + s.printed .C + here .print s.c + 2 * 0 + 1 = 2 * s.printed .B
      omega
  | post2B hb hs' =>
      rw [hb] at h2 h3
      rw [hs']
      refine ⟨h.begins, h.length, h1, htested, h2, ?_, hflag⟩
      have h0 : here BPc.post1 BPc.post2 = 0 := rfl
      have h0' : here BPc.post2 BPc.post2 = 1 := rfl
      show s.s3 + 1 + s.printed .C + here .print s.c + 2 * 0 + 0 = 2 * s.printed .B
      omega
  | waitC hc hpos hs' =>
      -- flag++ comes before the letter that it counts
      rw [hc] at h1 h3 hflag htested
      rw [hs']
      have h0 : here CPc.print CPc.wait = 0 := rfl
      refine ⟨h.begins, h.length, h1, htested, h2, ?_, ?_⟩
      · show s.s3 - 1 + s.printed .C + 1 + 2 * here .post1 s.b + here .post2 s.b
          = 2 * s.printed .B
        omega
      · show (toInt (s.flag + 1)).tmod 2 = 0 ↔ (s.printed .C + 1) % 2 = 0
        rw [flag_succ, hflag]
        omega
  | printC hc hs' =>
      obtain ⟨hbegins, hlen⟩ := h.print (h.turn_C hc)
      have hA := printed_print_of_ne s found (show Thread.C ≠ .A by decide)
      have hB := printed_print_of_ne s found (show Thread.C ≠ .B by decide)
      have hC := printed_print_self s .C found
      rw [hc] at h1 h3 hflag
      rw [hs']
      have h0 : here CPc.print CPc.print = 1 := rfl
      refine ⟨hbegins, hlen, ?_, ?_, ?_, ?_, ?_⟩
      · -- the new letter has not been tested yet
        have h0' : here CPc.test CPc.print = 0 := rfl
        show s.s1 + (s.print .C found).printed .A + here .print s.a
          = 1 + ((s.print .C found).printed .C - 1) / 2
        omega
      · show 1 ≤ (s.print .C found).printed .C
        omega
      · show s.s2 + (s.print .C found).printed .B + here .print s.b + here .post s.a
          = (s.print .C found).printed .A
        rw [hA, hB]
        exact h2
      · show s.s3 + (s.print .C found).printed .C + 0 + 2 * here .post1 s.b + here .post2 s.b
          = 2 * (s.print .C found).printed .B
        omega
      · show s.flag.tmod 2 = 0 ↔ ((s.print .C found).printed .C + 0) % 2 = 0
        rw [hflag]
        omega
  | postC hc heven hs' =>
      rw [hc] at h1 h3 hflag htested
      have h0 : here CPc.print CPc.test = 0 := rfl
      have h0' : here CPc.test CPc.test = 1 := rfl
      -- an even number of letters: the round is over
      have hcount := hflag.mp heven
      rw [hs']
      refine ⟨h.begins, h.length, ?_, Nat.zero_le _, h2, h3, hflag⟩
      show s.s1 + 1 + s.printed .A + here .print s.a = 1 + (s.printed .C - 0) / 2
      omega
  | passC hc hodd hs' =>
      rw [hc] at h1 h3 hflag htested
      have h0 : here CPc.print CPc.test = 0 := rfl
      have h0' : here CPc.test CPc.test = 1 := rfl
      -- the first of two letters: the quotient has not changed
      have hcount := mt hflag.mpr hodd
      rw [hs']
      refine ⟨h.begins, h.length, ?_, Nat.zero_le _, h2, h3, hflag⟩
      show s.s1 + s.printed .A + here .print s.a = 1 + (s.printed .C - 0) / 2
      omega

theorem Invariant.main_step (h : Invariant s) {created : Bool}
    (hstep : mainStep s created = some s') : Invariant s' := by
  obtain ⟨m, rfl⟩ := mainStep_frame hstep
  exact ⟨h.begins, h.length, h.sem1, h.tested, h.sem2, h.sem3, h.flag⟩

/-- **Every step keeps the invariant.** -/
theorem Invariant.next (h : Invariant s) {a : Action} (hstep : step s a = some s') :
    Invariant s' := by
  cases a with
  | main created => exact h.main_step hstep
  | thread t found =>
      obtain ⟨-, hstep⟩ := Option.ite_none_right_eq_some.mp hstep
      exact h.thread_step (threadStep_effect hstep)

end step

theorem Reachable.invariant {s : State} (h : Reachable s) : Invariant s :=
  Reaches.invariant (I := Invariant) h invariant_start fun _ _ _ hs hstep => hs.next hstep

/-- The semaphores stay far below `SEM_VALUE_MAX`. -/
theorem Invariant.sem_le {s : State} (h : Invariant s) : s.s1 ≤ 1 ∧ s.s2 ≤ 1 ∧ s.s3 ≤ 2 := by
  have h1 := h.sem1
  have h2 := h.sem2
  have h3 := h.sem3
  omega

end ConcurrencyCrypto.Letters
