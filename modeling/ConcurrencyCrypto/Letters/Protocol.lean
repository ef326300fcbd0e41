/-
  ConcurrencyCrypto.Letters.Protocol
  ──────────────────────────────────
  **THE LETTERS COME OUT IN ORDER UNTIL `main` RETURNS.**

  The threads print in their order as long as the process lives.  What they
  print is their letter while `main` keeps the array; behind its return a
  thread prints whatever it finds there.

    • `State.OwnLetters.next`  — one step,
    • `letters_in_order_iff`   — whole runs,
    • `prints_what_it_finds`   — a run in which `main` has returned.
-/
import ConcurrencyCrypto.Letters.Safety

namespace ConcurrencyCrypto.Letters

open ConcurrencyCrypto.Library

/-! ## §1. What a step prints. -/

section protocol
variable {s s' : State} {t : Thread} {found : Char}

/-- What a step adds to the output. -/
theorem threadStep_out (hstep : threadStep s found t = some s') :
    s'.out = if s.prints t then s.out ++ [(t, s.read t found)] else s.out := by
  cases threadStep_effect hstep with
  | waitA ha hpos hs' | postA ha hs' => rw [hs', State.prints, ha]; rfl
  | printA ha hs' => rw [hs', State.prints, ha]; rfl
  | waitB hb hpos hs' | post1B hb hs' | post2B hb hs' => rw [hs', State.prints, hb]; rfl
  | printB hb hs' => rw [hs', State.prints, hb]; rfl
  | waitC hc hpos hs' | postC hc heven hs' | passC hc hodd hs' =>
      rw [hs', State.prints, hc]; rfl
  | printC hc hs' => rw [hs', State.prints, hc]; rfl

theorem mainStep_out {created : Bool} (hstep : mainStep s created = some s') :
    s'.out = s.out := by
  obtain ⟨m, rfl⟩ := mainStep_frame hstep
  rfl

end protocol

/-! ## §2. The protocol. -/

/-- A `printf` that comes after the return of `main` finds its letter where the
array was. -/
def Intact (s : State) : Action → Prop
  | .thread t found => s.main = .returned → s.prints t = true → found = t.ch
  | .main _ => True

instance (s : State) (a : Action) : Decidable (Intact s a) :=
  match a with
  | .thread t found =>
      inferInstanceAs (Decidable (s.main = .returned → s.prints t = true → found = t.ch))
  | .main _ => instDecidableTrue

/-- The letters so far are a beginning of `ABCC` repeated for ever. -/
def State.InOrder (s : State) : Prop :=
  ∀ i < s.letters.length, s.letters[i]? = ['A', 'B', 'C', 'C'][i % 4]?

section protocol
variable {s s' : State}

/-- Everybody has printed his own letter. -/
def State.OwnLetters (s : State) : Prop := s.letters = s.turns.map Thread.ch

/-- **The letters are right as long as the array is read whole.** -/
theorem State.OwnLetters.next (h : s.OwnLetters) {a : Action} (hintact : Intact s a)
    (hstep : step s a = some s') : s'.OwnLetters := by
  unfold State.OwnLetters State.letters State.turns at h ⊢
  cases a with
  | main created =>
      rw [mainStep_out hstep]
      exact h
  | thread t found =>
      obtain ⟨-, hstep⟩ := Option.ite_none_right_eq_some.mp hstep
      rw [threadStep_out hstep]
      split
      next hprints =>
        -- the array of `main` is whole, or what is left of it is
        have hread : s.read t found = t.ch := by
          unfold State.read
          split
          next hret => exact hintact hret hprints
          next => rfl
        rw [List.map_append, List.map_append, List.map_append, h, List.map_singleton,
          List.map_singleton, List.map_singleton, hread]
      next => exact h

/-- The letters of the threads that take turns. -/
theorem Invariant.inOrder (h : Invariant s) (hown : s.OwnLetters) : s.InOrder := by
  intro i hi
  rw [hown, List.length_map] at hi
  rw [hown, List.getElem?_map, h.begins i hi]
  have hch : ['A', 'B', 'C', 'C'] = pattern.map Thread.ch := rfl
  rw [hch, List.getElem?_map]
  rfl

/-- **ANY OTHER CHARACTER IS OUT OF ORDER.** -/
theorem Invariant.out_of_order (h : Invariant s) {a : Action} (hintact : ¬ Intact s a)
    (hstep : step s a = some s') : ¬ s'.InOrder := by
  cases a with
  | main created => exact absurd trivial hintact
  | thread t found =>
      obtain ⟨hret, hintact⟩ := Classical.not_imp.mp hintact
      obtain ⟨hprints, hne⟩ := Classical.not_imp.mp hintact
      obtain ⟨-, hstep⟩ := Option.ite_none_right_eq_some.mp hstep
      -- the letter of `t` is the next one, and what comes is another character
      have hturn : cyclic pattern s.turns.length = some t := by
        cases t with
        | A => exact h.turn_A (by simpa [State.prints] using hprints)
        | B => exact h.turn_B (by simpa [State.prints] using hprints)
        | C => exact h.turn_C (by simpa [State.prints] using hprints)
      have hlast : s'.letters = s.letters ++ [found] := by
        rw [State.letters, threadStep_out hstep, if_pos hprints, State.read, if_pos hret,
          List.map_append]
        rfl
      have hlen : s.letters.length = s.turns.length := by
        rw [State.letters, State.turns, List.length_map, List.length_map]
      intro horder
      have hi : s.letters.length < s'.letters.length := by
        rw [hlast, List.length_append]
        exact Nat.lt_succ_self _
      have hfound := horder s.letters.length hi
      have hch : ['A', 'B', 'C', 'C'] = pattern.map Thread.ch := rfl
      have hturn : pattern[s.letters.length % 4]? = some t := by
        rw [hlen]
        exact hturn
      rw [hlast, List.getElem?_concat_length, hch, List.getElem?_map, hturn] at hfound
      injection hfound with hfound
      exact hne hfound

end protocol

/-- **THE LETTER PROTOCOL.**  In no state of any run all three threads are
blocked.  Where no `printf` comes after the return of `main`, or where it finds
its letter still there, the letters printed so far are a beginning of `ABCC`
repeated for ever; with any other `printf` they are not. -/
theorem letters_in_order_iff (s : State) :
    (Reachable s → ¬ (s.Blocked .A ∧ s.Blocked .B ∧ s.Blocked .C)) ∧
      (ReachesWhile Intact step State.start s →
        s.InOrder ∧ ∀ a s', step s a = some s' → (s'.InOrder ↔ Intact s a)) := by
  refine ⟨fun h => h.invariant.not_all_blocked, fun h => ?_⟩
  have hinv : Invariant s := Reachable.invariant h.reaches
  have hown : s.OwnLetters :=
    h.invariant (I := State.OwnLetters) rfl fun _ _ _ hs hok hstep => hs.next hok hstep
  refine ⟨hinv.inOrder hown, fun a s' hstep => ⟨fun horder => ?_, fun hintact => ?_⟩⟩
  · by_contra hintact
    exact hinv.out_of_order hintact hstep horder
  · exact (hinv.next hstep).inOrder (hown.next hintact hstep)

/-- Two rounds, in which `C` prints between the two posts of `B`. -/
theorem letters_in_order_iff_two_rounds :
    ∃ s : State, s.letters = ['A', 'B', 'C', 'C', 'A'] ∧ s.InOrder ∧
      ¬ (s.Blocked .A ∧ s.Blocked .B ∧ s.Blocked .C) := by
  have hrun : ∃ s, runActions (fun s a => if Intact s a then step s a else none) State.start
      [.main true, .thread .A '?', .main true, .thread .A '?', .thread .A '?', .main true,
        .thread .B '?', .thread .B '?', .thread .B '?', .thread .C '?', .thread .C '?',
        .thread .B '?', .thread .C '?', .thread .C '?', .thread .C '?', .thread .C '?',
        .thread .A '?', .thread .A '?'] = some s ∧ s.letters = ['A', 'B', 'C', 'C', 'A'] := by
    refine ⟨_, rfl, ?_⟩
    decide
  obtain ⟨s, hs, hletters⟩ := hrun
  have hreach := reachesWhile_of_run _ hs
  have h := letters_in_order_iff s
  exact ⟨s, hletters, (h.2 hreach).1, h.1 hreach.reaches⟩

/-- **AFTER THE RETURN OF `main`** thread `A` prints what it finds. -/
theorem prints_what_it_finds :
    ∃ s, Reachable s ∧ s.letters = ['?'] ∧ ¬ s.InOrder := by
  have hrun : ∃ s, Reaches step State.start s ∧ s.letters = ['?'] :=
    exists_reaches
      [.main true, .main true, .main true, .thread .A 'A', .main true, .thread .A '?']
      State.letters (by decide +kernel)
  obtain ⟨s, hs, hletters⟩ := hrun
  refine ⟨s, hs, hletters, ?_⟩
  intro horder
  have hfirst := horder 0 (by rw [hletters]; decide)
  rw [hletters] at hfirst
  exact absurd hfirst (by decide)

end ConcurrencyCrypto.Letters
