/-
  ConcurrencyCrypto.Philosophers.Start
  ────────────────────────────────────
  **THE PHILOSOPHERS AS `main` REALLY STARTS THEM.**

  `state` is `N` ints of malloc'ed memory, and `memset(state, 0, N)` clears
  `N` bytes of their `4 * N`.  Three quarters of the array keep what the heap
  held.  Any content that is neither HUNGRY nor EATING acts as THINKING; the
  other two break the protocol:

    • an entry that reads as EATING makes its neighbours wait for nobody;
    • an entry that reads as HUNGRY is served by a neighbour's `put_sticks`
      while its philosopher thinks, which leaves an EATING behind and a
      credit that lets it eat without sticks later.
-/
import ConcurrencyCrypto.Philosophers.Safety

namespace ConcurrencyCrypto.Philosophers

open ConcurrencyCrypto.Library

/-! ## §1. The memory of the state array. -/

/-- The bytes of a malloc'ed block. -/
abbrev Bytes := Nat → UInt8

/-- `memset(mem, c, n)`. -/
def memset (mem : Bytes) (c : UInt8) (n : Nat) : Bytes :=
  fun k => if k < n then c else mem k

/-- `((int*)mem)[i]` on a little-endian machine. -/
def readInt (mem : Bytes) (i : Nat) : Int32 :=
  Int32.ofBitVec ((mem (4 * i + 3)).toBitVec ++ (mem (4 * i + 2)).toBitVec
    ++ (mem (4 * i + 1)).toBitVec ++ (mem (4 * i)).toBitVec)

variable {N : Nat}

/-- The state array when main creates the threads; `mem` is what malloc
returned. -/
def initialState (mem : Bytes) (i : Fin N) : Int32 := readInt (memset mem 0 N) i

/-- The lowest byte of an int. -/
theorem readInt_low {mem : Bytes} {i : Nat} {x : UInt8} (h : mem (4 * i) = x) :
    (readInt mem i).toBitVec.setWidth 8 = x.toBitVec := by
  rw [← h]
  show BitVec.setWidth 8 (_ ++ (mem (4 * i)).toBitVec) = _
  rw [BitVec.setWidth_append_eq_right]

/-- **What memset leaves**: behind the first `N` bytes the old contents; an
int whose lowest byte is cleared is neither HUNGRY nor EATING. -/
theorem initialState_ne_iff (mem : Bytes) (i : Fin N) {x : Int32}
    (hx : x = HUNGRY ∨ x = EATING) :
    initialState mem i = x ↔ N ≤ 4 * i.val ∧ readInt mem i = x := by
  by_cases hi : N ≤ 4 * i.val
  · have hsame : initialState mem i = readInt mem i := by
      have hbyte : ∀ k, 4 * i.val ≤ k → memset mem 0 N k = mem k := fun k hk =>
        if_neg (by omega)
      unfold initialState readInt
      rw [hbyte _ (Nat.le_refl _), hbyte (4 * i.val + 1) (by omega),
        hbyte (4 * i.val + 2) (by omega), hbyte (4 * i.val + 3) (by omega)]
    rw [hsame]
    exact ⟨fun h => ⟨hi, h⟩, fun h => h.2⟩
  · have hlow : (initialState mem i).toBitVec.setWidth 8 = (0 : UInt8).toBitVec :=
      readInt_low (if_pos (by omega))
    refine ⟨fun h => ?_, fun h => absurd h.1 hi⟩
    rw [h] at hlow
    rcases hx with rfl | rfl <;> exact absurd hlow (by decide)

/-! ## §2. What the protocol is for. -/

/-- No two neighbours use their sticks. -/
def State.Excludes (s : State N) : Prop :=
  ∀ i j, Neighbours i j → ¬ ((s.pc i).holding = true ∧ (s.pc j).holding = true)

/-- Nobody waits at `eaters[i]` for neighbours that neither take nor hold
sticks. -/
def State.NobodyForgotten (s : State N) : Prop :=
  ∀ i, s.Starved i → ∃ j, Neighbours i j ∧
    ((s.pc j).taking = true ∨ (s.pc j).holding = true)

/-- Both hold while the invariant does. -/
theorem Invariant.nobodyForgotten {s : State N} (h : Invariant s) : s.NobodyForgotten := by
  intro i hi
  obtain ⟨j, hij, hj⟩ := h.hungry (h.starved_hungry hi)
  refine ⟨j, hij, ?_⟩
  -- an EATING philosopher is between its two sections
  have hengaged : (s.pc j).engaged = true := by
    cases hcase : (s.pc j).engaged with
    | true => rfl
    | false => exact absurd hj (phaseOf_idle_iff.mp ((h.engaged j).mpr hcase)).2
  revert hengaged
  cases s.pc j <;> intro hengaged <;>
    first | exact absurd hengaged Bool.false_ne_true | exact Or.inl rfl | exact Or.inr rfl

/-! ## §3. One philosopher alone. -/

section solo
variable (m : Nat) (t : Table N) (j : Fin N)

/-- Only philosopher `j` has left the head of its loop. -/
def State.only (pc : Pc) : State N :=
  { mutex := m, table := t, pc := Function.update (fun _ => .think) j pc }

@[simp] theorem only_mutex (pc : Pc) : (State.only m t j pc).mutex = m := rfl

@[simp] theorem only_table (pc : Pc) : (State.only m t j pc).table = t := rfl

@[simp] theorem only_pc (pc : Pc) : (State.only m t j pc).pc j = pc := by
  show Function.update (fun _ => Pc.think) j pc j = pc
  rw [Function.update_self]

theorem only_pc_of_ne {i : Fin N} (hi : i ≠ j) (pc : Pc) :
    (State.only m t j pc).pc i = .think := by
  show Function.update (fun _ => Pc.think) j pc i = .think
  rw [Function.update_of_ne hi]

@[simp] theorem only_goto (pc pc' : Pc) :
    (State.only m t j pc).goto j pc' = State.only m t j pc' := by
  unfold State.goto State.only
  rw [Function.update_idem]

theorem only_set (m' : Nat) (t' : Table N) (pc : Pc) :
    { mutex := m', table := t', pc := (State.only m t j pc).pc } = State.only m' t' j pc := rfl

theorem only_think : State.only 1 t j .think = State.quiet t := by
  unfold State.only State.quiet
  rw [Function.update_eq_self_iff.mpr rfl]

/-- **Alone, a philosopher comes to its `sem_wait(&eaters[j])`.** -/
theorem reaches_takeWait :
    Reaches step (State.quiet t) (State.only 1 (takeSection t j) j .takeWait) := by
  refine reaches_of_run [j, j, j, j] ?_
  rw [← only_think t j]
  simp [runActions, step, only_set]

/-- With a credit it eats and puts the sticks down. -/
theorem reaches_round {n : Nat} (hcredit : (takeSection t j).eaters j = n + 1) :
    Reaches step (State.quiet t)
      (State.quiet (putSection { takeSection t j with
        eaters := Function.update (takeSection t j).eaters j n } j)) := by
  refine (reaches_takeWait t j).trans (reaches_of_run [j, j, j, j, j] ?_)
  rw [← only_think _ j]
  simp [runActions, step, only_set, hcredit]

end solo

/-! ## §4. Leftover HUNGRY and EATING. -/

section leftover
variable {t : Table N} {i : Fin N}

/-- Next to an EATING entry a request is not granted. -/
theorem takeSection_of_eating (hN : 2 ≤ N) (hi : t.state i = EATING) :
    takeSection t (RIGHT i) = t.setState (RIGHT i) HUNGRY := by
  have hleft : (t.setState (RIGHT i) HUNGRY).state (LEFT (RIGHT i)) = EATING := by
    show Function.update t.state (RIGHT i) HUNGRY (LEFT (RIGHT i)) = EATING
    rw [LEFT_RIGHT, Function.update_of_ne (RIGHT_ne hN i).symm, hi]
  unfold takeSection test
  split
  · rw [if_neg (fun hc => hc.1 hleft)]
  · rfl

/-- **An EATING that nobody holds**: while everybody else thinks, the
neighbour waits. -/
theorem forgotten_of_eating (hN : 2 ≤ N) (hi : t.state i = EATING)
    (hcredit : t.eaters (RIGHT i) = 0) :
    ∃ s, Reaches step (State.quiet t) s ∧ ¬ s.NobodyForgotten := by
  refine ⟨_, reaches_takeWait t (RIGHT i), ?_⟩
  intro hall
  have hstarved : (State.only 1 (takeSection t (RIGHT i)) (RIGHT i) .takeWait).Starved
      (RIGHT i) := by
    refine ⟨only_pc 1 _ _ _, ?_⟩
    show (takeSection t (RIGHT i)).eaters (RIGHT i) = 0
    rw [takeSection_of_eating hN hi]
    exact hcredit
  obtain ⟨j, hj, hbusy⟩ := hall (RIGHT i) hstarved
  have hthink : (State.only 1 (takeSection t (RIGHT i)) (RIGHT i) .takeWait).pc j = .think :=
    only_pc_of_ne 1 _ _ (hj.ne hN).symm _
  rw [hthink] at hbusy
  exact hbusy.elim nofun nofun

/-- `test` gives no credit to others. -/
theorem test_eaters_of_ne (t : Table N) {i j : Fin N} (hj : j ≠ i) :
    (test t i).eaters j = t.eaters j := by
  unfold test
  split
  · split
    · exact Function.update_of_ne hj _ _
    · rfl
  · rfl

/-- A granted claim stays granted while others are tested. -/
theorem test_state_eating (t : Table N) {i : Fin N} (j : Fin N) (hi : t.state i = EATING) :
    (test t j).state i = EATING := by
  rw [← phaseOf_granted_iff]
  show (test t j).phase i = .granted
  rw [phase_test]
  exact tryGrant_granted j (phaseOf_granted_iff.mpr hi)

/-- `test` grants a HUNGRY entry between two that are not EATING. -/
theorem test_of_free (hi : t.state i = HUNGRY) (hl : t.state (LEFT i) ≠ EATING)
    (hr : t.state (RIGHT i) ≠ EATING) :
    test t i = { state := Function.update t.state i EATING
                 eaters := Function.update t.eaters i (t.eaters i + 1) } := by
  unfold test
  rw [if_pos hi, if_pos ⟨hl, hr⟩]

theorem setState_ne_eating (hnone : ∀ k, t.state k ≠ EATING) (j : Fin N) {x : Int32}
    (hx : x ≠ EATING) (k : Fin N) : (t.setState j x).state k ≠ EATING := by
  show Function.update t.state j x k ≠ EATING
  by_cases hk : k = j
  · rw [hk, Function.update_self]
    exact hx
  · rw [Function.update_of_ne hk]
    exact hnone k

/-- Where nobody is EATING a request is granted. -/
theorem takeSection_of_free (hnone : ∀ k, t.state k ≠ EATING) {j : Fin N}
    (hcredit : t.eaters j = 0) :
    takeSection t j
      = { state := Function.update (t.setState j HUNGRY).state j EATING
          eaters := Function.update t.eaters j 1 } := by
  have hfree := setState_ne_eating hnone j (show HUNGRY ≠ EATING by decide)
  have hhungry : (t.setState j HUNGRY).state j = HUNGRY := Function.update_self _ _ _
  rw [takeSection, test_of_free hhungry (hfree _) (hfree _)]
  show _ = Table.mk _ (Function.update t.eaters j (0 + 1))
  rw [← hcredit]
  rfl

/-- **A HUNGRY that nobody is**: its neighbour eats, and puts it into
EATING. -/
theorem eating_of_hungry (hN : 2 ≤ N) (hnone : ∀ k, t.state k ≠ EATING)
    (hi : t.state i = HUNGRY) (hcredit : t.eaters (RIGHT i) = 0) :
    ∃ t', Reaches step (State.quiet t) (State.quiet t') ∧ t'.state i = EATING ∧
      t'.eaters (RIGHT i) = 0 := by
  have hij : RIGHT i ≠ i := RIGHT_ne hN i
  have htake := takeSection_of_free hnone hcredit
  have hone : (takeSection t (RIGHT i)).eaters (RIGHT i) = 0 + 1 := by
    rw [htake]
    exact Function.update_self _ _ _
  refine ⟨_, reaches_round t (RIGHT i) hone, ?_, ?_⟩
  · -- `put_sticks` tests its left neighbour, which is `i`
    unfold putSection
    refine test_state_eating _ _ ?_
    rw [LEFT_RIGHT]
    have hstate : ∀ k, (Table.setState { takeSection t (RIGHT i) with
          eaters := Function.update (takeSection t (RIGHT i)).eaters (RIGHT i) 0 }
          (RIGHT i) THINKING).state k
        = (t.setState (RIGHT i) THINKING).state k := by
      intro k
      show Function.update (takeSection t (RIGHT i)).state (RIGHT i) THINKING k = _
      rw [htake]
      show Function.update (Function.update (Function.update t.state (RIGHT i) HUNGRY)
        (RIGHT i) EATING) (RIGHT i) THINKING k = _
      rw [Function.update_idem, Function.update_idem]
      rfl
    have hfree := setState_ne_eating hnone (RIGHT i) (show THINKING ≠ EATING by decide)
    have hhungry : (t.setState (RIGHT i) THINKING).state i = HUNGRY := by
      show Function.update t.state (RIGHT i) THINKING i = HUNGRY
      rw [Function.update_of_ne hij.symm, hi]
    rw [test_of_free (by rw [hstate, hhungry]) (by rw [hstate]; exact hfree _)
      (by rw [hstate]; exact hfree _)]
    exact Function.update_self _ _ _
  · -- neither test is of the neighbour itself
    unfold putSection
    rw [test_eaters_of_ne _ (RIGHT_ne hN (RIGHT i)).symm,
      test_eaters_of_ne _ (by rw [LEFT_RIGHT]; exact hij)]
    exact Function.update_self _ _ _

end leftover

/-! ## §5. When the protocol works. -/

/-- **THE LEFTOVER MEMORY DECIDES.**  All runs of the philosophers keep
neighbours apart and forget nobody, exactly if none of the ints that memset
leaves uncleared reads as HUNGRY or EATING. -/
theorem protocol_works_iff (hN : 2 ≤ N) (mem : Bytes) :
    (∀ s : State N, Reaches step (State.start (initialState mem)) s →
        s.Excludes ∧ s.NobodyForgotten) ↔
      ∀ i : Fin N, N ≤ 4 * i.val → readInt mem i ≠ HUNGRY ∧ readInt mem i ≠ EATING := by
  constructor
  · intro hall i hi
    have hnone : ∀ j : Fin N, initialState mem j ≠ EATING := by
      intro j hj
      obtain ⟨s, hs, hbad⟩ := forgotten_of_eating
        (t := { state := initialState mem, eaters := fun _ => 0 }) hN hj rfl
      exact hbad (hall s hs).2
    refine ⟨?_, ?_⟩
    · intro hhungry
      have hhungry := (initialState_ne_iff mem i (Or.inl rfl)).mpr ⟨hi, hhungry⟩
      obtain ⟨t, ht, heating, hcredit⟩ := eating_of_hungry
        (t := { state := initialState mem, eaters := fun _ => 0 }) hN hnone hhungry rfl
      obtain ⟨s, hs, hbad⟩ := forgotten_of_eating hN heating hcredit
      exact hbad (hall s (ht.trans hs)).2
    · intro heating
      exact hnone i ((initialState_ne_iff mem i (Or.inr rfl)).mpr ⟨hi, heating⟩)
  · intro hclean s hs
    have hinv : Invariant s := by
      refine Invariant.of_reaches hN ?_ hs
      intro i
      refine ⟨?_, ?_⟩
      · intro h
        have h := (initialState_ne_iff mem i (Or.inl rfl)).mp h
        exact (hclean i h.1).1 h.2
      · intro h
        have h := (initialState_ne_iff mem i (Or.inr rfl)).mp h
        exact (hclean i h.1).2 h.2
    exact ⟨fun i j hij => hinv.exclude hij, hinv.nobodyForgotten⟩

/-- Fresh pages are zero. -/
theorem protocol_works_zero :
    (∀ s : State 5, Reaches step (State.start (initialState fun _ => 0)) s →
        s.Excludes ∧ s.NobodyForgotten) ↔
      ∀ i : Fin 5, 5 ≤ 4 * i.val →
        readInt (fun _ => 0) i ≠ HUNGRY ∧ readInt (fun _ => 0) i ≠ EATING :=
  protocol_works_iff (by decide) fun _ => 0

/-- Two philosophers, and a block in which `state[1]` holds an old 1. -/
def leftoverHungry : Bytes := fun k => if k = 4 then 1 else 0

/-- The first eats twice, which credits the second while it thinks. -/
def spuriousCredit (first : Fin 2) : List (Fin 2) := List.replicate 9 first

/-- **WITH A LEFTOVER HUNGRY NEIGHBOURS EAT TOGETHER**, and a philosopher can
wait for one that only thinks. -/
theorem protocol_broken :
    (∃ s : State 2, Reaches step (State.start (initialState leftoverHungry)) s ∧
        (s.pc 0).holding = true ∧ (s.pc 1).holding = true ∧ ¬ s.Excludes) ∧
      ∃ s : State 2, Reaches step (State.start (initialState leftoverHungry)) s ∧
        s.Starved 0 ∧ s.pc 1 = .think ∧ ¬ s.NobodyForgotten := by
  refine ⟨?_, ?_⟩
  · -- the second eats once more, leaving a credit, then both are let through
    have hrun : ∃ s, runActions step (State.start (initialState leftoverHungry))
        (spuriousCredit 0 ++ List.replicate 9 1 ++ List.replicate 5 0 ++ List.replicate 5 1)
          = some s ∧ (s.pc 0).holding = true ∧ (s.pc 1).holding = true := ⟨_, rfl, rfl, rfl⟩
    obtain ⟨s, hs, h0, h1⟩ := hrun
    exact ⟨s, reaches_of_run _ hs, h0, h1, fun h => h 0 1 (Or.inr rfl) ⟨h0, h1⟩⟩
  · have hrun : ∃ s, runActions step (State.start (initialState leftoverHungry))
        (spuriousCredit 0 ++ List.replicate 4 0) = some s ∧
          s.Starved 0 ∧ s.pc 1 = .think := ⟨_, rfl, ⟨rfl, rfl⟩, rfl⟩
    obtain ⟨s, hs, hstarved, hthink⟩ := hrun
    refine ⟨s, reaches_of_run _ hs, hstarved, hthink, ?_⟩
    intro hall
    obtain ⟨j, hj, hbusy⟩ := hall 0 hstarved
    have hj1 : j = 1 := by rcases hj with hj | hj <;> rw [hj] <;> rfl
    rw [hj1, hthink] at hbusy
    exact hbusy.elim nofun nofun

end ConcurrencyCrypto.Philosophers
