/-
  ConcurrencyCrypto.Library.ProcessTrees
  ──────────────────────────────────────
  **PROGRAMS THAT UNFOLD INTO A TREE OF PROCESSES.**

  `Grows P b k f code` reads off the code that a process which has forked `f`
  children already ends with `b` of them, each of which grows a tree of height
  `k - 1`; at height 0 it forks none.  The derivation follows the process
  through `execl` into the program it becomes.

    • `Growing.change`         — every action keeps the heights,
    • `Growing.present_iff`    — when all processes have ended, they are the
                                 complete tree,
    • `Growing.can_end`        — every run can be continued to such an end,
    • `Stuck.change`           — unless the code of the root has no meaning.
-/
import ConcurrencyCrypto.Library.Processes

namespace ConcurrencyCrypto.Library

variable {L C : Type}

/-! ## §1. Complete trees. -/

/-- The addresses of a complete tree with `d` levels, `b` children a node. -/
def completeTree (b : Nat) : Nat → Finset Pid
  | 0 => ∅
  | d + 1 => insert [] ((Finset.range b ×ˢ completeTree b d).image fun np => np.1 :: np.2)

theorem mem_completeTree {b : Nat} (d : Nat) : ∀ p : Pid,
    p ∈ completeTree b d ↔ p.length < d ∧ ∀ i ∈ p, i < b := by
  induction d with
  | zero =>
      intro p
      exact ⟨fun h => absurd h (Finset.notMem_empty p), fun h => absurd h.1 (Nat.not_lt_zero _)⟩
  | succ d ih =>
      intro p
      rw [completeTree, Finset.mem_insert, Finset.mem_image]
      cases p with
      | nil => exact ⟨fun _ => ⟨Nat.succ_pos d, List.forall_mem_nil _⟩, fun _ => Or.inl rfl⟩
      | cons n p =>
          rw [List.forall_mem_cons, List.length_cons, Nat.succ_lt_succ_iff]
          constructor
          · intro h
            obtain ⟨⟨n', p'⟩, hmem, heq⟩ := h.resolve_left (List.cons_ne_nil n p)
            cases heq
            rw [Finset.mem_product, Finset.mem_range, ih] at hmem
            exact ⟨hmem.2.1, hmem.1, hmem.2.2⟩
          · intro h
            refine Or.inr ⟨(n, p), ?_, rfl⟩
            rw [Finset.mem_product, Finset.mem_range, ih]
            exact ⟨h.2.1, h.1, h.2.2⟩

theorem card_completeTree_succ (b d : Nat) :
    (completeTree b (d + 1)).card = b * (completeTree b d).card + 1 := by
  have hnil : ([] : Pid) ∉ (Finset.range b ×ˢ completeTree b d).image fun np => np.1 :: np.2 := by
    intro h
    obtain ⟨np, -, heq⟩ := Finset.mem_image.mp h
    cases heq
  have hinj : Function.Injective fun np : Nat × Pid => np.1 :: np.2 := by
    intro np np' h
    injection h with hn hp
    exact Prod.ext hn hp
  rw [completeTree, Finset.card_insert_of_notMem hnil, Finset.card_image_of_injective _ hinj,
    Finset.card_product, Finset.card_range]

/-- A binary tree with `d` levels has `2 ^ d - 1` nodes. -/
theorem card_completeTree (d : Nat) : (completeTree 2 d).card = 2 ^ d - 1 := by
  induction d with
  | zero => rfl
  | succ d ih =>
      have hpos : 0 < 2 ^ d := Nat.two_pow_pos d
      rw [card_completeTree_succ, ih, Nat.pow_succ]
      omega

/-- Trees with different numbers of levels differ. -/
theorem completeTree_injective {b : Nat} (hb : 0 < b) : Function.Injective (completeTree b) := by
  -- the leftmost path tells the number of levels
  have hpath : ∀ d n, List.replicate n 0 ∈ completeTree b d ↔ n < d := by
    intro d n
    rw [mem_completeTree, List.length_replicate]
    refine ⟨fun h => h.1, fun h => ⟨h, ?_⟩⟩
    intro i hi
    rw [List.eq_of_mem_replicate hi]
    exact hb
  intro d d' h
  have hd := hpath d' d
  have hd' := hpath d d'
  rw [← h, hpath] at hd
  rw [h, hpath] at hd'
  omega

/-! ## §2. What the code of a process grows. -/

/-- See the top of the file. -/
inductive Grows (P : Project L C) (b : Nat) : Nat → Nat → Code L C → Prop where
  | printf {k f text next} (h : Grows P b k f next) : Grows P b k f (.printf text next)
  | perror {k f text next} (h : Grows P b k f next) : Grows P b k f (.perror text next)
  | call {k f c next} (h : ∀ r, Grows P b k f (next r)) : Grows P b k f (.call c next)
  | fork {k f next} (hchild : Grows P b k 0 (next 0))
      (hparent : ∀ pid, 0 < pid → Grows P b (k + 1) (f + 1) (next pid)) :
      Grows P b (k + 1) f (.fork next)
  | wait {k f next} (h : Grows P b k f next) : Grows P b k f (.wait next)
  | execl {k f path argv failed l} (hload : P.load path argv = some l)
      (h : Grows P b k f (P.code l)) : Grows P b k f (.execl path argv failed)
  | goto {k f l} (h : Grows P b k f (P.code l)) : Grows P b k f (.goto l)
  | exit {k f status} (h : f = if k = 0 then 0 else b) : Grows P b k f (.exit status)

section grows
variable {P : Project L C} {b k f : Nat}

/-- Only `b` children are forked. -/
theorem Grows.forks_le {code : Code L C} (h : Grows P b k f code) : f ≤ b := by
  induction h with
  | printf h ih | perror h ih | wait h ih | goto h ih | execl hload h ih => exact ih
  | call h ih => exact ih 0
  | fork hchild hparent ihchild ihparent => exact Nat.le_of_succ_le (ihparent 1 (by decide))
  | exit h =>
      rw [h]
      split
      · exact Nat.zero_le b
      · exact Nat.le_refl b

theorem Grows.of_wait {next : Code L C} (h : Grows P b k f (.wait next)) : Grows P b k f next := by
  cases h with
  | wait h => exact h

theorem Grows.of_fork {next : Int → Code L C} (h : Grows P b k f (.fork next)) :
    ∃ k', k = k' + 1 ∧ Grows P b k' 0 (next 0) ∧
      ∀ pid, 0 < pid → Grows P b k (f + 1) (next pid) := by
  cases h with
  | fork hchild hparent => exact ⟨_, rfl, hchild, hparent⟩

/-- What is known of a process of height `k`. -/
def GrowsTo (P : Project L C) (b k : Nat) (q : Process L C) : Prop :=
  match q.status with
  | .running code => Grows P b k q.forks code
  | .foreign _ _ => False
  | .zombie _ => q.forks = if k = 0 then 0 else b
  | .reaped => q.forks = if k = 0 then 0 else b

/-- A call that succeeds keeps it. -/
theorem GrowsTo.move {q : Process L C} {st : Status L C} (h : Move P false q.status st)
    (hq : GrowsTo P b k q) (stdin : List UInt8) : GrowsTo P b k ⟨st, stdin, q.forks⟩ := by
  obtain ⟨st₀, stdin₀, forks⟩ := q
  cases h with
  | input => exact hq
  | printf text next => cases hq with | printf h => exact h
  | perror text next => cases hq with | perror h => exact h
  | scanf capacity n next r ws => cases hq
  | fgets size next got => cases hq
  | call c next r => cases hq with | call h => exact h r
  | exec path argv failed l hload =>
      cases hq with
      | execl hload' h =>
          rw [hload] at hload'
          cases hload'
          exact .goto h
  | foreign path argv failed hload =>
      cases hq with
      | execl hload' h =>
          rw [hload] at hload'
          cases hload'
  | goto l => cases hq with | goto h => exact h
  | exit status => cases hq with | exit h => exact h
  | ends path argv status => exact hq.elim

/-- The table of a tree of height `N`, while it grows. -/
structure Growing (P : Project L C) (b N : Nat) (t : Table L C) : Prop where
  family : t.Family
  root : (t []).isSome = true
  nodes : ∀ p q, t p = some q →
    (p.length ≤ N ∧ ∀ i ∈ p, i < b) ∧ GrowsTo P b (N - p.length) q

variable {N : Nat} {t t' : Table L C}

/-- One process of the table moves on. -/
theorem Growing.set (hg : Growing P b N t) (st : Status L C) (stdin : List UInt8) {p : Pid}
    {q : Process L C} (hp : t p = some q) (hq : GrowsTo P b (N - p.length) ⟨st, stdin, q.forks⟩) :
    Growing P b N (t.set p ⟨st, stdin, q.forks⟩) := by
  refine ⟨?_, ?_, ?_⟩
  · rw [Table.Family, Table.forks_set_same hp]
    exact hg.family
  · by_cases hroot : [] = p
    · rw [← hroot, Table.set_self]
      rfl
    · rw [Table.set_ne hroot]
      exact hg.root
  · intro p' q' hp'
    by_cases heq : p' = p
    · rw [heq, Table.set_self] at hp'
      cases hp'
      exact ⟨heq ▸ (hg.nodes p q hp).1, heq ▸ hq⟩
    · rw [Table.set_ne heq] at hp'
      exact hg.nodes p' q' hp'

/-- A process of the table is running. -/
theorem Growing.running (hg : Growing P b N t) {p : Pid} {q : Process L C} (hp : t p = some q)
    {code : Code L C} (hcode : q.status = .running code) :
    Grows P b (N - p.length) q.forks code := by
  have hq := (hg.nodes p q hp).2
  rw [GrowsTo, hcode] at hq
  exact hq

/-- A process of the table has ended. -/
theorem Growing.zombie (hg : Growing P b N t) {p : Pid} {q : Process L C} (hp : t p = some q)
    (hzombie : q.status.isZombie = true) :
    q.forks = if N - p.length = 0 then 0 else b := by
  have hq := (hg.nodes p q hp).2
  cases hstatus : q.status with
  | zombie status =>
      rw [GrowsTo, hstatus] at hq
      exact hq
  | _ => rw [hstatus] at hzombie; exact absurd hzombie (by simp [Status.isZombie])

/-- A new child takes its place in the tree. -/
theorem Growing.fork (hg : Growing P b N t) {p : Pid} {q : Process L C} (hp : t p = some q)
    {next : Int → Code L C} (hst : q.status = .running (.fork next)) {answer : Int}
    (hanswer : 0 < answer) :
    Growing P b N ((t.set p ⟨.running (next answer), q.stdin, q.forks + 1⟩).set
      (q.forks :: p) ⟨.running (next 0), q.stdin, 0⟩) := by
  obtain ⟨k', hk', hchild, hparent⟩ := (hg.running hp hst).of_fork
  obtain ⟨hlen, hlt⟩ := (hg.nodes p q hp).1
  have hforks := (hparent answer hanswer).forks_le
  refine ⟨hg.family.fork hp, ?_, ?_⟩
  · rw [Table.set_ne (List.cons_ne_nil _ _).symm]
    by_cases hroot : [] = p
    · rw [← hroot, Table.set_self]
      rfl
    · rw [Table.set_ne hroot]
      exact hg.root
  · intro p' q' hp'
    by_cases hnew : p' = q.forks :: p
    · rw [hnew, Table.set_self] at hp'
      cases hp'
      have hheight : N - (q.forks :: p).length = k' := by
        rw [List.length_cons]
        omega
      refine ⟨⟨?_, ?_⟩, ?_⟩
      · rw [hnew, List.length_cons]
        omega
      · rw [hnew, List.forall_mem_cons]
        exact ⟨hforks, hlt⟩
      · rw [hnew, hheight]
        exact hchild
    · rw [Table.set_ne hnew] at hp'
      by_cases heq : p' = p
      · rw [heq, Table.set_self] at hp'
        cases hp'
        rw [heq]
        exact ⟨⟨hlen, hlt⟩, hparent answer hanswer⟩
      · rw [Table.set_ne heq] at hp'
        exact hg.nodes p' q' hp'

/-- **EVERY ACTION KEEPS THE HEIGHTS**, as long as no call fails. -/
theorem Growing.change (hg : Growing P b N t) (h : Change P t false t') : Growing P b N t' := by
  cases h with
  | move _ p q st stdin hp hst => exact hg.set st stdin hp ((hg.nodes p q hp).2.move hst stdin)
  | noChild p q next hp hst hnone => exact hg.set _ _ hp (hg.running hp hst).of_wait
  | fork p q next answer hp hst hanswer => exact hg.fork hp hst hanswer
  | reap p q next n c hp hst hc hzombie =>
      have hset := hg.set (.running next) q.stdin hp (hg.running hp hst).of_wait
      have hc' : t.set p ⟨.running next, q.stdin, q.forks⟩ (n :: p) = some c := by
        rw [Table.set_ne (child_ne n p), hc]
      have hchild := hg.zombie hc hzombie
      exact hset.set .reaped c.stdin hc' hchild

/-! ## §3. When all have ended. -/

def Status.isEnded : Status L C → Bool
  | .zombie _ => true
  | .reaped => true
  | _ => false

/-- No process is left that could do anything. -/
def AllEnded (t : Table L C) : Prop := ∀ p q, t p = some q → q.status.isEnded = true

theorem GrowsTo.ended {q : Process L C} (hq : GrowsTo P b k q) (h : q.status.isEnded = true) :
    q.forks = if k = 0 then 0 else b := by
  cases hstatus : q.status with
  | zombie status =>
      rw [GrowsTo, hstatus] at hq
      exact hq
  | reaped =>
      rw [GrowsTo, hstatus] at hq
      exact hq
  | _ => rw [hstatus] at h; exact absurd h (by simp [Status.isEnded])

/-- **THE PROCESSES ARE THE COMPLETE TREE** when all have ended. -/
theorem Growing.present_iff (hg : Growing P b N t) (hended : AllEnded t) :
    ∀ p : Pid, (t p).isSome = true ↔ p ∈ completeTree b (N + 1) := by
  intro p
  rw [mem_completeTree]
  constructor
  · intro h
    obtain ⟨q, hq⟩ := Option.isSome_iff_exists.mp h
    obtain ⟨⟨hlen, hlt⟩, -⟩ := hg.nodes p q hq
    exact ⟨Nat.lt_succ_of_le hlen, hlt⟩
  · -- from the root on, every process has all its children
    induction p with
    | nil => exact fun _ => hg.root
    | cons n p ih =>
        intro h
        obtain ⟨hlen, hmem⟩ := h
        rw [List.length_cons] at hlen
        rw [List.forall_mem_cons] at hmem
        obtain ⟨q, hq⟩ := Option.isSome_iff_exists.mp (ih ⟨by omega, hmem.2⟩)
        have hforks := (hg.nodes p q hq).2.ended (hended p q hq)
        rw [if_neg (by omega)] at hforks
        have hsome := (hg.family p n).mpr ⟨q.forks, Table.forks_eq hq, by omega⟩
        rw [Table.forks, Option.isSome_map] at hsome
        exact hsome

/-! ## §4. A process that runs to its end. -/

/-- The machine as long as no call fails. -/
def System.stepOk (P : Project L C) (s : System L C) (a : Act) : Option (System L C) :=
  if a.isFailure then none else s.step P a

theorem System.stepOk_cases {s s' : System L C} {a : Act} (h : s.stepOk P a = some s') :
    Change P s.process false s'.process := by
  unfold System.stepOk at h
  cases ha : a.isFailure with
  | true =>
      rw [ha, if_pos rfl] at h
      cases h
  | false =>
      rw [ha, if_neg Bool.false_ne_true] at h
      exact ha ▸ System.step_cases h

/-- A process that makes its next call. -/
theorem reaches_advance (answer : Int) {s s' : System L C} {p : Pid} {q : Process L C}
    {code : Code L C} (hp : s.process p = some q) (hcode : q.status = .running code)
    (h : s.advance P p q answer code = some s') : Reaches (System.stepOk P) s s' := by
  refine Relation.ReflTransGen.single ⟨.run p answer, ?_⟩
  show (if false = true then none else s.step P (.run p answer)) = some s'
  rw [if_neg Bool.false_ne_true, System.step_run hp hcode, h]

/-- The process at `p` and all below it have ended. -/
def SubtreeEnded (t : Table L C) (p : Pid) : Prop :=
  ∀ p' q, p <:+ p' → t p' = some q → q.status.isEnded = true

/-- What is below a process is below one of its children. -/
theorem suffix_cases {p p' : Pid} (h : p <:+ p') : p' = p ∨ ∃ n, (n :: p) <:+ p' := by
  obtain ⟨front, rfl⟩ := h
  rcases List.eq_nil_or_concat front with rfl | ⟨front, n, rfl⟩
  · exact Or.inl rfl
  · exact Or.inr ⟨n, front, by simp⟩

theorem child_suffix_ne {n : Nat} {p p' : Pid} (h : (n :: p) <:+ p') : p' ≠ p := by
  intro heq
  have hlen := h.length_le
  rw [heq, List.length_cons] at hlen
  omega

/-- Below an address that is not in use none is. -/
theorem Table.Family.none_below (hfam : t.Family) {p p' : Pid} (hnone : t p = none)
    (h : p <:+ p') : t p' = none := by
  obtain ⟨front, rfl⟩ := h
  induction front with
  | nil => exact hnone
  | cons n front ih =>
      have hfree := (hfam (front ++ p) n).not.mpr (by
        intro hk
        obtain ⟨k, hk, -⟩ := hk
        rw [Table.forks, ih] at hk
        cases hk)
      rw [Table.forks, Option.isSome_map] at hfree
      exact Option.not_isSome_iff_eq_none.mp hfree

/-- The subtree of `p` can be brought to its end, and no other process takes
part in it. -/
def Finishes (P : Project L C) (s : System L C) (p : Pid) : Prop :=
  ∃ s', Reaches (System.stepOk P) s s' ∧ SubtreeEnded s'.process p ∧
    ∀ p', ¬ p <:+ p' → s'.process p' = s.process p'

theorem Reaches.family {s s' : System L C} (h : Reaches (System.stepOk P) s s')
    (hfam : s.process.Family) : s'.process.Family :=
  h.invariant (I := fun s => s.process.Family) hfam
    fun _ _ _ hfam hstep => hfam.change (System.stepOk_cases hstep)

/-- Steps of the process and of those below it. -/
theorem Finishes.of_reaches {s s₁ : System L C} {p : Pid}
    (hreach : Reaches (System.stepOk P) s s₁)
    (hframe : ∀ p', ¬ p <:+ p' → s₁.process p' = s.process p') (h : Finishes P s₁ p) :
    Finishes P s p := by
  obtain ⟨s', hreach', hended, hframe'⟩ := h
  refine ⟨s', hreach.trans hreach', hended, ?_⟩
  intro p' hp'
  rw [hframe' p' hp', hframe p' hp']

theorem subtreeEnded_set {p : Pid} {q : Process L C} (h : ∀ n, SubtreeEnded t (n :: p)) :
    ∀ n, SubtreeEnded (t.set p q) (n :: p) := by
  intro n p' q' hsuffix hq'
  rw [Table.set_ne (child_suffix_ne hsuffix)] at hq'
  exact h n p' q' hsuffix hq'

/-- A step of the process that keeps its children. -/
theorem Finishes.of_advance {s s₁ : System L C} {p : Pid} {q : Process L C} {code next : Code L C}
    (answer : Int) (hfam : s.process.Family) (hp : s.process p = some q)
    (hcode : q.status = .running code) (hbelow : ∀ n, SubtreeEnded s.process (n :: p))
    (hadvance : s.advance P p q answer code = some s₁)
    (hs₁ : s₁.process = s.process.set p ⟨.running next, q.stdin, q.forks⟩)
    (h : s₁.process.Family → s₁.process p = some ⟨.running next, q.stdin, q.forks⟩ →
      (∀ n, SubtreeEnded s₁.process (n :: p)) → Finishes P s₁ p) : Finishes P s p := by
  have hreach := reaches_advance answer hp hcode hadvance
  refine Finishes.of_reaches hreach ?_ (h (hreach.family hfam) ?_ ?_)
  · intro p' hp'
    rw [hs₁, Table.set_ne (ne_of_not_suffix hp')]
  · rw [hs₁, Table.set_self]
  · rw [hs₁]
    exact subtreeEnded_set hbelow

theorem finishes_exit {s : System L C} {p : Pid} {q : Process L C} {status : Int}
    (hp : s.process p = some q) (hcode : q.status = .running (.exit status))
    (hbelow : ∀ n, SubtreeEnded s.process (n :: p)) : Finishes P s p := by
  have hreach := reaches_advance (P := P) 0 hp hcode rfl
  refine ⟨_, hreach, ?_, ?_⟩
  · intro p' q' hsuffix hq'
    rcases suffix_cases hsuffix with heq | ⟨n, hn⟩
    · rw [heq] at hq'
      have hself := (Table.set_self s.process p ⟨.zombie status, q.stdin, q.forks⟩).symm.trans hq'
      cases hself
      rfl
    · exact subtreeEnded_set hbelow n p' q' hn hq'
  · intro p' hp'
    exact Table.set_ne (ne_of_not_suffix hp') _

/-- Where all below have ended and none can be waited for, none is left. -/
theorem childless_of_ended {p : Pid} (hbelow : ∀ n, SubtreeEnded t (n :: p))
    (hz : ¬ ∃ n c, t (n :: p) = some c ∧ c.status.isZombie = true) (q : Process L C) :
    t.childless p q = true := by
  unfold Table.childless
  rw [List.all_eq_true]
  intro n _
  cases hc : t (n :: p) with
  | none => rw [Table.reaped, hc]; rfl
  | some c =>
      have hended := hbelow n (n :: p) c (List.suffix_refl _) hc
      rw [Table.reaped_eq hc]
      cases hstatus : c.status with
      | reaped => rfl
      | zombie status => exact absurd ⟨n, c, hc, by rw [hstatus]; rfl⟩ hz
      | _ => rw [hstatus] at hended; exact absurd hended (by simp [Status.isEnded])

/-- **A PROCESS CAN RUN TO ITS END**, its children with it. -/
theorem Grows.finish {code : Code L C} (h : Grows P b k f code) :
    ∀ {s : System L C} {p : Pid} {stdin : List UInt8}, s.process.Family →
      s.process p = some ⟨.running code, stdin, f⟩ →
      (∀ n, SubtreeEnded s.process (n :: p)) → Finishes P s p := by
  induction h with
  | printf h ih =>
      intro s p stdin hfam hp hbelow
      exact Finishes.of_advance 0 hfam hp rfl hbelow rfl rfl ih
  | perror h ih =>
      intro s p stdin hfam hp hbelow
      exact Finishes.of_advance 0 hfam hp rfl hbelow rfl rfl ih
  | call h ih =>
      intro s p stdin hfam hp hbelow
      exact Finishes.of_advance 0 hfam hp rfl hbelow rfl rfl (ih 0)
  | goto h ih =>
      intro s p stdin hfam hp hbelow
      exact Finishes.of_advance 0 hfam hp rfl hbelow rfl rfl ih
  | @execl k f path argv failed l hload h ih =>
      intro s p stdin hfam hp hbelow
      have hadvance : s.advance P p ⟨.running (.execl path argv failed), stdin, f⟩ 0
          (.execl path argv failed)
            = some ((s.set p ⟨.running (.goto l), stdin, f⟩).emit (.execed path argv false)) := by
        simp only [System.advance, hload]
      refine Finishes.of_advance 0 hfam hp rfl hbelow hadvance rfl ?_
      intro hfam₁ hp₁ hbelow₁
      exact Finishes.of_advance 0 hfam₁ hp₁ rfl hbelow₁ rfl rfl ih
  | exit h =>
      intro s p stdin hfam hp hbelow
      exact finishes_exit hp rfl hbelow
  | @wait k f next h ih =>
      intro s p stdin hfam hp hbelow
      by_cases hz : ∃ n c, s.process (n :: p) = some c ∧ c.status.isZombie = true
      · -- a child is waited for
        obtain ⟨n, c, hc, hzombie⟩ := hz
        have hadvance : s.advance P p ⟨.running (.wait next), stdin, f⟩ n (.wait next)
            = some (((s.set p ⟨.running next, stdin, f⟩).set (n :: p)
                ⟨.reaped, c.stdin, c.forks⟩).emit .waited) := by
          have hn : ¬ (n : Int) = -1 := by omega
          simp only [System.advance, if_neg hn, Int.toNat_natCast, hc, hzombie, if_true]
        have hreach := reaches_advance n hp rfl hadvance
        have hp₁ : ((s.process.set p ⟨.running next, stdin, f⟩).set (n :: p)
            ⟨.reaped, c.stdin, c.forks⟩ : Table L C) p = some ⟨.running next, stdin, f⟩ := by
          rw [Table.set_ne (child_ne n p).symm, Table.set_self]
        refine Finishes.of_reaches hreach ?_ (ih (hreach.family hfam) hp₁ ?_)
        · intro p' hp'
          have hne : p' ≠ n :: p := by
            intro heq
            rw [heq] at hp'
            exact hp' (List.suffix_cons n p)
          exact (Table.set_ne hne _).trans (Table.set_ne (ne_of_not_suffix hp') _)
        · intro m p' q' hsuffix hq'
          by_cases hself : p' = n :: p
          · rw [hself] at hq'
            have heq := (Table.set_self _ (n :: p) _).symm.trans hq'
            cases heq
            rfl
          · have hq := (Table.set_ne hself _).symm.trans hq'
            exact subtreeEnded_set hbelow m p' q' hsuffix hq
      · -- none is left
        have hnone := childless_of_ended hbelow hz ⟨.running (.wait next), stdin, f⟩
        have hadvance : s.advance P p ⟨.running (.wait next), stdin, f⟩ (-1) (.wait next)
            = some (s.set p ⟨.running next, stdin, f⟩) := by
          simp only [System.advance, if_true, hnone]
        exact Finishes.of_advance (-1) hfam hp rfl hbelow hadvance rfl ih
  | @fork k f next hchild hparent ihchild ihparent =>
      intro s p stdin hfam hp hbelow
      have hadvance : s.advance P p ⟨.running (.fork next), stdin, f⟩ 1 (.fork next)
          = some (((s.set p ⟨.running (next 1), stdin, f + 1⟩).set (f :: p)
              ⟨.running (next 0), stdin, 0⟩).emit (.forked false)) := rfl
      have hreach := reaches_advance 1 hp rfl hadvance
      have hfam₁ := hreach.family hfam
      -- the child, which has no children yet
      have hchild₁ := Table.set_self (s.process.set p ⟨.running (next 1), stdin, f + 1⟩) (f :: p)
        ⟨.running (next 0), stdin, 0⟩
      have hnew : ∀ n, SubtreeEnded (((s.process.set p ⟨.running (next 1), stdin, f + 1⟩).set
          (f :: p) ⟨.running (next 0), stdin, 0⟩) : Table L C) (n :: f :: p) := by
        intro n p' q' hsuffix hq'
        have hnone := (hfam₁ (f :: p) n).not.mpr (by
          intro hk
          obtain ⟨k', hk', hlt⟩ := hk
          have heq := (Table.forks_eq hchild₁).symm.trans hk'
          cases heq
          exact absurd hlt (Nat.not_lt_zero n))
        rw [Table.forks, Option.isSome_map] at hnone
        have hbelow' := hfam₁.none_below (Option.not_isSome_iff_eq_none.mp hnone) hsuffix
        cases hbelow'.symm.trans hq'
      obtain ⟨s₂, hreach₂, hended₂, hframe₂⟩ := ihchild hfam₁ hchild₁ hnew
      -- the parent, which goes on where it was
      have hp₂ : s₂.process p = some ⟨.running (next 1), stdin, f + 1⟩ := by
        rw [hframe₂ p (fun h => absurd h.length_le (Nat.not_succ_le_self p.length))]
        exact (Table.set_ne (child_ne f p).symm _).trans (Table.set_self _ p _)
      have hbelow₂ : ∀ n, SubtreeEnded s₂.process (n :: p) := by
        intro n p' q' hsuffix hq'
        by_cases hchild' : (f :: p) <:+ p'
        · exact hended₂ p' q' hchild' hq'
        · rw [hframe₂ p' hchild'] at hq'
          have hq := (Table.set_ne (ne_of_not_suffix hchild') _).symm.trans hq'
          exact subtreeEnded_set hbelow n p' q' hsuffix hq
      refine Finishes.of_reaches (hreach.trans hreach₂) ?_
        (ihparent 1 (by decide) (hreach₂.family hfam₁) hp₂ hbelow₂)
      intro p' hp'
      have hchild' : ¬ (f :: p) <:+ p' := fun h => hp' ((List.suffix_cons f p).trans h)
      rw [hframe₂ p' hchild']
      exact (Table.set_ne (ne_of_not_suffix hchild') _).trans
        (Table.set_ne (ne_of_not_suffix hp') _)

/-! ## §5. Child after child. -/

variable {s : System L C}

theorem Growing.reaches {s' : System L C} (hg : Growing P b N s.process)
    (h : Reaches (System.stepOk P) s s') : Growing P b N s'.process :=
  h.invariant (I := fun s => Growing P b N s.process) hg
    fun _ _ _ hg hstep => hg.change (System.stepOk_cases hstep)

/-- The first `m` children of `p` come to their end one after the other. -/
theorem Growing.finish_children (hg : Growing P b N s.process) {p : Pid}
    (hchild : ∀ {s₁ : System L C} (n : Nat), Growing P b N s₁.process → Finishes P s₁ (n :: p))
    (m : Nat) :
    ∃ s', Reaches (System.stepOk P) s s' ∧ (∀ n < m, SubtreeEnded s'.process (n :: p)) ∧
      ∀ p', (p' = p ∨ ¬ p <:+ p') → s'.process p' = s.process p' := by
  induction m with
  | zero => exact ⟨s, .refl, fun n hn => absurd hn (Nat.not_lt_zero n), fun _ _ => rfl⟩
  | succ m ih =>
      obtain ⟨s₁, hreach₁, hended₁, hframe₁⟩ := ih
      obtain ⟨s₂, hreach₂, hended₂, hframe₂⟩ := hchild m (hg.reaches hreach₁)
      refine ⟨s₂, hreach₁.trans hreach₂, ?_, ?_⟩
      · intro n hn p' q hsuffix hq
        by_cases hnm : n = m
        · exact hended₂ p' q (hnm ▸ hsuffix) hq
        · rw [hframe₂ p' (not_suffix_of_ne hnm hsuffix)] at hq
          exact hended₁ n (by omega) p' q hsuffix hq
      · intro p' hp'
        have hout : ¬ (m :: p) <:+ p' := by
          intro hsuffix
          rcases hp' with heq | hnot
          · exact child_suffix_ne hsuffix heq
          · exact hnot ((List.suffix_cons m p).trans hsuffix)
        rw [hframe₂ p' hout, hframe₁ p' hp']

/-- The process itself comes to its end when those below it have. -/
theorem Growing.finish_root (hg : Growing P b N s.process) {p : Pid}
    (hbelow : ∀ n, SubtreeEnded s.process (n :: p)) : Finishes P s p := by
  cases hp : s.process p with
  | none =>
      refine ⟨s, .refl, ?_, fun _ _ => rfl⟩
      intro p' q hsuffix hq
      cases (hg.family.none_below hp hsuffix).symm.trans hq
  | some q =>
      obtain ⟨st, stdin, forks⟩ := q
      have hq := (hg.nodes p _ hp).2
      cases st with
      | running code => exact Grows.finish hq hg.family hp hbelow
      | foreign path argv => exact hq.elim
      | zombie _ | reaped =>
          refine ⟨s, .refl, ?_, fun _ _ => rfl⟩
          intro p' q' hsuffix hq'
          rcases suffix_cases hsuffix with heq | ⟨n, hn⟩
          · rw [heq] at hq'
            cases hp.symm.trans hq'
            rfl
          · exact hbelow n p' q' hn hq'

theorem Growing.finish (k : Nat) : ∀ {s : System L C} {p : Pid},
    Growing P b N s.process → N ≤ p.length + k → Finishes P s p := by
  induction k with
  | zero =>
      intro s p hg hk
      -- no process is below the last level
      refine hg.finish_root ?_
      intro n p' q hsuffix hq
      have hlen := hsuffix.length_le
      have hle := (hg.nodes p' q hq).1.1
      rw [List.length_cons] at hlen
      omega
  | succ k ih =>
      intro s p hg hk
      have hchild : ∀ {s₁ : System L C} (n : Nat), Growing P b N s₁.process →
          Finishes P s₁ (n :: p) := by
        intro s₁ n hg₁
        refine ih hg₁ ?_
        rw [List.length_cons]
        omega
      obtain ⟨s₁, hreach, hended, hframe⟩ := hg.finish_children hchild b
      have hg₁ := hg.reaches hreach
      refine Finishes.of_reaches hreach (fun p' hp' => hframe p' (Or.inr hp'))
        (hg₁.finish_root ?_)
      intro n p' q hsuffix hq
      -- the children of `p` are its first `b`
      have hn := (hg₁.nodes p' q hq).1.2 n (hsuffix.subset List.mem_cons_self)
      exact hended n hn p' q hsuffix hq

/-- **EVERY RUN CAN BE BROUGHT TO ITS END.** -/
theorem Growing.can_end (hg : Growing P b N s.process) :
    ∃ s', Reaches (System.stepOk P) s s' ∧ AllEnded s'.process := by
  obtain ⟨s', hreach, hended, -⟩ := Growing.finish N hg (p := []) (Nat.le_add_left N _)
  exact ⟨s', hreach, fun p q hq => hended p q List.nil_suffix hq⟩

/-- At first there is the root. -/
theorem Growing.start {l : L} (h : Grows P b N 0 (P.code l)) (stdin : List UInt8) :
    Growing P b N (System.start l stdin : System L C).process := by
  refine ⟨Table.Family.start l stdin, rfl, ?_⟩
  intro p q hp
  by_cases hroot : p = []
  · rw [hroot, Table.start_root] at hp
    cases hp
    rw [hroot]
    exact ⟨⟨Nat.zero_le N, List.forall_mem_nil _⟩, .goto h⟩
  · rw [Table.start_of_ne hroot] at hp
    cases hp

end grows

/-! ## §6. A root whose code has no meaning. -/

/-- The root has not gone beyond label `l`. -/
def Stuck (l : L) (t : Table L C) : Prop :=
  ∃ q, t [] = some q ∧ (q.status = .running (.goto l) ∨ q.status = .running .undefined)

section stuck
variable {P : Project L C} {l : L} {t t' : Table L C}

/-- The other processes do not move it. -/
theorem Stuck.of_eq (hstuck : Stuck l t) (h : t' [] = t []) : Stuck l t' := by
  rw [Stuck, h]
  exact hstuck

/-- What moves on is the step to the label, or its input. -/
theorem Stuck.move (hl : P.code l = .undefined) {failed : Bool} {st₀ st : Status L C}
    (h : Move P failed st₀ st)
    (hst₀ : st₀ = .running (.goto l) ∨ st₀ = .running .undefined) :
    st = .running (.goto l) ∨ st = .running .undefined := by
  rcases hst₀ with rfl | rfl
  · cases h with
    | goto => exact Or.inr (congrArg Status.running hl)
    | input => exact Or.inl rfl
  · cases h with
    | input => exact Or.inr rfl

/-- **EVERY ACTION LEAVES IT THERE.** -/
theorem Stuck.change (hl : P.code l = .undefined) (hstuck : Stuck l t) {failed : Bool}
    (h : Change P t failed t') : Stuck l t' := by
  obtain ⟨root, hroot, hcode⟩ := hstuck
  have hstuck : Stuck l t := ⟨root, hroot, hcode⟩
  -- neither `fork` nor `wait` is its next call
  have hcall : ∀ {p : Pid} {q : Process L C} {code : Code L C}, t p = some q →
      q.status = .running code → (∀ l', code ≠ .goto l') → code ≠ .undefined → [] ≠ p := by
    intro p q code hp hst hgoto hundefined heq
    rw [← heq, hroot] at hp
    cases hp
    rw [hst] at hcode
    rcases hcode with h | h
    · cases h
      exact hgoto l rfl
    · cases h
      exact hundefined rfl
  cases h with
  | move failed p q st stdin hp hst =>
      by_cases heq : [] = p
      · rw [← heq, hroot] at hp
        cases hp
        exact ⟨_, by rw [← heq, Table.set_self], Stuck.move hl hst hcode⟩
      · exact hstuck.of_eq (Table.set_ne heq _)
  | noChild p q next hp hst hnone =>
      have hne := hcall hp hst (by intro _ h; cases h) (by intro h; cases h)
      exact hstuck.of_eq (Table.set_ne hne _)
  | fork p q next answer hp hst hanswer =>
      have hne := hcall hp hst (by intro _ h; cases h) (by intro h; cases h)
      refine hstuck.of_eq ?_
      rw [Table.set_ne (List.cons_ne_nil _ p).symm, Table.set_ne hne]
  | reap p q next n c hp hst hc hzombie =>
      have hne := hcall hp hst (by intro _ h; cases h) (by intro h; cases h)
      refine hstuck.of_eq ?_
      rw [Table.set_ne (List.cons_ne_nil n p).symm, Table.set_ne hne]

theorem Stuck.not_allEnded (hstuck : Stuck l t) : ¬ AllEnded t := by
  intro hended
  obtain ⟨root, hroot, hcode⟩ := hstuck
  have h := hended [] root hroot
  rcases hcode with hst | hst <;> rw [hst] at h <;> exact absurd h Bool.false_ne_true

end stuck

end ConcurrencyCrypto.Library
