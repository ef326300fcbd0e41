/-
  ConcurrencyCrypto.Library.BoundedWords
  ──────────────────────────────────────
  **WORDS THAT FIT INTO THEIR ARRAYS.**

  A conversion `%s` stores a word however long it is.  `Fits m code` reads
  the code alone: as long as no word of the input has more than `m` bytes,
  every word that is stored fits, whatever else the kernel answers.

    • `Fits.sscanf`           — the check of an `sscanf` on a line;
    • `not_overruns_of_fits`  — a program that passes the check overruns no
      array, in any run on such inputs, of any of its processes.
-/
import ConcurrencyCrypto.Library.Processes

namespace ConcurrencyCrypto.Library

variable {L C : Type}

/-! ## §1. The check. -/

/-- No array is overrun where all words have at most `m` bytes. -/
def Fits (m : Nat) : Code L C → Prop
  | .printf _ next => Fits m next
  | .perror _ next => Fits m next
  | .scanf capacity n next => m < capacity ∧
      ∀ ws : List CString, ws.length ≤ n → (∀ w ∈ ws, w.length ≤ m) →
        Fits m (next (scanfResult ws) ws)
  | .fgets _ next => Fits m (next none) ∧ ∀ line, WordsWithin m line → Fits m (next (some line))
  | .call _ next => ∀ r, Fits m (next r)
  | .fork next => ∀ r, Fits m (next r)
  | .wait next => Fits m next
  | .execl _ _ failed => Fits m failed
  | .goto _ => True
  | .exit _ => True
  | .undefined => False

/-- `sscanf` on a line without long words. -/
theorem Fits.sscanf {m capacity n : Nat} (hm : m < capacity) {line : List UInt8}
    (hline : WordsWithin m line) {next : Int → List CString → Code L C}
    (hnext : ∀ ws : List CString, ws.length ≤ n → (∀ w ∈ ws, w.length ≤ m) →
      Fits m (next (scanfResult ws) ws)) :
    Fits m (Library.sscanf capacity n line next) := by
  have hwords : WordsWithin m (cString line) := hline.front (List.takeWhile_prefix _)
  have hfit : ∀ w ∈ words (cString line), w.length < capacity :=
    fun w hw => Nat.lt_of_le_of_lt (hwords w hw) hm
  rw [sscanf_eq hfit]
  exact hnext _ (List.length_take_le _ _) fun w hw => hwords w (List.mem_of_mem_take hw)

/-! ## §2. Overruns. -/

/-- The call that the process makes next writes behind the end of an array, or
the one before did. -/
def Process.Overruns (q : Process L C) : Prop :=
  q.status = .running .undefined ∨
    ∃ capacity n next, q.status = .running (.scanf capacity n next) ∧
      ∃ w ∈ (scanf n q.stdin).1, capacity ≤ w.length

def System.Overruns (s : System L C) : Prop := ∃ p q, s.process p = some q ∧ q.Overruns

/-- Inputs that are replaced are replaced by texts without long words. -/
def Act.InputWithin (m : Nat) : Act → Prop
  | .input _ text => WordsWithin m text
  | _ => True

/-- The input has no long word, and the code passes the check. -/
structure Process.Tidy (m : Nat) (q : Process L C) : Prop where
  stdin : WordsWithin m q.stdin
  code : ∀ code, q.status = .running code → Fits m code

def System.Tidy (m : Nat) (s : System L C) : Prop := ∀ p q, s.process p = some q → q.Tidy m

theorem Process.Tidy.not_overruns {m : Nat} {q : Process L C} (h : q.Tidy m) : ¬ q.Overruns := by
  intro hover
  rcases hover with hundef | ⟨capacity, n, next, hcode, w, hw, hlong⟩
  · exact h.code _ hundef
  · have hlt := (h.code _ hcode).1
    have hle := (h.stdin.scanf n).1 w hw
    omega

/-! ## §3. Steps. -/

section steps
variable {P : Project L C} {m : Nat} {s s' : System L C} {p : Pid} {q q' : Process L C}

theorem System.Tidy.set (h : s.Tidy m) (hq : q.Tidy m) (p : Pid) : (s.set p q).Tidy m := by
  intro p' q' hp'
  by_cases heq : p' = p
  · subst heq
    cases (Table.set_self s.process p' q).symm.trans hp'
    exact hq
  · exact h p' q' ((Table.set_ne heq q).symm.trans hp')

theorem System.Tidy.emit (h : s.Tidy m) (e : Effect C) : (s.emit e).Tidy m := h

/-- The process goes on with code that passes the check. -/
theorem Process.Tidy.running {text : List UInt8} {code : Code L C} {n : Nat}
    (htext : WordsWithin m text) (hcode : Fits m code) :
    (⟨.running code, text, n⟩ : Process L C).Tidy m := by
  refine ⟨htext, ?_⟩
  intro code' h
  injection h with h
  rwa [← h]

/-- The process runs no code of the program any more. -/
theorem Process.Tidy.stopped {text : List UInt8} {st : Status L C} {n : Nat}
    (htext : WordsWithin m text) (hst : ∀ code, st ≠ .running code) :
    (⟨st, text, n⟩ : Process L C).Tidy m :=
  ⟨htext, fun code h => absurd h (hst code)⟩

/-- **A call that succeeds.** -/
theorem System.Tidy.advance (hcode : ∀ l, Fits m (P.code l)) (h : s.Tidy m)
    (hp : s.process p = some q) {answer : Int} {code : Code L C}
    (hrun : q.status = .running code) (hstep : s.advance P p q answer code = some s') :
    s'.Tidy m := by
  have htext := (h p q hp).stdin
  have hfits := (h p q hp).code code hrun
  cases code with
  | printf text next =>
      cases hstep
      have hnext : Fits m next := hfits
      exact (h.set (.running htext hnext) p).emit _
  | perror text next =>
      cases hstep
      have hnext : Fits m next := hfits
      exact (h.set (.running htext hnext) p).emit _
  | scanf capacity n next =>
      simp only [System.advance] at hstep
      split at hstep
      · cases hstep
        obtain ⟨hws, hlen, hrest⟩ := htext.scanf n
        refine (h.set (.running hrest ?_) p).emit _
        rw [← scanfResult_map cString]
        refine hfits.2 _ (by rw [List.length_map]; exact hlen) ?_
        intro w hw
        obtain ⟨w', hw', rfl⟩ := List.mem_map.mp hw
        exact Nat.le_trans (List.takeWhile_prefix _).length_le (hws w' hw')
      · cases hstep
  | fgets size next =>
      simp only [System.advance] at hstep
      split at hstep
      · cases hstep
        exact (h.set (.running htext hfits.1) p).emit _
      · cases hstep
        obtain ⟨hline, hrest⟩ := htext.fgets (size - 1)
        exact (h.set (.running hrest (hfits.2 _ hline)) p).emit _
  | call c next =>
      cases hstep
      exact (h.set (.running htext (hfits answer)) p).emit _
  | fork next =>
      simp only [System.advance] at hstep
      split at hstep
      · cases hstep
        exact ((h.set (.running htext (hfits answer)) p).set
          (.running htext (hfits 0)) (q.forks :: p)).emit _
      · cases hstep
  | wait next =>
      have hnext : Fits m next := hfits
      simp only [System.advance] at hstep
      split at hstep
      · split at hstep
        · cases hstep
          exact h.set (.running htext hnext) p
        · cases hstep
      · split at hstep
        next c hc =>
          split at hstep
          · cases hstep
            refine ((h.set (.running htext hnext) p).set
              (.stopped (h _ c hc).stdin ?_) (answer.toNat :: p)).emit _
            intro code hst
            cases hst
          · cases hstep
        next => cases hstep
  | execl path argv failed =>
      cases hstep
      refine (h.set ?_ p).emit _
      cases hload : P.load path argv with
      | some l => exact .running htext trivial
      | none =>
          refine .stopped htext ?_
          intro code hst
          cases hst
  | goto l =>
      cases hstep
      exact h.set (.running htext (hcode l)) p
  | exit status =>
      cases hstep
      refine h.set (.stopped htext ?_) p
      intro code hst
      cases hst
  | undefined => cases hstep

/-- A call that fails. -/
theorem System.Tidy.fail (h : s.Tidy m) (hp : s.process p = some q) {code : Code L C}
    (hrun : q.status = .running code) (hstep : s.fail p q code = some s') : s'.Tidy m := by
  have htext := (h p q hp).stdin
  have hfits := (h p q hp).code code hrun
  cases code with
  | fork next =>
      cases hstep
      exact (h.set (.running htext (hfits (-1))) p).emit _
  | execl path argv failed =>
      cases hstep
      have hfailed : Fits m failed := hfits
      exact (h.set (.running htext hfailed) p).emit _
  | _ => cases hstep

/-- **EVERY ACTION KEEPS THE PROCESSES TIDY.** -/
theorem System.Tidy.step (hcode : ∀ l, Fits m (P.code l)) (h : s.Tidy m) {a : Act}
    (ha : a.InputWithin m) (hstep : s.step P a = some s') : s'.Tidy m := by
  cases a with
  | run p answer =>
      simp only [System.step] at hstep
      split at hstep
      next q hp =>
        split at hstep
        next code hrun => exact h.advance hcode hp hrun hstep
        next => cases hstep
      next => cases hstep
  | fails p =>
      simp only [System.step] at hstep
      split at hstep
      next q hp =>
        split at hstep
        next code hrun => exact h.fail hp hrun hstep
        next => cases hstep
      next => cases hstep
  | ends p status =>
      simp only [System.step] at hstep
      split at hstep
      next q hp =>
        split at hstep
        next path argv hforeign =>
          cases hstep
          refine h.set (.stopped (h p q hp).stdin ?_) p
          intro code hst
          cases hst
        next => cases hstep
      next => cases hstep
  | input p text =>
      simp only [System.step] at hstep
      split at hstep
      next q hp =>
        cases hstep
        have htidy : ({ q with stdin := text } : Process L C).Tidy m :=
          ⟨ha, (h p q hp).code⟩
        exact h.set htidy p
      next => cases hstep

/-! ## §4. Runs. -/

theorem System.Tidy.start {stdin : List UInt8} (hstdin : WordsWithin m stdin) (l : L) :
    (System.start l stdin : System L C).Tidy m := by
  intro p q hp
  unfold System.start at hp
  dsimp only at hp
  split at hp
  · cases hp
    exact .running hstdin trivial
  · cases hp

/-- **CODE THAT PASSES THE CHECK OVERRUNS NO ARRAY**, in any order of steps
and whatever fails. -/
theorem not_overruns_of_fits (hcode : ∀ l, Fits m (P.code l)) {stdin : List UInt8}
    (hstdin : WordsWithin m stdin) {l : L}
    (h : ReachesBy (Act.InputWithin m) (System.step P) (System.start l stdin) s) :
    ¬ s.Overruns := by
  have htidy : s.Tidy m := by
    refine h.invariant (System.Tidy.start hstdin l) ?_
    intro s a s' hs ha hstep
    exact hs.step hcode ha hstep
  intro ⟨p, q, hp, hover⟩
  exact (htidy p q hp).not_overruns hover

end steps

end ConcurrencyCrypto.Library
