/-
  ConcurrencyCrypto.Shells.WordBuffers
  ────────────────────────────────────
  **THE WORDS AND THE ARRAYS OF `catalog_shell` AND `archive_shell`.**

  Every word goes into a `char[100]`: by `scanf` straight from the input, or
  by `sscanf` from a line of up to 199 bytes.  No conversion has a width, so
  nothing but the input keeps a word to 99 bytes.

    • `catalog_fits`, `archive_fits` — the two programs pass the check of
      `Library.BoundedWords` for words of at most 99 bytes;
    • `words_fit_buffers`            — so on such inputs they overrun nothing;
    • `words_overrun_buffers`        — a word of 100 bytes is too long, on
      each of the two ways.
-/
import ConcurrencyCrypto.Library.BoundedWords
import ConcurrencyCrypto.Shells.ChildDiscipline

namespace ConcurrencyCrypto.Shells

open ConcurrencyCrypto.Library

/-! ## §1. What the shells share. -/

section shared
variable {L C : Type} {m : Nat} {loop : L}

/-- A fork, if what the child does passes. -/
theorem forkChild_fits {child : Code L C} (hchild : Fits m child) :
    Fits m (forkChild loop child) := by
  intro pid
  show Fits m (afterFork loop child pid)
  unfold afterFork
  split
  · trivial
  · split
    · exact hchild
    · trivial

theorem execChild_fits (path : CString) (argv : List CString) (failure : CString) :
    Fits m (execChild path argv failure : Code L C) := trivial

/-- The parameters that a branch of `n` of them has when `scanf` returned `n`. -/
theorem length_of_scanfResult {n : Nat} (hn : 0 < n) {ws : List CString}
    (h : ¬ scanfResult ws ≠ n) : ws.length = n :=
  (scanfResult_eq_iff hn).mp (not_not.mp h)

end shared

/-! ## §2. The catalog shell. -/

/-- The parameters come from the rest of the line. -/
theorem lineParams_fits {n : Nat} (hn : 0 < n) {act : List CString → Code Unit Empty}
    (hact : ∀ ws, ws.length = n → Fits 99 (act ws)) : Fits 99 (lineParams n act) := by
  refine ⟨trivial, ?_⟩
  intro line hline
  show Fits 99 (sscanf 100 n line (afterSscanf n act))
  refine Fits.sscanf (by decide) hline ?_
  intro ws _ _
  unfold afterSscanf
  split
  · trivial
  next hall => exact hact ws (length_of_scanfResult hn hall)

theorem findAct_fits (ws : List CString) (h : ws.length = 2) : Fits 99 (findAct ws) := by
  obtain ⟨word, fileName, rfl⟩ := List.length_eq_two.mp h
  exact forkChild_fits (execChild_fits _ _ _)

theorem lsAct_fits (ws : List CString) (h : ws.length = 1) : Fits 99 (lsAct ws) := by
  obtain ⟨arg, rfl⟩ := List.length_eq_one_iff.mp h
  show Fits 99 (if arg ≠ str "-l" then _ else _)
  split
  · trivial
  · exact forkChild_fits (execChild_fits _ _ _)

theorem newcatAct_fits (ws : List CString) (h : ws.length = 1) : Fits 99 (newcatAct ws) := by
  obtain ⟨fileName, rfl⟩ := List.length_eq_one_iff.mp h
  exact forkChild_fits (execChild_fits _ _ _)

theorem runAct_fits (ws : List CString) (h : ws.length = 2) : Fits 99 (runAct ws) := by
  obtain ⟨prog, arg, rfl⟩ := List.length_eq_two.mp h
  exact forkChild_fits (execChild_fits _ _ _)

theorem catalogCommand_fits (command : CString) : Fits 99 (catalogCommand command) := by
  unfold catalogCommand
  split
  · trivial
  · split
    · exact lineParams_fits (by decide) findAct_fits
    · split
      · exact lineParams_fits (by decide) lsAct_fits
      · split
        · exact lineParams_fits (by decide) newcatAct_fits
        · split
          · exact lineParams_fits (by decide) runAct_fits
          · trivial

theorem catalog_fits (l : Unit) : Fits 99 (catalog_shell l) := by
  refine ⟨by decide, ?_⟩
  intro ws _ _
  unfold catalogTurn
  split
  · trivial
  · split
    · exact catalogCommand_fits _
    · trivial

/-! ## §3. The archive shell. -/

/-- The parameters come straight from the input. -/
theorem scanParams_fits {n : Nat} (hn : 0 < n) {act : List CString → ArchiveCode}
    (hact : ∀ ws, ws.length = n → Fits 99 (act ws)) : Fits 99 (scanParams n act) := by
  refine ⟨by decide, ?_⟩
  intro ws _ _
  show Fits 99 (if scanfResult ws = EOF then _ else _)
  split
  · trivial
  · split
    · trivial
    next hall => exact hact ws (length_of_scanfResult hn hall)

theorem copyBody_fits (src_fd dst_fd : Int) : Fits 99 (copyBody src_fd dst_fd) := by
  intro bytesRead
  show Fits 99 (if bytesRead > 0 then _ else _)
  split
  · intro written
    show Fits 99 (if written ≠ bytesRead then _ else _)
    split <;> trivial
  · split
    · trivial
    · exact fun _ _ => trivial

theorem mergeAct_fits (ws : List CString) (h : ws.length = 2) : Fits 99 (mergeAct ws) := by
  obtain ⟨src, dst, rfl⟩ := List.length_eq_two.mp h
  refine forkChild_fits ?_
  intro src_fd dst_fd
  show Fits 99 (if src_fd < 0 then _ else _)
  split
  · trivial
  · split
    · exact fun _ => trivial
    · trivial

theorem countAct_fits (ws : List CString) (h : ws.length = 1) : Fits 99 (countAct ws) := by
  obtain ⟨fileName, rfl⟩ := List.length_eq_one_iff.mp h
  exact forkChild_fits (execChild_fits _ _ _)

theorem removeAct_fits (ws : List CString) (h : ws.length = 1) : Fits 99 (removeAct ws) := by
  obtain ⟨fileName, rfl⟩ := List.length_eq_one_iff.mp h
  refine forkChild_fits ?_
  intro r
  show Fits 99 (if r < 0 then _ else _)
  split <;> trivial

theorem protectAct_fits (ws : List CString) (h : ws.length = 2) : Fits 99 (protectAct ws) := by
  obtain ⟨mode, fileName, rfl⟩ := List.length_eq_two.mp h
  show Fits 99 (if _ ∨ _ then _ else _)
  split
  · trivial
  · refine forkChild_fits ?_
    intro r
    show Fits 99 (if r < 0 then _ else _)
    split <;> trivial

theorem archiveCommand_fits (command : CString) : Fits 99 (archiveCommand command) := by
  unfold archiveCommand
  split
  · trivial
  · split
    · exact scanParams_fits (by decide) mergeAct_fits
    · split
      · exact scanParams_fits (by decide) countAct_fits
      · split
        · exact scanParams_fits (by decide) removeAct_fits
        · split
          · exact scanParams_fits (by decide) protectAct_fits
          · trivial

theorem archive_fits (l : ArchiveLabel) : Fits 99 (archiveProcess l) := by
  cases l with
  | copy src_fd dst_fd => exact copyBody_fits src_fd dst_fd
  | prompt =>
      refine ⟨by decide, ?_⟩
      intro ws _ _
      show Fits 99 (if scanfResult ws = EOF then _ else _)
      split
      · trivial
      · split
        · exact archiveCommand_fits _
        · trivial

/-! ## §4. All runs. -/

/-- The two shells that read words. -/
def wordShells : List ShellProgram := [catalogProgram, archiveProgram]

/-- **EVERY WORD FITS ITS ARRAY** in every run whose input has no word of more
than 99 bytes, in any order of steps and whatever fails. -/
theorem words_fit_buffers (shell : ShellProgram) (hshell : shell ∈ wordShells)
    (stdin : List UInt8) (hstdin : WordsWithin 99 stdin) (s : System shell.L shell.C)
    (h : ReachesBy (Act.InputWithin 99) (System.step shell.project)
      (System.start shell.main stdin) s) : ¬ s.Overruns := by
  unfold wordShells at hshell
  simp only [List.mem_cons, List.not_mem_nil, or_false] at hshell
  rcases hshell with rfl | rfl
  · exact not_overruns_of_fits (P := catalogProgram.project) catalog_fits hstdin h
  · exact not_overruns_of_fits (P := archiveProgram.project) archive_fits hstdin h

/-- The first process is about to store a word that does not fit, or has done so. -/
def overrunsFirst {L C : Type} (s : System L C) : Bool :=
  match s.process [] with
  | some ⟨.running .undefined, _, _⟩ => true
  | some ⟨.running (.scanf capacity n _), stdin, _⟩ =>
      (scanf n stdin).1.any fun w => capacity ≤ w.length
  | _ => false

theorem overruns_of_overrunsFirst {L C : Type} {s : System L C} (h : overrunsFirst s = true) :
    s.Overruns := by
  unfold overrunsFirst at h
  split at h
  next stdin forks hp => exact ⟨[], _, hp, Or.inl rfl⟩
  next capacity n next stdin forks hp =>
    obtain ⟨w, hw, hlong⟩ := List.any_eq_true.mp h
    exact ⟨[], _, hp, Or.inr ⟨capacity, n, next, rfl, w, hw, of_decide_eq_true hlong⟩⟩
  next => cases h

/-- `ls -l` in the catalog shell, up to its second prompt. -/
theorem words_fit_buffers_ls :
    ∃ s : System Unit Empty,
      ReachesBy (Act.InputWithin 99) (System.step catalogProgram.project)
        (System.start () (str "ls -l\n")) s ∧ ¬ s.Overruns ∧
        printsNext catalogProgram.prompt (s.process []) = true := by
  have hrun : ∃ s, runActions (System.step catalogProgram.project)
      (System.start () (str "ls -l\n"))
        [.run [] 0, .run [] 0, .run [] 0, .run [] 0, .run [] 7, .run [0] 0, .ends [0] 0,
          .run [] 0, .run [] 0] = some s ∧
      printsNext catalogProgram.prompt (s.process []) = true :=
    Option.map_eq_some_iff.mp (by decide +kernel)
  obtain ⟨s, hrun, hprints⟩ := hrun
  have hreach : ReachesBy (Act.InputWithin 99) (System.step catalogProgram.project)
      (System.start () (str "ls -l\n")) s := by
    refine reachesBy_of_run _ ?_ hrun
    intro a ha
    simp only [List.mem_cons, List.not_mem_nil, or_false] at ha
    rcases ha with rfl | rfl | rfl | rfl | rfl | rfl | rfl | rfl | rfl <;> trivial
  have hwords : WordsWithin 99 (str "ls -l\n") := by
    unfold WordsWithin
    decide +kernel
  exact ⟨s, hreach, words_fit_buffers catalogProgram List.mem_cons_self _ hwords s hreach, hprints⟩

/-- A run that ends where the first process overruns an array. -/
theorem exists_overruns {L C : Type} {P : Project L C} {l : L} {stdin : List UInt8}
    (acts : List Act)
    (h : (runActions (System.step P) (System.start l stdin) acts).map overrunsFirst = some true) :
    ∃ s, Reaches (System.step P) (System.start l stdin) s ∧ s.Overruns := by
  obtain ⟨s, hreach, hs⟩ := exists_reaches acts overrunsFirst h
  exact ⟨s, hreach, overruns_of_overrunsFirst hs⟩

/-- **A WORD OF 100 BYTES IS TOO LONG** for the command word of either shell,
and one of 120 for a parameter on the line of `find`. -/
theorem words_overrun_buffers :
    (∃ s, Reaches (System.step catalogProgram.project)
        (System.start () (List.replicate 100 120)) s ∧ s.Overruns) ∧
    (∃ s, Reaches (System.step archiveProgram.project)
        (System.start ArchiveLabel.prompt (List.replicate 100 120)) s ∧ s.Overruns) ∧
    (∃ s, Reaches (System.step catalogProgram.project)
        (System.start () (str "find " ++ List.replicate 120 120)) s ∧ s.Overruns) := by
  refine ⟨?_, ?_, ?_⟩
  · exact exists_overruns [.run [] 0, .run [] 0] (by decide +kernel)
  · exact exists_overruns [.run [] 0, .run [] 0] (by decide +kernel)
  · exact exists_overruns [.run [] 0, .run [] 0, .run [] 0, .run [] 0] (by decide +kernel)

end ConcurrencyCrypto.Shells
