/-
  ConcurrencyCrypto.Shells.ChildDiscipline
  ────────────────────────────────────────
  **NO SHELL LEAVES A CHILD BEHIND**: whenever one of the four shells prints
  its prompt, all its children have been waited for, and no child of it ever
  enters its loop.

  Each shell is checked once, in its code: `Disciplined` for the loop, with
  no child left at its head, and `ChildSafe` for what runs in children.
-/
import ConcurrencyCrypto.Library.Sequential
import ConcurrencyCrypto.Shells.ArchiveProcess
import ConcurrencyCrypto.Shells.CatalogShell
import ConcurrencyCrypto.Shells.LineShells

namespace ConcurrencyCrypto.Shells

open ConcurrencyCrypto.Library

/-! ## §1. The four shells. -/

def LineShell.program (S : LineShell) : ShellProgram where
  L := Label
  C := Empty
  code := S.code
  main := .main
  own := fun _ => True
  prompt := S.prompt

def catalogProgram : ShellProgram where
  L := Unit
  C := Empty
  code := catalog_shell
  main := ()
  own := fun _ => True
  prompt := str "Catalog$** "

def archivePrompt : CString := str "Archive$** "

/-- The other loop is that of the child of `merge`. -/
def archiveOwn (l : ArchiveLabel) : Prop := l = .prompt

theorem archiveOwn_prompt : archiveOwn .prompt := rfl

def archiveProgram : ShellProgram where
  L := ArchiveLabel
  C := ArchiveCall
  code := archiveProcess
  main := .prompt
  own := archiveOwn
  prompt := archivePrompt

def shellPrograms : List ShellProgram :=
  [libshell.program, reader_shell.program, catalogProgram, archiveProgram]

/-- The checks of a shell. -/
structure ShellProgram.Checked (shell : ShellProgram) : Prop where
  main : shell.own shell.main
  loop : ∀ l, shell.own l → Disciplined shell.prompt shell.own (shell.code l) 0
  children : ∀ l, ¬ shell.own l → ChildSafe shell.prompt shell.own (shell.code l)

/-! ## §2. The line shells. -/

theorem printAll_disciplined {L C : Type} {prompt : CString} {own : L → Prop}
    (texts : List CString) {next : Code L C} (hnext : Disciplined prompt own next 0) :
    Disciplined prompt own (printAll texts next) 0 := by
  induction texts with
  | nil => exact hnext
  | cons text texts ih => exact ⟨fun _ => rfl, ih⟩

/-- What a child prints on its way is not the prompt. -/
def LineShell.EnteringDiffers (S : LineShell) : Prop :=
  ∀ c ∈ S.commands, ∀ text ∈ c.entering, text ≠ S.prompt

theorem select_disciplined {prompt : CString} (cs : List Command)
    (h : ∀ c ∈ cs, ∀ text ∈ c.entering, text ≠ prompt) (command : CString) :
    Disciplined prompt (fun _ => True) (LineShell.select cs command) 0 := by
  induction cs with
  | nil => exact ⟨fun _ => rfl, afterChain_disciplined trivial⟩
  | cons c cs ih =>
      unfold LineShell.select
      by_cases hword : command = c.word
      · rw [if_pos hword]
        exact forkChild_disciplined trivial
          (printAll_safe (h c List.mem_cons_self) (execChild_safe _ _ _))
      · rw [if_neg hword]
        exact ih fun c' hc' => h c' (List.mem_cons_of_mem c hc')

theorem LineShell.dispatch_disciplined (S : LineShell) (h : S.EnteringDiffers)
    (buffer : List UInt8) : Disciplined S.prompt (fun _ => True) (S.dispatch buffer) 0 := by
  unfold LineShell.dispatch
  extract_lets command
  by_cases hbye : command = S.bye
  · rw [if_pos hbye]
    exact ⟨fun _ => rfl, trivial⟩
  · rw [if_neg hbye]
    exact select_disciplined S.commands h command

theorem LineShell.checked (S : LineShell) (h : S.EnteringDiffers) : S.program.Checked := by
  refine ⟨trivial, ?_, fun l hl => absurd trivial hl⟩
  intro l _
  cases l with
  | main => exact printAll_disciplined S.greeting ⟨trivial, rfl⟩
  | prompt =>
      refine ⟨fun _ => rfl, ?_⟩
      intro got
      cases got with
      | none => trivial
      | some buffer => exact S.dispatch_disciplined h buffer

/-! ## §3. The catalog shell. -/

theorem lineParams_disciplined {prompt : CString} {n : Nat}
    {act : List CString → Code Unit Empty}
    (hact : ∀ ws, Disciplined prompt (fun _ => True) (act ws) 0) :
    Disciplined prompt (fun _ => True) (lineParams n act) 0 := by
  intro got
  cases got with
  | none => trivial
  | some line =>
      show Disciplined prompt _ (sscanf 100 n line (afterSscanf n act)) 0
      unfold sscanf
      extract_lets ws
      split
      · unfold afterSscanf
        split
        · exact ⟨fun _ => rfl, trivial, rfl⟩
        · exact hact ws
      · trivial

theorem catalogCommand_disciplined (command : CString) :
    Disciplined catalogProgram.prompt (fun _ => True) (catalogCommand command) 0 := by
  have hexec : ∀ path argv failure, Disciplined catalogProgram.prompt (fun _ : Unit => True)
      (forkChild () (execChild path argv failure) : Code Unit Empty) 0 := by
    intro path argv failure
    exact forkChild_disciplined trivial (execChild_safe path argv failure)
  have hfind : ∀ ws, Disciplined catalogProgram.prompt (fun _ => True) (findAct ws) 0 := by
    intro ws
    rcases ws with _ | ⟨word, _ | ⟨fileName, more⟩⟩
    · trivial
    · trivial
    · exact hexec _ _ _
  have hls : ∀ ws, Disciplined catalogProgram.prompt (fun _ => True) (lsAct ws) 0 := by
    intro ws
    cases ws with
    | nil => trivial
    | cons arg more =>
        show Disciplined catalogProgram.prompt _ (if arg ≠ str "-l" then _ else _) 0
        split
        · exact ⟨fun _ => rfl, trivial, rfl⟩
        · exact hexec _ _ _
  have hnewcat : ∀ ws, Disciplined catalogProgram.prompt (fun _ => True) (newcatAct ws) 0 := by
    intro ws
    cases ws with
    | nil => trivial
    | cons fileName more => exact hexec _ _ _
  have hrun : ∀ ws, Disciplined catalogProgram.prompt (fun _ => True) (runAct ws) 0 := by
    intro ws
    rcases ws with _ | ⟨prog, _ | ⟨arg, more⟩⟩
    · trivial
    · trivial
    · exact hexec _ _ _
  unfold catalogCommand
  split
  · exact ⟨fun _ => rfl, trivial⟩
  · split
    · exact lineParams_disciplined hfind
    · split
      · exact lineParams_disciplined hls
      · split
        · exact lineParams_disciplined hnewcat
        · split
          · exact lineParams_disciplined hrun
          · exact ⟨fun _ => rfl, afterChain_disciplined trivial⟩

theorem catalog_checked : catalogProgram.Checked := by
  refine ⟨trivial, ?_, fun l hl => absurd trivial hl⟩
  intro l _
  refine ⟨fun _ => rfl, ?_⟩
  intro r ws
  show Disciplined catalogProgram.prompt _ (catalogTurn r ws) 0
  unfold catalogTurn
  split
  · trivial
  · split
    · exact catalogCommand_disciplined _
    · exact ⟨fun _ => rfl, trivial⟩

/-! ## §4. The archive shell. -/

/-- The loop of the child of `merge` stays in the child. -/
theorem copyBody_safe (src_fd dst_fd : Int) :
    ChildSafe archivePrompt archiveOwn (copyBody src_fd dst_fd) := by
  intro bytesRead
  show ChildSafe archivePrompt archiveOwn (if bytesRead > 0 then _ else _)
  split
  · intro written
    show ChildSafe archivePrompt archiveOwn (if written ≠ bytesRead then _ else _)
    split
    · trivial
    · intro h
      cases h
  · split
    · trivial
    · exact fun _ _ => trivial

theorem mergeProcess_safe (src dst : CString) :
    ChildSafe archivePrompt archiveOwn (mergeProcess src dst) := by
  intro src_fd dst_fd
  show ChildSafe archivePrompt archiveOwn (if src_fd < 0 then _ else _)
  split
  · trivial
  · split
    · exact fun _ => trivial
    · intro h
      cases h

theorem removeProcess_safe (fileName : CString) :
    ChildSafe archivePrompt archiveOwn (removeProcess fileName) := by
  intro r
  show ChildSafe archivePrompt archiveOwn (if r < 0 then _ else _)
  split
  · trivial
  · trivial

theorem protectProcess_safe (fileName : CString) (modeInt : Int) :
    ChildSafe archivePrompt archiveOwn (protectProcess fileName modeInt) := by
  intro r
  show ChildSafe archivePrompt archiveOwn (if r < 0 then _ else _)
  split
  · trivial
  · exact ⟨by decide, trivial⟩

theorem scanParams_disciplined {n : Nat} {act : List CString → ArchiveCode}
    (hact : ∀ ws, Disciplined archivePrompt archiveOwn (act ws) 0) :
    Disciplined archivePrompt archiveOwn (scanParams n act) 0 := by
  intro r ws
  show Disciplined archivePrompt archiveOwn (if r = EOF then _ else _) 0
  split
  · trivial
  · split
    · exact ⟨fun _ => rfl, rfl, rfl⟩
    · exact hact ws

theorem archiveCommand_disciplined (command : CString) :
    Disciplined archivePrompt archiveOwn (archiveCommand command) 0 := by
  have hmerge : ∀ ws, Disciplined archivePrompt archiveOwn (mergeAct ws) 0 := by
    intro ws
    rcases ws with _ | ⟨src, _ | ⟨dst, more⟩⟩
    · trivial
    · trivial
    · exact forkChild_disciplined archiveOwn_prompt (mergeProcess_safe src dst)
  have hcount : ∀ ws, Disciplined archivePrompt archiveOwn (countAct ws) 0 := by
    intro ws
    cases ws with
    | nil => trivial
    | cons fileName more => exact forkChild_disciplined archiveOwn_prompt (execChild_safe _ _ _)
  have hremove : ∀ ws, Disciplined archivePrompt archiveOwn (removeAct ws) 0 := by
    intro ws
    cases ws with
    | nil => trivial
    | cons fileName more =>
      exact forkChild_disciplined archiveOwn_prompt (removeProcess_safe fileName)
  have hprotect : ∀ ws, Disciplined archivePrompt archiveOwn (protectAct ws) 0 := by
    intro ws
    rcases ws with _ | ⟨mode, _ | ⟨fileName, more⟩⟩
    · trivial
    · trivial
    · show Disciplined archivePrompt archiveOwn (if _ ∨ _ then _ else _) 0
      split
      · exact ⟨fun _ => rfl, rfl, rfl⟩
      · exact forkChild_disciplined archiveOwn_prompt (protectProcess_safe fileName _)
  unfold archiveCommand
  split
  · exact ⟨fun _ => rfl, trivial⟩
  · split
    · exact scanParams_disciplined hmerge
    · split
      · exact scanParams_disciplined hcount
      · split
        · exact scanParams_disciplined hremove
        · split
          · exact scanParams_disciplined hprotect
          · exact ⟨fun _ => rfl, afterChain_disciplined archiveOwn_prompt⟩

theorem archiveBody_disciplined : Disciplined archivePrompt archiveOwn archiveBody 0 := by
  refine ⟨fun _ => rfl, ?_⟩
  intro r ws
  show Disciplined archivePrompt archiveOwn (if r = EOF then _ else _) 0
  split
  · trivial
  · split
    · exact archiveCommand_disciplined _
    · exact ⟨fun _ => rfl, rfl, rfl⟩

theorem archive_checked : archiveProgram.Checked := by
  refine ⟨rfl, ?_, ?_⟩
  · intro l hl
    cases hl
    exact archiveBody_disciplined
  · intro l hl
    cases l with
    | prompt => exact absurd rfl hl
    | copy src_fd dst_fd => exact copyBody_safe src_fd dst_fd

/-! ## §5. All four. -/

theorem shells_checked : ∀ shell ∈ shellPrograms, shell.Checked := by
  intro shell hshell
  simp only [shellPrograms, List.mem_cons, List.not_mem_nil, or_false] at hshell
  rcases hshell with rfl | rfl | rfl | rfl
  · exact libshell.checked (by unfold LineShell.EnteringDiffers; decide)
  · exact reader_shell.checked (by unfold LineShell.EnteringDiffers; decide)
  · exact catalog_checked
  · exact archive_checked

/-- **NO SHELL LEAVES A CHILD BEHIND**, on any input, in any order of steps
and whatever fails. -/
theorem shells_reap_children (shell : ShellProgram) (hshell : shell ∈ shellPrograms)
    (stdin : List UInt8) (s : System shell.L shell.C)
    (h : Reaches (System.step shell.project) (System.start shell.main stdin) s) :
    Clean shell.prompt shell.own s.process := by
  have hchecked := shells_checked shell hshell
  exact clean_of_disciplined (fun _ _ => rfl) hchecked.loop hchecked.children hchecked.main h

/-- The process is about to print `text`. -/
def printsNext {L C : Type} (text : CString) (q : Option (Process L C)) : Bool :=
  match q with
  | some ⟨.running (.printf text' _), _, _⟩ => text' = text
  | _ => false

/-- A run of `libshell` with the line `reader` up to the second prompt: the
sub-shell has ended and has been waited for. -/
theorem shells_reap_children_reader :
    ∃ s : System Label Empty,
      Reaches (System.step libshell.program.project) (System.start .main (str "reader\n")) s ∧
        Clean libshell.prompt (fun _ => True) s.process ∧
        printsNext libshell.prompt (s.process []) = true ∧ (s.process [0]).isSome = true := by
  have hrun : ∃ s, Reaches (System.step libshell.program.project)
      (System.start .main (str "reader\n")) s ∧
        (printsNext libshell.prompt (s.process []), (s.process [0]).isSome) = (true, true) :=
    exists_reaches
      [.run [] 0, .run [] 0, .run [] 0, .run [] 0, .run [] 0, .run [] 0, .run [] 7, .run [0] 0,
        .run [0] 0, .ends [0] 0, .run [] 0, .run [] 0]
      (fun s : System Label Empty =>
        (printsNext libshell.prompt (s.process []), (s.process [0]).isSome))
      (by decide +kernel)
  obtain ⟨s, hreach, hs⟩ := hrun
  obtain ⟨hprints, hchild⟩ := Prod.mk.inj hs
  exact ⟨s, hreach, shells_reap_children libshell.program List.mem_cons_self _ s hreach, hprints,
    hchild⟩

/-! ## §6. A shell by itself, and among all processes. -/

/-- **A SHELL RUN BY ITSELF IS A RUN OF ALL PROCESSES** with the same trace,
which ends in the same way and leaves no child behind. -/
theorem shell_alone_reaches (shell : ShellProgram) (hshell : shell ∈ shellPrograms)
    {K : Oracle shell.C} {fuel : Nat} {stdin : List UInt8} {stop : Stop shell.L}
    {s : Console shell.C}
    (h : execute K shell.code fuel shell.main (Console.start stdin) = some (stop, s))
    (hstop : stop ≠ .undefined) :
    ∃ σ : System shell.L shell.C,
      Reaches (System.step shell.project) (System.start shell.main stdin) σ ∧
        σ.events = s.events ∧ Clean shell.prompt shell.own σ.process ∧
        ∃ q, σ.process [] = some q ∧ stop.Leaves q.status := by
  obtain ⟨σ, hreach, hevents, q, hq, hleaves, -⟩ :=
    @execute_reaches _ _ shell.project K s stop (fun _ _ => rfl) fuel shell.main stdin h hstop
  have hchecked := shells_checked shell hshell
  have hclean : Clean shell.prompt shell.own σ.process :=
    clean_of_disciplined (fun _ _ => rfl) hchecked.loop hchecked.children hchecked.main hreach
  exact ⟨σ, hreach, hevents, hclean, q, hq, hleaves⟩

end ConcurrencyCrypto.Shells
