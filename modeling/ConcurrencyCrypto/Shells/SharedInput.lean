/-
  ConcurrencyCrypto.Shells.SharedInput
  ────────────────────────────────────
  **`libshell`, `reader_shell` AND `catalog_shell` ON THE STREAMS THAT THEY
  SHARE WITH THEIR CHILDREN.**

  A child that returns puts the offset of a regular file back to where the
  shell has read to, so that what the shell has in its buffer comes twice; a
  program that is executed may read the lines itself; and a buffer that is
  copied comes out twice.  Where none of this is the case the shells read
  their input as if it were theirs alone:

    • `runsOn_iff_alone`         — for all three,
    • `one_line_one_command_iff` — when a line is a command,
    • `one_answer_per_line_iff`  — when a line has one answer.
-/
import ConcurrencyCrypto.Library.StreamRuns
import ConcurrencyCrypto.Shells.CatalogLines
import ConcurrencyCrypto.Shells.ChildDiscipline
import ConcurrencyCrypto.Shells.LineCommands

namespace ConcurrencyCrypto.Shells

open ConcurrencyCrypto.Library

/-! ## §1. The children of the shells read nothing. -/

section silent
variable {L C : Type}

theorem printAll_silent (texts : List CString) {next : Code L C} (hnext : next.Silent) :
    (printAll texts next).Silent := by
  induction texts with
  | nil => exact hnext
  | cons text texts ih => exact ih

theorem printAll_childrenSilent (texts : List CString) {next : Code L C}
    (hnext : next.ChildrenSilent) : (printAll texts next).ChildrenSilent := by
  induction texts with
  | nil => exact hnext
  | cons text texts ih => exact ih

theorem execChild_silent (path : CString) (argv : List CString) (failure : CString) :
    (execChild path argv failure : Code L C).Silent := trivial

/-- Behind its fork the shell waits, or says that it has failed. -/
theorem forkChild_childrenSilent (loop : L) {child : Code L C} (hchild : child.Silent) :
    (forkChild loop child).ChildrenSilent := by
  refine ⟨?_, ?_⟩
  · rw [afterFork_child]
    exact hchild
  · intro r hr
    unfold afterFork
    split
    · trivial
    · trivial

end silent

theorem select_childrenSilent (cs : List Command) (command : CString) :
    (LineShell.select cs command).ChildrenSilent := by
  induction cs with
  | nil => trivial
  | cons c cs ih =>
      unfold LineShell.select
      split
      · exact forkChild_childrenSilent _ (printAll_silent _ (execChild_silent _ _ _))
      · exact ih

theorem LineShell.childrenSilent (S : LineShell) (l : Label) : (S.code l).ChildrenSilent := by
  cases l with
  | main => exact printAll_childrenSilent S.greeting trivial
  | prompt =>
      intro got
      cases got with
      | none => trivial
      | some buffer =>
          show (S.dispatch buffer).ChildrenSilent
          unfold LineShell.dispatch
          extract_lets command
          split
          · trivial
          · exact select_childrenSilent _ _

theorem sscanf_childrenSilent {capacity n : Nat} {line : List UInt8}
    {next : Int → List CString → Code Unit Empty} (h : ∀ r ws, (next r ws).ChildrenSilent) :
    (sscanf capacity n line next).ChildrenSilent := by
  unfold sscanf
  extract_lets ws
  split
  · exact h _ _
  · trivial

theorem lineParams_childrenSilent (n : Nat) {act : List CString → Code Unit Empty}
    (h : ∀ ws, (act ws).ChildrenSilent) : (lineParams n act).ChildrenSilent := by
  intro got
  cases got with
  | none => trivial
  | some line =>
      refine sscanf_childrenSilent fun r ws => ?_
      unfold afterSscanf
      split
      · trivial
      · exact h ws

theorem catalogCommand_childrenSilent (command : CString) :
    (catalogCommand command).ChildrenSilent := by
  have hexec : ∀ path argv failure, (forkChild () (execChild path argv failure) :
      Code Unit Empty).ChildrenSilent :=
    fun path argv failure => forkChild_childrenSilent () (execChild_silent path argv failure)
  have hfind : ∀ ws, (findAct ws).ChildrenSilent := by
    rintro (_ | ⟨word, _ | ⟨fileName, ws⟩⟩)
    · trivial
    · trivial
    · exact hexec _ _ _
  have hls : ∀ ws, (lsAct ws).ChildrenSilent := by
    rintro (_ | ⟨arg, ws⟩)
    · trivial
    · show (if arg ≠ str "-l" then _ else _ : Code Unit Empty).ChildrenSilent
      split
      · trivial
      · exact hexec _ _ _
  have hnewcat : ∀ ws, (newcatAct ws).ChildrenSilent := by
    rintro (_ | ⟨fileName, ws⟩)
    · trivial
    · exact hexec _ _ _
  have hrun : ∀ ws, (runAct ws).ChildrenSilent := by
    rintro (_ | ⟨prog, _ | ⟨arg, ws⟩⟩)
    · trivial
    · trivial
    · exact hexec _ _ _
  unfold catalogCommand
  split
  · trivial
  · split
    · exact lineParams_childrenSilent 2 hfind
    · split
      · exact lineParams_childrenSilent 1 hls
      · split
        · exact lineParams_childrenSilent 1 hnewcat
        · split
          · exact lineParams_childrenSilent 2 hrun
          · trivial

theorem catalog_childrenSilent (l : Unit) : (catalog_shell l).ChildrenSilent := by
  intro r ws
  unfold catalogTurn
  split
  · trivial
  · split
    · exact catalogCommand_childrenSilent _
    · trivial

/-! ## §2. Shells on their streams. -/

namespace ShellProgram

/-- In the surroundings `E` the shell comes to its end with such a trace, and
of the lines it has printed every one has been written, once. -/
def RunsOn (shell : ShellProgram) (E : Surroundings) (K : Oracle shell.C) (stdin : List UInt8)
    (trace : List (Effect shell.C) → Prop) : Prop :=
  ∃ fuel s, executeOn E K shell.code fuel shell.main (Streams.start E stdin)
      = some (.exited 0, s) ∧
    trace s.events ∧ linesOf s.stdout.written = linesOf (printed s.events)

/-- Among all processes there is a run of the shell with such a trace, after
which no child is left. -/
def RunsAmongAll (shell : ShellProgram) (stdin : List UInt8)
    (trace : List (Effect shell.C) → Prop) : Prop :=
  ∃ σ : System shell.L shell.C,
    Reaches (System.step shell.project) (System.start shell.main stdin) σ ∧ trace σ.events ∧
      Clean shell.prompt shell.own σ.process

variable {shell : ShellProgram} {E : Surroundings} {K : Oracle shell.C} {stdin : List UInt8}
  {trace : List (Effect shell.C) → Prop}

variable (shell) in
/-- **UNDISTURBED, A SHELL RUNS AS ON AN INPUT OF ITS OWN.** -/
theorem runsOn_iff_alone (hE : E.Undisturbed) (hcode : ∀ l, (shell.code l).ChildrenSilent) :
    shell.RunsOn E K stdin trace ↔
      ∃ fuel c, execute K shell.code fuel shell.main (Console.start stdin)
          = some (.exited 0, c) ∧ trace c.events :=
  executeOn_iff_execute hE hcode shell.main stdin (.exited 0) trace

/-- What it does then is a run of all processes. -/
theorem RunsOn.among_all (h : shell.RunsOn E K stdin trace) (hE : E.Undisturbed)
    (hcode : ∀ l, (shell.code l).ChildrenSilent) (hshell : shell ∈ shellPrograms) :
    shell.RunsAmongAll stdin trace := by
  -- from the streams to an input of its own, and from there to all processes
  obtain ⟨fuel, c, hrun, htrace⟩ := (shell.runsOn_iff_alone hE hcode).mp h
  obtain ⟨σ, hreach, hevents, hclean, -⟩ :=
    shell_alone_reaches shell hshell hrun (by intro h; cases h)
  exact ⟨σ, hreach, hevents ▸ htrace, hclean⟩

end ShellProgram

/-! ## §3. The shells that read whole lines. -/

namespace LineShell

/-- The shell treats every line of the input as one command. -/
def OneLineOneCommand (S : LineShell) (E : Surroundings) (stdin : List UInt8) : Prop :=
  ∀ K : Oracle Empty, S.program.RunsOn E K stdin
    (· = S.linesTrace K (S.greeting.map .printed) (rawLines stdin))

theorem oneLineOneCommand_iff (S : LineShell) {E : Surroundings} (hE : E.Undisturbed)
    (stdin : List UInt8) :
    S.OneLineOneCommand E stdin ↔ ∀ l ∈ S.linesRead (rawLines stdin), S.Fits l := by
  rw [← oneCommandAlone_iff]
  exact forall_congr' fun _ => S.program.runsOn_iff_alone hE S.childrenSilent

end LineShell

/-- **`libshell` AND `reader_shell` TREAT ONE LINE AS ONE COMMAND EXACTLY**
when no line up to the end of the shell has more than 99 bytes, its newline
included, and none has a NUL byte behind one of the shell's words.  They are
runs of all processes then. -/
theorem one_line_one_command_iff (S : LineShell) (hS : S ∈ [libshell, reader_shell])
    (E : Surroundings) (hE : E.Undisturbed) (stdin : List UInt8) :
    (S.OneLineOneCommand E stdin ↔ ∀ l ∈ S.linesRead (rawLines stdin), S.Fits l) ∧
      (S.OneLineOneCommand E stdin → ∀ K : Oracle Empty, S.program.RunsAmongAll stdin
        (· = S.linesTrace K (S.greeting.map .printed) (rawLines stdin))) := by
  refine ⟨S.oneLineOneCommand_iff hE stdin, fun h K => (h K).among_all hE S.childrenSilent ?_⟩
  rcases List.mem_cons.mp hS with rfl | hS
  · exact List.mem_cons_self
  · rw [List.mem_singleton.mp hS]
    exact List.mem_cons_of_mem _ List.mem_cons_self

/-- A line that is no command, and one that is. -/
theorem one_line_one_command_iff_date :
    reader_shell.OneLineOneCommand Surroundings.terminal (str "foo\ndate\nEsc\n") :=
  (one_line_one_command_iff reader_shell (by simp) Surroundings.terminal
    Surroundings.terminal_undisturbed (str "foo\ndate\nEsc\n")).1.mpr (by decide +kernel)

/-- The condition on the surroundings matters: if the input is a regular file
and `execl` fails, the child puts the offset back, and the shell answers the
line behind its command twice. -/
example : (executeOn Surroundings.regularFile
      ⟨fun _ => false, fun _ => true, fun _ c => c.elim⟩ libshell.code 6 .main
      (Streams.start Surroundings.regularFile (str "reader\nfoo\n"))).map
        (fun r => r.2.events.countP (· == .printed (str "Not Supported\n"))) = some 2 := by
  decide +kernel

/-- **THE REST OF A LONG LINE IS A COMMAND**: behind 99 bytes, `exit` ends
the shell. -/
theorem long_line_exits :
    ¬ libshell.OneLineOneCommand Surroundings.terminal
      (List.replicate 99 120 ++ str "exit\n") := by
  rw [libshell.oneLineOneCommand_iff Surroundings.terminal_undisturbed]
  decide +kernel

/-! ## §4. The catalog shell. -/

/-- The shell obeys the grammar on this input. -/
def OneAnswerPerLine (E : Surroundings) (stdin : List UInt8) : Prop :=
  ∀ K : Oracle Empty, catalogProgram.RunsOn E K stdin
    (fun events => seen events = catalogTrace K [] (rawLines stdin))

theorem oneAnswerPerLine_iff_alone {E : Surroundings} (hE : E.Undisturbed)
    (stdin : List UInt8) : OneAnswerPerLine E stdin ↔ OneAnswerAlone stdin :=
  forall_congr' fun _ => catalogProgram.runsOn_iff_alone hE catalog_childrenSilent

/-- **THE GRAMMAR IS OBEYED EXACTLY** when, up to the first line that begins
with `Esc`, every line is answered whole.  The shell is a run of all processes
then. -/
theorem one_answer_per_line_iff (E : Surroundings) (hE : E.Undisturbed) (stdin : List UInt8)
    (hshort : ShortLines (rawLines stdin)) :
    (OneAnswerPerLine E stdin ↔ ∀ l ∈ catalogLinesRead (rawLines stdin), AnsweredWhole l) ∧
      (OneAnswerPerLine E stdin → ∀ K : Oracle Empty, catalogProgram.RunsAmongAll stdin
        (fun events => seen events = catalogTrace K [] (rawLines stdin))) := by
  refine ⟨(oneAnswerPerLine_iff_alone hE stdin).trans (oneAnswerAlone_iff stdin hshort), ?_⟩
  intro h K
  refine (h K).among_all hE catalog_childrenSilent ?_
  exact List.mem_cons_of_mem _ (List.mem_cons_of_mem _ List.mem_cons_self)

/-- Two lines that are answered whole. -/
theorem one_answer_per_line_iff_find :
    OneAnswerPerLine Surroundings.terminal (str "find word book.txt\nEsc\n") :=
  (one_answer_per_line_iff Surroundings.terminal Surroundings.terminal_undisturbed
    (str "find word book.txt\nEsc\n") (by decide)).1.mpr (by decide)

/-- Here, too: `run` of a program that is not there, from a regular file. -/
example : (executeOn Surroundings.regularFile
      ⟨fun _ => false, fun _ => true, fun _ c => c.elim⟩ catalog_shell 4 ()
      (Streams.start Surroundings.regularFile (str "run nosuchprog x\nfoo\n"))).map
        (fun r => r.2.events.countP (· == .printed (str "Not Supported\n"))) = some 2 := by
  decide +kernel

/-- **A WORD BEHIND AN UNKNOWN COMMAND ENDS THE SHELL**, and the next line is
not answered. -/
theorem unknown_word_then_esc :
    ¬ OneAnswerPerLine Surroundings.terminal (str "foo Esc\nls -l\n") := by
  rw [oneAnswerPerLine_iff_alone Surroundings.terminal_undisturbed,
    oneAnswerAlone_iff _ (by decide)]
  decide

end ConcurrencyCrypto.Shells
