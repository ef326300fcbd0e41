/-
  ConcurrencyCrypto.Shells.CatalogGrammar
  ───────────────────────────────────────
  Whether `catalog_shell` answers each line of its input once, and from that
  line alone.

  `catalogTrace` is the trace of a shell that does: the first word of a line is
  the command, the further words are its parameters.  Beside the calls it shows
  which word was taken for the command, by the number of bytes behind it.  The
  calls of `fgets` are left out, for how the rest of a line is read is not part
  of the grammar.
-/
import ConcurrencyCrypto.Shells.CatalogShell

namespace ConcurrencyCrypto.Shells

open ConcurrencyCrypto.Library

/-! ## §1. The grammar. -/

/-- What is seen of a run. -/
def seen (events : List (Effect Empty)) : List (Effect Empty) :=
  events.filter fun
    | .got _ => false
    | _ => true

/-- The trace after a line with a first word other than `Esc`. -/
def catalogAnswer (K : Oracle Empty) (past : List (Effect Empty)) (command : CString)
    (params : List CString) : List (Effect Empty) :=
  if command = str "find" then
    match params with
    | word :: fileName :: _ =>
        commandTrace K past [] (str "/bin/grep") [str "grep", word, fileName]
          (str "File not found")
    | _ => past ++ [Effect.printed (str "Missing parameters\n")]
  else if command = str "ls" then
    match params with
    | arg :: _ =>
        if arg = str "-l" then
          commandTrace K past [] (str "/bin/ls") [str "ls", str "-l"] (str "execl failed")
        else past ++ [Effect.printed (str "Not Supported\n")]
    | [] => past ++ [Effect.printed (str "Missing parameters\n")]
  else if command = str "newcat" then
    match params with
    | fileName :: _ =>
        commandTrace K past [] (str "/bin/mkdir") [str "mkdir", fileName] (str "File not found")
    | [] => past ++ [Effect.printed (str "Missing parameters\n")]
  else if command = str "run" then
    match params with
    | prog :: arg :: _ => commandTrace K past [] prog [prog, arg] (str "File not found")
    | _ => past ++ [Effect.printed (str "Missing parameters\n")]
  else past ++ [Effect.printed (str "Not Supported\n")]

/-- The trace of a shell that answers every line with a word in it once, up to
the line that ends the shell or to the end of the input. -/
def catalogTrace (K : Oracle Empty) : List (Effect Empty) → List (List UInt8) →
    List (Effect Empty)
  | past, [] => past ++ [Effect.printed (str "Catalog$** "), Effect.scanned [] 0]
  | past, l :: ls =>
      match words l with
      | [] => catalogTrace K past ls
      | w :: _ =>
          let past := past ++ [Effect.printed (str "Catalog$** "),
            Effect.scanned [w] ((behind l).length + ls.flatten.length)]
          if cString w = str "Esc" then
            past ++ [Effect.printed (str "Returning to the LibShell...\n")]
          else
            catalogTrace K (catalogAnswer K past (cString w) (words (cString (behind l)))) ls

/-- On an input of its own the shell obeys the grammar. -/
def OneAnswerAlone (stdin : List UInt8) : Prop :=
  ∀ K : Oracle Empty, ∃ fuel s,
    execute K catalog_shell fuel () (Console.start stdin) = some (.exited 0, s) ∧
      seen s.events = catalogTrace K [] (rawLines stdin)

/-- The commands that read the rest of their line. -/
def catalogWords : List CString := [str "find", str "ls", str "newcat", str "run"]

/-- A line that is answered whole: a command that takes parameters has at
least its newline behind it, and a word that is no command stands alone. -/
def AnsweredWhole (l : List UInt8) : Prop :=
  ∀ w ∈ (words l).head?, cString w ≠ str "Esc" →
    (cString w ∈ catalogWords → behind l ≠ []) ∧ (cString w ∉ catalogWords → (words l).tail = [])

instance (l : List UInt8) : Decidable (AnsweredWhole l) :=
  inferInstanceAs (Decidable (∀ w ∈ (words l).head?, _))

/-- The lines up to the one that ends the shell. -/
def catalogLinesRead : List (List UInt8) → List (List UInt8)
  | [] => []
  | l :: ls =>
      if (words l).head?.map cString = some (str "Esc") then [l] else l :: catalogLinesRead ls

/-! ## §2. One command. -/

@[simp] theorem seen_append (a b : List (Effect Empty)) : seen (a ++ b) = seen a ++ seen b :=
  List.filter_append a b

/-- `fork` and `execl` are counted alike in what is seen. -/
theorem forkFails_seen (K : Oracle Empty) (past : List (Effect Empty)) :
    K.forkFails (seen past) = K.forkFails past := by
  unfold Oracle.forkFails seen
  rw [List.countP_filter]
  congr 2
  funext e
  cases e with
  | _ => rfl

theorem execFails_seen (K : Oracle Empty) (past : List (Effect Empty)) :
    K.execFails (seen past) = K.execFails past := by
  unfold Oracle.execFails seen
  rw [List.countP_filter]
  congr 2
  funext e
  cases e with
  | _ => rfl

theorem seen_commandTrace (K : Oracle Empty) (past : List (Effect Empty)) (path : CString)
    (argv : List CString) (failure : CString) :
    seen (commandTrace K past [] path argv failure)
      = commandTrace K (seen past) [] path argv failure := by
  unfold commandTrace
  rw [forkFails_seen]
  by_cases hfork : K.forkFails past = true
  · rw [if_pos hfork, if_pos hfork, seen_append]
    rfl
  · rw [if_neg hfork, if_neg hfork]
    extract_lets inChild inChild'
    have hinChild : seen inChild = inChild' := seen_append past _
    rw [← hinChild, execFails_seen]
    by_cases hexec : K.execFails inChild = true
    · rw [if_pos hexec, if_pos hexec, seen_append]
      rfl
    · rw [if_neg hexec, if_neg hexec, seen_append]
      rfl

section commands
variable {K : Oracle Empty} {stdin : List UInt8} (hne : stdin ≠ [])
  (hshort : ∀ w ∈ words (cString (fgets 199 stdin).1), w.length < 100)
include hne hshort

/-- **THE PARAMETERS OF A COMMAND** are the words of the rest of its line. -/
theorem run_lineParams {n : Nat} (hn : 0 < n) (act : List CString → Code Unit Empty)
    (past : List (Effect Empty)) :
    (lineParams n act).run K ⟨stdin, 0, past⟩ =
      (if (words (cString (fgets 199 stdin).1)).length < n then
        (.goto (), ⟨(fgets 199 stdin).2, 0,
          past ++ [Effect.got (some (fgets 199 stdin).1),
            Effect.printed (str "Missing parameters\n")]⟩)
      else (act ((words (cString (fgets 199 stdin).1)).take n)).run K
        ⟨(fgets 199 stdin).2, 0, past ++ [Effect.got (some (fgets 199 stdin).1)]⟩) := by
  have hturn : (lineParams n act).run K ⟨stdin, 0, past⟩
      = (sscanf 100 n (fgets 199 stdin).1 (afterSscanf n act)).run K
          ⟨(fgets 199 stdin).2, 0, past ++ [Effect.got (some (fgets 199 stdin).1)]⟩ :=
    if_neg hne
  rw [hturn, sscanf_eq hshort]
  unfold afterSscanf
  by_cases hlen : (words (cString (fgets 199 stdin).1)).length < n
  · have hr : scanfResult ((words (cString (fgets 199 stdin).1)).take n) ≠ n := by
      rw [Ne, scanfResult_eq_iff hn, List.length_take]
      omega
    rw [if_pos hr, if_pos hlen]
    show (Stop.goto (), Console.mk _ 0 (past ++ [Effect.got (some (fgets 199 stdin).1)] ++ [_])) = _
    rw [List.append_assoc]
    rfl
  · have hr : ¬ scanfResult ((words (cString (fgets 199 stdin).1)).take n) ≠ n := by
      rw [not_not, scanfResult_eq_iff hn, List.length_take]
      omega
    rw [if_neg hr, if_neg hlen]

/-- What a command does, seen from outside: `trace` is the trace after it. -/
def Does (K : Oracle Empty) (stdin : List UInt8) (past : List (Effect Empty))
    (code : Code Unit Empty) (trace : List (Effect Empty)) : Prop :=
  ∃ events, code.run K ⟨stdin, 0, past⟩ = (.goto (), ⟨(fgets 199 stdin).2, 0, events⟩) ∧
    seen events = trace

/-- A command with too few parameters. -/
theorem does_missing {n : Nat} (hn : 0 < n) (act : List CString → Code Unit Empty)
    (past : List (Effect Empty)) (hlen : (words (cString (fgets 199 stdin).1)).length < n) :
    Does K stdin past (lineParams n act)
      (seen past ++ [Effect.printed (str "Missing parameters\n")]) := by
  refine ⟨_, (run_lineParams hne hshort hn act past).trans (if_pos hlen), ?_⟩
  rw [seen_append]
  rfl

/-- A command that executes a program. -/
theorem does_command {n : Nat} (hn : 0 < n) (act : List CString → Code Unit Empty)
    (past : List (Effect Empty)) (hlen : n ≤ (words (cString (fgets 199 stdin).1)).length)
    {path : CString} {argv : List CString} {failure : CString}
    (hact : act ((words (cString (fgets 199 stdin).1)).take n)
      = forkChild () (execChild path argv failure)) :
    Does K stdin past (lineParams n act) (commandTrace K (seen past) [] path argv failure) := by
  refine ⟨_, (run_lineParams hne hshort hn act past).trans ((if_neg (Nat.not_lt_of_le hlen)).trans
    (hact ▸ run_command K () [] path argv failure _ _)), ?_⟩
  rw [seen_commandTrace, seen_append]
  congr 1
  exact List.append_nil _

theorem does_find (past : List (Effect Empty)) :
    Does K stdin past (lineParams 2 findAct)
      (catalogAnswer K (seen past) (str "find") (words (cString (fgets 199 stdin).1))) := by
  unfold catalogAnswer
  rw [if_pos rfl]
  rcases hparams : words (cString (fgets 199 stdin).1) with _ | ⟨word, _ | ⟨fileName, more⟩⟩
  · exact does_missing hne hshort (by decide) _ past (by rw [hparams]; decide)
  · exact does_missing hne hshort (by decide) _ past (by rw [hparams]; exact Nat.lt_succ_self 1)
  · refine does_command hne hshort (by decide) _ past ?_ ?_
    · rw [hparams]
      simp
    · rw [hparams]
      rfl

theorem does_ls (past : List (Effect Empty)) :
    Does K stdin past (lineParams 1 lsAct)
      (catalogAnswer K (seen past) (str "ls") (words (cString (fgets 199 stdin).1))) := by
  unfold catalogAnswer
  rw [if_neg (by decide), if_pos rfl]
  rcases hparams : words (cString (fgets 199 stdin).1) with _ | ⟨arg, more⟩
  · exact does_missing hne hshort (by decide) _ past (by rw [hparams]; decide)
  · have hlen : ¬ (words (cString (fgets 199 stdin).1)).length < 1 := by
      rw [hparams, List.length_cons]
      omega
    by_cases harg : arg = str "-l"
    · show Does K stdin past (lineParams 1 lsAct) (if arg = str "-l" then _ else _)
      rw [if_pos harg]
      refine does_command hne hshort (by decide) _ past (Nat.le_of_not_lt hlen) ?_
      rw [hparams, harg]
      rfl
    · show Does K stdin past (lineParams 1 lsAct) (if arg = str "-l" then _ else _)
      rw [if_neg harg]
      have hact : lsAct ((words (cString (fgets 199 stdin).1)).take 1)
          = .printf (str "Not Supported\n") (.goto ()) := by
        rw [hparams]
        exact if_pos harg
      refine ⟨past ++ [Effect.got (some (fgets 199 stdin).1)] ++
        [Effect.printed (str "Not Supported\n")],
        ?_, ?_⟩
      · rw [run_lineParams hne hshort (by decide) lsAct past, if_neg hlen, hact]
        rfl
      · rw [seen_append, seen_append]
        show seen past ++ [] ++ [_] = _
        rw [List.append_nil]

theorem does_newcat (past : List (Effect Empty)) :
    Does K stdin past (lineParams 1 newcatAct)
      (catalogAnswer K (seen past) (str "newcat") (words (cString (fgets 199 stdin).1))) := by
  unfold catalogAnswer
  rw [if_neg (by decide), if_neg (by decide), if_pos rfl]
  rcases hparams : words (cString (fgets 199 stdin).1) with _ | ⟨fileName, more⟩
  · exact does_missing hne hshort (by decide) _ past (by rw [hparams]; decide)
  · refine does_command hne hshort (by decide) _ past ?_ ?_
    · rw [hparams]
      simp
    · rw [hparams]
      rfl

theorem does_run (past : List (Effect Empty)) :
    Does K stdin past (lineParams 2 runAct)
      (catalogAnswer K (seen past) (str "run") (words (cString (fgets 199 stdin).1))) := by
  unfold catalogAnswer
  rw [if_neg (by decide), if_neg (by decide), if_neg (by decide), if_pos rfl]
  rcases hparams : words (cString (fgets 199 stdin).1) with _ | ⟨prog, _ | ⟨arg, more⟩⟩
  · exact does_missing hne hshort (by decide) _ past (by rw [hparams]; decide)
  · exact does_missing hne hshort (by decide) _ past (by rw [hparams]; exact Nat.lt_succ_self 1)
  · refine does_command hne hshort (by decide) _ past ?_ ?_
    · rw [hparams]
      simp
    · rw [hparams]
      rfl

/-- **A KNOWN COMMAND** takes the rest of its line, and nothing else. -/
theorem does_known {command : CString} (hcommand : command ∈ catalogWords)
    (past : List (Effect Empty)) :
    Does K stdin past (catalogCommand command)
      (catalogAnswer K (seen past) command (words (cString (fgets 199 stdin).1))) := by
  have hcases : command = str "find" ∨ command = str "ls" ∨ command = str "newcat" ∨
      command = str "run" := by simpa [catalogWords] using hcommand
  unfold catalogCommand
  rcases hcases with rfl | rfl | rfl | rfl
  · rw [if_neg (by decide), if_pos rfl]
    exact does_find hne hshort past
  · rw [if_neg (by decide), if_neg (by decide), if_pos rfl]
    exact does_ls hne hshort past
  · rw [if_neg (by decide), if_neg (by decide), if_neg (by decide), if_pos rfl]
    exact does_newcat hne hshort past
  · rw [if_neg (by decide), if_neg (by decide), if_neg (by decide), if_neg (by decide),
      if_pos rfl]
    exact does_run hne hshort past

end commands

/-! ## §3. One turn. -/

section turns
variable {K : Oracle Empty}

theorem run_catalog_end {stdin : List UInt8} (h : scanWord stdin = none)
    (past : List (Effect Empty)) :
    (catalog_shell ()).run K ⟨stdin, 0, past⟩
      = (.exited 0,
          ⟨[], 0, past ++ [Effect.printed (str "Catalog$** "), Effect.scanned [] 0]⟩) := by
  have hscan : scanf 1 stdin = ([], []) := by rw [scanf, h]
  unfold catalog_shell
  rw [Code.run, Code.run_scanf hscan (List.forall_mem_nil _)]
  show (Stop.exited 0,
    Console.mk [] 0 (past ++ [Effect.printed (str "Catalog$** ")] ++ [Effect.scanned [] 0])) = _
  rw [List.append_assoc]
  rfl

/-- The next word of the input is the command. -/
theorem run_catalog_word {stdin w rest : List UInt8} (h : scanWord stdin = some (w, rest))
    (hw : w.length < 100) (past : List (Effect Empty)) :
    (catalog_shell ()).run K ⟨stdin, 0, past⟩
      = (catalogCommand (cString w)).run K ⟨rest, 0,
          past ++ [Effect.printed (str "Catalog$** "), Effect.scanned [w] rest.length]⟩ := by
  have hscan : scanf 1 stdin = ([w], rest) := by
    rw [scanf, h]
    rfl
  unfold catalog_shell
  rw [Code.run, Code.run_scanf hscan (by simpa using hw)]
  show (catalogCommand (cString w)).run K
    ⟨rest, 0, past ++ [Effect.printed (str "Catalog$** ")] ++ [Effect.scanned [w] rest.length]⟩ = _
  rw [List.append_assoc]
  rfl

theorem catalogCommand_esc : catalogCommand (str "Esc")
    = .printf (str "Returning to the LibShell...\n") (.exit 0) := if_pos rfl

/-- **A WORD THAT IS NO COMMAND** is answered, and the rest of its line stays
in the input. -/
theorem catalogCommand_unknown {command : CString} (hesc : command ≠ str "Esc")
    (hcommand : command ∉ catalogWords) :
    catalogCommand command = .printf (str "Not Supported\n") (.goto ()) := by
  simp only [catalogWords, List.mem_cons, List.not_mem_nil, or_false, not_or] at hcommand
  obtain ⟨hfind, hls, hnewcat, hrun⟩ := hcommand
  rw [catalogCommand, if_neg hesc, if_neg hfind, if_neg hls, if_neg hnewcat, if_neg hrun]
  rfl

end turns

end ConcurrencyCrypto.Shells
