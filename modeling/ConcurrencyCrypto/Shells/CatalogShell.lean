/-
  ConcurrencyCrypto.Shells.CatalogShell
  ─────────────────────────────────────
  `main` of `catalog_shell.c`: the command word is read with `scanf("%s", …)`
  and its parameters with `fgets` and `sscanf`, so the branches of the known
  commands take the rest of the line out of the input and the last branch
  leaves it there.

  The program has one loop, and its label is the only one.
-/
import ConcurrencyCrypto.Shells.Forking

namespace ConcurrencyCrypto.Shells

open ConcurrencyCrypto.Library

/-! ## §1. The branches. -/

/-- What follows `sscanf`, which has returned `r`. -/
def afterSscanf (n : Nat) (act : List CString → Code Unit Empty) (r : Int)
    (ws : List CString) : Code Unit Empty :=
  if r ≠ n then .printf (str "Missing parameters\n") (.goto ()) else act ws

/-- The part of a branch that reads `n` parameters from the rest of the line:
`fgets(line, sizeof(line), stdin)` into 200 bytes, then `sscanf`. -/
def lineParams (n : Nat) (act : List CString → Code Unit Empty) : Code Unit Empty :=
  .fgets 200 fun got =>
    match got with
    | none => .exit 0
    | some line => sscanf 100 n line (afterSscanf n act)

/-- `find`.  The last case does not arise, for both parameters are there by
then; likewise below. -/
def findAct : List CString → Code Unit Empty
  | word :: fileName :: _ =>
      forkChild () (execChild (str "/bin/grep") [str "grep", word, fileName]
        (str "File not found"))
  | _ => .undefined

/-- `ls`. -/
def lsAct : List CString → Code Unit Empty
  | arg :: _ =>
      if arg ≠ str "-l" then .printf (str "Not Supported\n") (.goto ())
      else forkChild () (execChild (str "/bin/ls") [str "ls", str "-l"] (str "execl failed"))
  | [] => .undefined

/-- `newcat`. -/
def newcatAct : List CString → Code Unit Empty
  | fileName :: _ =>
      forkChild () (execChild (str "/bin/mkdir") [str "mkdir", fileName] (str "File not found"))
  | [] => .undefined

/-- `run`. -/
def runAct : List CString → Code Unit Empty
  | prog :: arg :: _ => forkChild () (execChild prog [prog, arg] (str "File not found"))
  | _ => .undefined

/-! ## §2. The loop. -/

/-- The chain of `else if`. -/
def catalogCommand (command : CString) : Code Unit Empty :=
  if command = str "Esc" then .printf (str "Returning to the LibShell...\n") (.exit 0)
  else if command = str "find" then lineParams 2 findAct
  else if command = str "ls" then lineParams 1 lsAct
  else if command = str "newcat" then lineParams 1 newcatAct
  else if command = str "run" then lineParams 2 runAct
  else .printf (str "Not Supported\n") (afterChain () 0)

/-- What follows `scanf("%s", command)`, which has returned `r`. -/
def catalogTurn (r : Int) (ws : List CString) : Code Unit Empty :=
  if r = EOF then .exit 0
  else
    match ws with
    | [command] => catalogCommand command
    -- r != 1
    | _ => .printf (str "Missing parameters\n") (.exit 0)

/-- The body of `while (1)`. -/
def catalog_shell : Unit → Code Unit Empty := fun _ =>
  .printf (str "Catalog$** ") (.scanf 100 1 catalogTurn)

end ConcurrencyCrypto.Shells
