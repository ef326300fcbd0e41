/-
  ConcurrencyCrypto.Shells.LineShells
  ───────────────────────────────────
  `main` of `libshell.c` and of `reader_shell.c`: the shells that read whole
  lines, with `fgets(command, sizeof(command), stdin)` for `char
  command[100]`.

  The two programs have one shape.  A `LineShell` is what they differ in; the
  last command of the `else if` chain is the one for everything else.
-/
import ConcurrencyCrypto.Shells.Forking

namespace ConcurrencyCrypto.Shells

open ConcurrencyCrypto.Library

/-! ## §1. The programs. -/

/-- The places a turn can begin at. -/
inductive Label where
  | main
  /-- `while (1)`. -/
  | prompt
  deriving DecidableEq

/-- A branch `else if (strcmp(command, word) == 0)`. -/
structure Command where
  word : CString
  /-- What the child prints before it executes the program. -/
  entering : List CString
  path : CString
  argv : List CString
  /-- The argument of the `perror` behind `execl`. -/
  failure : CString

structure LineShell where
  greeting : List CString
  prompt : CString
  /-- The word that ends the shell. -/
  bye : CString
  farewell : CString
  commands : List Command
  /-- The words of the program text are C strings. -/
  nul_free : ∀ word ∈ bye :: commands.map (·.word), 0 ∉ word
  farewell_ne : farewell ≠ str "Not Supported\n"

namespace LineShell

/-- The chain of `else if`. -/
def select : List Command → CString → Code Label Empty
  | [], _ => .printf (str "Not Supported\n") (afterChain .prompt 0)
  | c :: cs, command =>
      if command = c.word then
        forkChild .prompt (printAll c.entering (execChild c.path c.argv c.failure))
      else select cs command

/-- What follows `fgets`, with `command` as stored. -/
def dispatch (S : LineShell) (buffer : List UInt8) : Code Label Empty :=
  -- command[strcspn(command, "\n")] = 0
  let command := (cString buffer).takeWhile (· != 10)
  if command = S.bye then .printf S.farewell (.exit 0)
  else select S.commands command

/-- The body of `while (1)`. -/
def body (S : LineShell) : Code Label Empty :=
  .printf S.prompt <| .fgets 100 fun got =>
    match got with
    | none => .exit 0
    | some buffer => S.dispatch buffer

def code (S : LineShell) : Label → Code Label Empty
  | .main => printAll S.greeting (.goto .prompt)
  | .prompt => S.body

end LineShell

def libshell : LineShell where
  greeting := [str "Welcome to LibShell!\n",
    str ("Enter <reader> for reading room commands\nEnter <catalog> for catalog search\n" ++
      "Enter <archive> for file archive tools\n")]
  prompt := str "Lib$** "
  bye := str "exit"
  farewell := str "Goodbye from Libshell\n"
  commands :=
    [⟨str "reader", [str "Entering Reader Shell...\n"], str "./reader_shell",
        [str "reader_shell"], str "Failed to execute reader"⟩,
      ⟨str "catalog", [str "Entering Catalog Shell...\n"], str "./catalog_shell",
        [str "catalog_shell"], str "Failed to execute catalog"⟩,
      ⟨str "archive", [str "Entering Archive Shell...\n"], str "./archive_shell",
        [str "archive_shell"], str "Failed to execute archive"⟩]
  nul_free := by decide
  farewell_ne := by decide

def reader_shell : LineShell where
  greeting := []
  prompt := str "Reader$** "
  bye := str "Esc"
  farewell := str "Returning to the LibShell...\n"
  commands :=
    [⟨str "date", [], str "/bin/date", [str "date"], str "File not found"⟩,
      ⟨str "whoami", [], str "/usr/bin/whoami", [str "whoami"], str "File not found"⟩,
      ⟨str "pwd", [], str "/bin/pwd", [str "pwd"], str "File not found"⟩,
      ⟨str "uptime", [], str "/usr/bin/uptime", [str "uptime"], str "File not found"⟩]
  nul_free := by decide
  farewell_ne := by decide

end ConcurrencyCrypto.Shells
