/-
  ConcurrencyCrypto.Shells.ArchiveShell
  ─────────────────────────────────────
  `main` of `archive_shell.c`: the endless loop that reads a command word,
  reads its parameters, forks a child and waits for it.

  What a child does is named by an `Action`; the shell waits until it has
  ended.  What it does to the streams that it shares with the shell is in
  `childEnded`, with the one message that a child has; what `wc` writes is the
  work of another program.
  The field `words` of the state is a history variable, the number of words
  read so far: a reply carries the number of the word that the shell took
  for the command.  No code reads it.
-/
import ConcurrencyCrypto.Library.Iteration
import ConcurrencyCrypto.Library.Streams

namespace ConcurrencyCrypto.Shells

open ConcurrencyCrypto.Library

/-! ## §1. What the shell does. -/

/-- The work of a child process. -/
inductive Action where
  /-- The loop of `mergeChild`. -/
  | merge (src dst : CString)
  /-- `execl("/bin/wc", "wc", fileName, NULL)`. -/
  | wc (fileName : CString)
  | unlink (fileName : CString)
  | chmod (fileName : CString) (mode : Int)
  deriving DecidableEq

/-- What a command comes to once its parameters are read. -/
inductive Outcome where
  | message (text : String)
  | child (action : Action)
  deriving DecidableEq

/-- What is seen of the handling of a command. -/
inductive Reply where
  /-- `printf(text)`. -/
  | message (text : String)
  /-- `perror("fork")`. -/
  | forkError
  /-- A child was forked for the action. -/
  | child (action : Action)
  deriving DecidableEq

/-- The trace of a run. -/
inductive Event where
  /-- `printf("Archive$** ")`. -/
  | prompt
  /-- A reply to the command that is word number `command` of the input. -/
  | reply (command : Nat) (r : Reply)
  /-- `wait(NULL)` has returned. -/
  | wait
  deriving DecidableEq

/-- What the shell finds around it. -/
structure Setting extends Surroundings where
  /-- Whether `fork` call number `n` fails. -/
  forkFails : Nat → Bool
  /-- Whether `execl` fails in the child of that call. -/
  execFails : Nat → Bool
  /-- Whether `chmod` fails there. -/
  chmodFails : Nat → Bool

/-- The state of the shell. -/
structure Shell where
  stdin : Input
  stdout : Output
  /-- The number of `fork` calls so far. -/
  forks : Nat
  /-- History: the number of words read so far. -/
  words : Nat
  events : List Event

/-- How the loop is left: by a `break`, or not in a defined way because a
word does not fit into its `char[100]`. -/
inductive Exit where
  | returned
  | overflow
  deriving DecidableEq

/-- Whether the child ends by a `return` from `main`, if `execl` fails or not;
otherwise the program of `wc` has taken its place. -/
def Action.returns (execFails : Bool) : Action → Bool
  | .wc _ => execFails
  | .merge _ _ => true
  | .unlink _ => true
  | .chmod _ _ => true

/-- What the child prints. -/
def Action.printed (chmodFails : Bool) : Action → List CString
  | .chmod _ _ => if chmodFails then [] else [str "Permissions updated\n"]
  | .merge _ _ => []
  | .wc _ => []
  | .unlink _ => []

namespace Shell
variable (E : Setting)

def start (stdin : List UInt8) : Shell :=
  ⟨Input.start E.toSurroundings stdin, ⟨[], []⟩, 0, 0, []⟩

def emit (s : Shell) (e : Event) : Shell := { s with events := s.events ++ [e] }

/-- `printf(text)`. -/
def print (text : String) (s : Shell) : Shell :=
  { s with stdout := s.stdout.put E.toSurroundings (str text) }

/-- `printf("Archive$** ")`. -/
def prompt (s : Shell) : Shell := (s.print E "Archive$** ").emit .prompt

/-- The message `text` in reply to a command. -/
def say (command : Nat) (text : String) (s : Shell) : Shell :=
  (s.print E text).emit (.reply command (.message text))

/-- `scanf` into `n` variables of type `char[100]`: its result and the words
stored.  The byte behind the last word is looked at. -/
def scan (n : Nat) (s : Shell) : Option (Int × List CString × Shell) :=
  match scanf n s.stdin.ahead with
  | (ws, rest) =>
      if ws.all fun w => w.length < 100 then
        some (scanfResult ws, ws.map cString,
          { s with
            stdin := (s.stdin.upTo E.toSurroundings rest).fill E.toSurroundings
            words := s.words + ws.length })
      else none

/-- The end of `main`. -/
def exit (s : Shell) : Shell := { s with stdin := s.stdin.giveBack, stdout := s.stdout.flush }

/-- The output of the child for an action. -/
def childPrints (action : Action) (s : Shell) : Output :=
  (action.printed (E.chmodFails s.forks)).foldl (fun o text => o.put E.toSurroundings text) s.stdout

/-- What the child for an action leaves of the streams when it has ended. -/
def childEnded (action : Action) (s : Shell) : Shell :=
  if action.returns (E.execFails s.forks) then
    -- it writes its copy of the buffer out, and puts the offset back
    { s with
      stdin := s.stdin.giveBack
      stdout := ⟨s.stdout.pending, (s.childPrints E action).flush.written⟩ }
  else { s with stdin := { s.stdin with file := E.leaves s.forks s.stdin.file } }

/-- A message, or `fork` and `wait`. -/
def carryOut (command : Nat) (s : Shell) : Outcome → Shell
  | .message text => s.say E command text
  | .child action =>
      if E.forkFails s.forks then
        ({ s with forks := s.forks + 1 }).emit (.reply command .forkError)
      else
        (({ s.childEnded E action with forks := s.forks + 1 }).emit
          (.reply command (.child action))).emit .wait

/-- The branch of a command that takes `n` parameters. -/
def withParams (command n : Nat) (outcome : List CString → Outcome) (s : Shell) :
    Shell ⊕ (Exit × Shell) :=
  match s.scan E n with
  | none => .inr (.overflow, s)
  | some (r, ws, s) =>
      if r = EOF then .inr (.returned, s.exit)
      else if r ≠ n then .inl (s.say E command "Missing parameters\n")
      else .inl (s.carryOut E command (outcome ws))

end Shell

/-! ## §2. The commands. -/

/-- `merge`.  The last case does not arise in the shell, which has read both
parameters by then; likewise below. -/
def mergeOutcome : List CString → Outcome
  | src :: dst :: _ => .child (.merge src dst)
  | _ => .message "Missing parameters\n"

/-- `count`. -/
def countOutcome : List CString → Outcome
  | fileName :: _ => .child (.wc fileName)
  | [] => .message "Missing parameters\n"

/-- `remove`. -/
def removeOutcome : List CString → Outcome
  | fileName :: _ => .child (.unlink fileName)
  | [] => .message "Missing parameters\n"

/-- `protect`. -/
def protectOutcome : List CString → Outcome
  | mode :: fileName :: _ =>
      let modeInt := toInt (strtol 8 mode)
      -- 511 is 0777
      if modeInt < 0 ∨ modeInt > 511 then .message "Invalid Mode!!\n"
      else .child (.chmod fileName modeInt)
  | _ => .message "Missing parameters\n"

/-! ## §3. The loop. -/

/-- One turn of `while (1)`. -/
def archiveTurn (E : Setting) (s : Shell) : Shell ⊕ (Exit × Shell) :=
  let number := s.words
  let s := s.prompt E
  match s.scan E 1 with
  | none => .inr (.overflow, s)
  | some (r, ws, s) =>
      if r = EOF then .inr (.returned, s.exit)
      else
        match ws with
        | [command] =>
            if command = str "Esc" then
              .inr (.returned, (s.say E number "Returning to the LibShell...\n").exit)
            else if command = str "merge" then
              s.withParams E number 2 mergeOutcome
            else if command = str "count" then
              s.withParams E number 1 countOutcome
            else if command = str "remove" then
              s.withParams E number 1 removeOutcome
            else if command = str "protect" then
              s.withParams E number 2 protectOutcome
            else .inl (s.say E number "Not Supported\n")
        -- r != 1
        | _ => .inl (s.say E number "Missing parameters\n")

/-- `main`: how it ends, and the state it ends in. -/
def archive_shell (E : Setting) (fuel : Nat) (stdin : List UInt8) :
    Option (Exit × Shell) :=
  iterate (archiveTurn E) fuel (Shell.start E stdin)

end ConcurrencyCrypto.Shells
