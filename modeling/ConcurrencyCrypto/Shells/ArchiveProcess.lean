/-
  ConcurrencyCrypto.Shells.ArchiveProcess
  ───────────────────────────────────────
  `main` of `archive_shell.c` as the processes see it: the child of `merge`
  has a loop of its own, and the calls on files may return anything.

  `Shells.ArchiveShell` has the same program as one sequential loop, and
  `Shells.Merge` what the child of `merge` does to the files.
-/
import ConcurrencyCrypto.Shells.Forking

namespace ConcurrencyCrypto.Shells

open ConcurrencyCrypto.Library

/-! ## §1. The children. -/

/-- The calls on files. -/
inductive ArchiveCall where
  /-- `open(path, O_RDONLY)`. -/
  | openRead (path : CString)
  /-- `open(path, O_WRONLY | O_APPEND, 0644)`. -/
  | openAppend (path : CString)
  /-- `read` into the buffer of 1024 bytes. -/
  | read (fd : Int)
  /-- `write` of the first `n` bytes of the buffer. -/
  | write (fd n : Int)
  | close (fd : Int)
  | unlink (path : CString)
  | chmod (path : CString) (mode : Int)
  deriving DecidableEq

/-- The places a turn can begin at. -/
inductive ArchiveLabel where
  /-- `while (1)` of the shell. -/
  | prompt
  /-- `while ((bytesRead = read(src_fd, …)) > 0)` of the child of `merge`. -/
  | copy (src_fd dst_fd : Int)
  deriving DecidableEq

abbrev ArchiveCode := Code ArchiveLabel ArchiveCall

/-- One turn of the loop in the child of `merge`. -/
def copyBody (src_fd dst_fd : Int) : ArchiveCode :=
  .call (.read src_fd) fun bytesRead =>
    if bytesRead > 0 then
      .call (.write dst_fd bytesRead) fun written =>
        if written ≠ bytesRead then
          .perror (str "Failed to write to destination file") (.exit 1)
        else .goto (.copy src_fd dst_fd)
    else if bytesRead < 0 then .perror (str "Failed to read from source file") (.exit 1)
    else .call (.close src_fd) fun _ => .call (.close dst_fd) fun _ => .exit 0

/-- The child of `merge`. -/
def mergeProcess (src dst : CString) : ArchiveCode :=
  .call (.openRead src) fun src_fd =>
    .call (.openAppend dst) fun dst_fd =>
      if src_fd < 0 then .perror (str "File not found") (.exit 1)
      else if dst_fd < 0 then
        .call (.close src_fd) fun _ => .perror (str "File not found") (.exit 1)
      else .goto (.copy src_fd dst_fd)

/-- The child of `remove`. -/
def removeProcess (fileName : CString) : ArchiveCode :=
  .call (.unlink fileName) fun r =>
    if r < 0 then .perror (str "File not found") (.exit 1) else .exit 0

/-- The child of `protect`. -/
def protectProcess (fileName : CString) (modeInt : Int) : ArchiveCode :=
  .call (.chmod fileName modeInt) fun r =>
    if r < 0 then .perror (str "File not found") (.exit 1)
    else .printf (str "Permissions updated\n") (.exit 0)

/-! ## §2. The shell. -/

/-- The branch of a command that takes `n` parameters. -/
def scanParams (n : Nat) (act : List CString → ArchiveCode) : ArchiveCode :=
  .scanf 100 n fun r ws =>
    if r = EOF then .exit 0
    else if r ≠ n then .printf (str "Missing parameters\n") (.goto .prompt)
    else act ws

/-- `merge`.  The last case does not arise, for both parameters are there by
then; likewise below. -/
def mergeAct : List CString → ArchiveCode
  | src :: dst :: _ => forkChild .prompt (mergeProcess src dst)
  | _ => .undefined

/-- `count`. -/
def countAct : List CString → ArchiveCode
  | fileName :: _ =>
      forkChild .prompt (execChild (str "/bin/wc") [str "wc", fileName] (str "File not found"))
  | [] => .undefined

/-- `remove`. -/
def removeAct : List CString → ArchiveCode
  | fileName :: _ => forkChild .prompt (removeProcess fileName)
  | [] => .undefined

/-- `protect`. -/
def protectAct : List CString → ArchiveCode
  | mode :: fileName :: _ =>
      let modeInt := toInt (strtol 8 mode)
      -- 511 is 0777
      if modeInt < 0 ∨ modeInt > 511 then .printf (str "Invalid Mode!!\n") (.goto .prompt)
      else forkChild .prompt (protectProcess fileName modeInt)
  | _ => .undefined

/-- The chain of `else if`. -/
def archiveCommand (command : CString) : ArchiveCode :=
  if command = str "Esc" then .printf (str "Returning to the LibShell...\n") (.exit 0)
  else if command = str "merge" then scanParams 2 mergeAct
  else if command = str "count" then scanParams 1 countAct
  else if command = str "remove" then scanParams 1 removeAct
  else if command = str "protect" then scanParams 2 protectAct
  else .printf (str "Not Supported\n") (afterChain .prompt 0)

/-- The body of `while (1)`. -/
def archiveBody : ArchiveCode :=
  .printf (str "Archive$** ") <| .scanf 100 1 fun r ws =>
    if r = EOF then .exit 0
    else
      match ws with
      | [command] => archiveCommand command
      -- r != 1
      | _ => .printf (str "Missing parameters\n") (.goto .prompt)

def archiveProcess : ArchiveLabel → ArchiveCode
  | .prompt => archiveBody
  | .copy src_fd dst_fd => copyBody src_fd dst_fd

end ConcurrencyCrypto.Shells
