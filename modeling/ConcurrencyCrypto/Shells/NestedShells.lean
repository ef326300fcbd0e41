/-
  ConcurrencyCrypto.Shells.NestedShells
  ─────────────────────────────────────
  **THE WHOLE LIBRARY**: `libshell` with the three shells that it executes,
  which may execute the shells again (`run ./libshell …`), as one system of
  processes.

  **ONE SHELL AT A TIME** (`one_active_shell`): however deep the shells are
  nested, whatever is typed and whatever fails, one process is active, its
  ancestors wait, and everybody else has been waited for.  So no two shells
  read the terminal or print at the same time.
-/
import ConcurrencyCrypto.Library.Nesting
import ConcurrencyCrypto.Shells.ArchiveProcess
import ConcurrencyCrypto.Shells.CatalogShell
import ConcurrencyCrypto.Shells.LineShells

namespace ConcurrencyCrypto.Shells

open ConcurrencyCrypto.Library

/-! ## §1. The four programs as one project. -/

inductive LibraryLabel where
  | libshell (l : Label)
  | reader_shell (l : Label)
  | catalog_shell
  | archive_shell (l : ArchiveLabel)
  deriving DecidableEq

/-- The programs by the names under which the shells execute each other; their
arguments are not looked at. -/
def libraryLoad (path : CString) (_ : List CString) : Option LibraryLabel :=
  if path = str "./libshell" then some (.libshell .main)
  else if path = str "./reader_shell" then some (.reader_shell .main)
  else if path = str "./catalog_shell" then some .catalog_shell
  else if path = str "./archive_shell" then some (.archive_shell .prompt)
  else none

def library : Project LibraryLabel ArchiveCall where
  code
    | .libshell l => (libshell.code l).map .libshell Empty.elim
    | .reader_shell l => (reader_shell.code l).map .reader_shell Empty.elim
    | .catalog_shell => (catalog_shell ()).map (fun _ => .catalog_shell) Empty.elim
    | .archive_shell l => (archiveProcess l).map .archive_shell id
  load := libraryLoad

/-! ## §2. Each shell waits at once. -/

section checks
variable {L C : Type} {loop : L}

/-- `if (did_fork) wait(NULL)` stands directly behind the chain of commands. -/
theorem forkChild_waits {child : Code L C} (h : WaitsAtOnce child) :
    WaitsAtOnce (forkChild loop child) := by
  refine ⟨?_, ?_, ?_⟩
  · rw [afterFork_failed]
    trivial
  · rw [afterFork_child]
    exact h
  · intro pid hpid
    rw [afterFork_parent loop child hpid]
    exact ⟨trivial, trivial⟩

theorem execChild_waits (path : CString) (argv : List CString) (failure : CString) :
    WaitsAtOnce (execChild path argv failure : Code L C) := trivial

theorem printAll_waits {texts : List CString} {next : Code L C} (h : WaitsAtOnce next) :
    WaitsAtOnce (printAll texts next) := by
  induction texts with
  | nil => exact h
  | cons text texts ih => exact ih

end checks

/-! ### The line shells. -/

theorem select_waits (cs : List Command) (command : CString) :
    WaitsAtOnce (LineShell.select cs command) := by
  induction cs with
  | nil => trivial
  | cons c cs ih =>
      unfold LineShell.select
      by_cases hword : command = c.word
      · rw [if_pos hword]
        exact forkChild_waits (printAll_waits (execChild_waits _ _ _))
      · rw [if_neg hword]
        exact ih

theorem LineShell.waits (S : LineShell) (l : Label) : WaitsAtOnce (S.code l) := by
  cases l with
  | main => exact printAll_waits trivial
  | prompt =>
      intro got
      cases got with
      | none => trivial
      | some buffer =>
          show WaitsAtOnce (S.dispatch buffer)
          unfold LineShell.dispatch
          extract_lets command
          by_cases hbye : command = S.bye
          · rw [if_pos hbye]
            trivial
          · rw [if_neg hbye]
            exact select_waits S.commands command

/-! ### The catalog shell. -/

theorem lineParams_waits {n : Nat} {act : List CString → Code Unit Empty}
    (hact : ∀ ws, WaitsAtOnce (act ws)) : WaitsAtOnce (lineParams n act) := by
  intro got
  cases got with
  | none => trivial
  | some line =>
      show WaitsAtOnce (sscanf 100 n line (afterSscanf n act))
      unfold sscanf
      extract_lets ws
      by_cases hfit : (ws.all fun w => w.length < 100) = true
      · rw [if_pos hfit]
        unfold afterSscanf
        by_cases hr : scanfResult ws ≠ n
        · rw [if_pos hr]
          trivial
        · rw [if_neg hr]
          exact hact ws
      · rw [if_neg hfit]
        trivial

theorem findAct_waits (ws : List CString) : WaitsAtOnce (findAct ws) := by
  rcases ws with _ | ⟨word, _ | ⟨fileName, more⟩⟩
  · trivial
  · trivial
  · exact forkChild_waits (execChild_waits _ _ _)

theorem lsAct_waits (ws : List CString) : WaitsAtOnce (lsAct ws) := by
  cases ws with
  | nil => trivial
  | cons arg more =>
      show WaitsAtOnce (if arg ≠ str "-l" then _ else _)
      split
      · trivial
      · exact forkChild_waits (execChild_waits _ _ _)

theorem newcatAct_waits (ws : List CString) : WaitsAtOnce (newcatAct ws) := by
  cases ws with
  | nil => trivial
  | cons fileName more => exact forkChild_waits (execChild_waits _ _ _)

theorem runAct_waits (ws : List CString) : WaitsAtOnce (runAct ws) := by
  rcases ws with _ | ⟨prog, _ | ⟨arg, more⟩⟩
  · trivial
  · trivial
  · exact forkChild_waits (execChild_waits _ _ _)

theorem catalogCommand_waits (command : CString) : WaitsAtOnce (catalogCommand command) := by
  unfold catalogCommand
  split
  · trivial
  · split
    · exact lineParams_waits findAct_waits
    · split
      · exact lineParams_waits lsAct_waits
      · split
        · exact lineParams_waits newcatAct_waits
        · split
          · exact lineParams_waits runAct_waits
          · trivial

theorem catalog_waits : WaitsAtOnce (catalog_shell ()) := by
  intro r ws
  show WaitsAtOnce (catalogTurn r ws)
  unfold catalogTurn
  split
  · trivial
  · split
    · exact catalogCommand_waits _
    · trivial

/-! ### The archive shell. -/

theorem copyBody_waits (src_fd dst_fd : Int) : WaitsAtOnce (copyBody src_fd dst_fd) := by
  intro bytesRead
  dsimp only
  split
  · intro written
    dsimp only
    split
    · trivial
    · trivial
  · split
    · trivial
    · exact fun _ _ => trivial

theorem mergeProcess_waits (src dst : CString) : WaitsAtOnce (mergeProcess src dst) := by
  intro src_fd dst_fd
  dsimp only
  split
  · trivial
  · split
    · exact fun _ => trivial
    · trivial

theorem removeProcess_waits (fileName : CString) : WaitsAtOnce (removeProcess fileName) := by
  intro r
  dsimp only
  split
  · trivial
  · trivial

theorem protectProcess_waits (fileName : CString) (modeInt : Int) :
    WaitsAtOnce (protectProcess fileName modeInt) := by
  intro r
  dsimp only
  split
  · trivial
  · trivial

theorem scanParams_waits {n : Nat} {act : List CString → ArchiveCode}
    (hact : ∀ ws, WaitsAtOnce (act ws)) : WaitsAtOnce (scanParams n act) := by
  intro r ws
  dsimp only
  split
  · trivial
  · split
    · trivial
    · exact hact ws

theorem mergeAct_waits (ws : List CString) : WaitsAtOnce (mergeAct ws) := by
  rcases ws with _ | ⟨src, _ | ⟨dst, more⟩⟩
  · trivial
  · trivial
  · exact forkChild_waits (mergeProcess_waits src dst)

theorem countAct_waits (ws : List CString) : WaitsAtOnce (countAct ws) := by
  cases ws with
  | nil => trivial
  | cons fileName more => exact forkChild_waits (execChild_waits _ _ _)

theorem removeAct_waits (ws : List CString) : WaitsAtOnce (removeAct ws) := by
  cases ws with
  | nil => trivial
  | cons fileName more => exact forkChild_waits (removeProcess_waits fileName)

theorem protectAct_waits (ws : List CString) : WaitsAtOnce (protectAct ws) := by
  rcases ws with _ | ⟨mode, _ | ⟨fileName, more⟩⟩
  · trivial
  · trivial
  · show WaitsAtOnce (if _ ∨ _ then _ else _)
    split
    · trivial
    · exact forkChild_waits (protectProcess_waits fileName _)

theorem archiveCommand_waits (command : CString) : WaitsAtOnce (archiveCommand command) := by
  unfold archiveCommand
  split
  · trivial
  · split
    · exact scanParams_waits mergeAct_waits
    · split
      · exact scanParams_waits countAct_waits
      · split
        · exact scanParams_waits removeAct_waits
        · split
          · exact scanParams_waits protectAct_waits
          · trivial

theorem archive_waits (l : ArchiveLabel) : WaitsAtOnce (archiveProcess l) := by
  cases l with
  | copy src_fd dst_fd => exact copyBody_waits src_fd dst_fd
  | prompt =>
      intro r ws
      dsimp only
      split
      · trivial
      · split
        · exact archiveCommand_waits _
        · trivial

theorem library_waits (l : LibraryLabel) : WaitsAtOnce (library.code l) := by
  cases l with
  | libshell l => exact WaitsAtOnce.map _ _ _ (libshell.waits l)
  | reader_shell l => exact WaitsAtOnce.map _ _ _ (reader_shell.waits l)
  | catalog_shell => exact WaitsAtOnce.map _ _ _ catalog_waits
  | archive_shell l => exact WaitsAtOnce.map _ _ _ (archive_waits l)

/-! ## §3. The session. -/

/-- **ONE SHELL AT A TIME.**  In every state of a session one process is
active and has no child; its ancestors are at their `wait`, everybody else has
been waited for; only the active process takes steps, or its parent when it has
ended; and somebody can step until `libshell` has ended, unless a word has
overrun its array. -/
theorem one_active_shell {stdin : List UInt8} {s : System LibraryLabel ArchiveCall}
    (h : Reaches (System.step library) (System.start (.libshell .main) stdin) s) :
    ∃ p, OneActive s.process p ∧
      (∀ q, s.process p = some q → s.process.childless p q = true) ∧
      (∀ a s', a.isInput = false → s.step library a = some s' →
        a.actor = p ∨ ∃ n c, p = n :: a.actor ∧ s.process p = some c ∧ c.status.isZombie = true) ∧
      ((∃ q, s.process [] = some q ∧ q.status.isZombie = true) ∨
        (∃ q, s.process p = some q ∧ q.Undefined) ∨
        ∃ a s', a.isInput = false ∧ s.step library a = some s') := by
  obtain ⟨p, hp⟩ := one_active library_waits h
  refine ⟨p, hp, fun q _ => hp.childless q, ?_, hp.enabled⟩
  intro a s' ha hstep
  exact hp.actor ha hstep

/-! ## §4. No bound on the depth. -/

/-- What a user types who wants one more shell. -/
def nestLine : List UInt8 := str "run ./catalog_shell x\n"

/-- What is left of it behind the first word. -/
def nestRest : List UInt8 := str " ./catalog_shell x\n"

theorem scanf_nestLine : scanf 1 nestLine = ([str "run"], nestRest) := by decide +kernel

theorem fgets_nestRest : fgets 199 nestRest = (nestRest, []) := by decide +kernel

/-- The child that it asks for executes a catalog shell. -/
def nestChild : Code Unit Empty :=
  execChild (str "./catalog_shell") [str "./catalog_shell", str "x"] (str "File not found")

def nestCode : Code Unit Empty := forkChild () nestChild

theorem catalogCommand_run : catalogCommand (str "run") = lineParams 2 runAct := by
  unfold catalogCommand
  rw [if_neg (by decide +kernel), if_neg (by decide +kernel), if_neg (by decide +kernel),
    if_neg (by decide +kernel), if_pos rfl]

theorem sscanf_nestRest : sscanf 100 2 nestRest (afterSscanf 2 runAct) = nestCode := by
  have hscan : (scanf 2 (cString nestRest)).1 = [str "./catalog_shell", str "x"] := by
    decide +kernel
  unfold sscanf
  rw [hscan]
  exact if_pos (by decide +kernel)

/-- The code of the catalog shell within the library. -/
abbrev inLibrary (code : Code Unit Empty) : Code LibraryLabel ArchiveCall :=
  code.map (fun _ => .catalog_shell) Empty.elim

section nesting
variable {s : System LibraryLabel ArchiveCall} {p : Pid} {k : Nat}

theorem set_self (s : System LibraryLabel ArchiveCall) (p : Pid)
    (q : Process LibraryLabel ArchiveCall) : (s.set p q).process p = some q :=
  Table.set_self s.process p q

theorem set_emit_self (s : System LibraryLabel ArchiveCall) (p : Pid)
    (q : Process LibraryLabel ArchiveCall) (e : Effect ArchiveCall) :
    ((s.set p q).emit e).process p = some q := Table.set_self s.process p q

/-- A process that makes its next call, and what it is then. -/
theorem reaches_call {q q₁ : Process LibraryLabel ArchiveCall}
    {code : Code LibraryLabel ArchiveCall} (answer : Int) {s₁ : System LibraryLabel ArchiveCall}
    {p₁ : Pid} (hq : s.process p = some q) (hcode : q.status = .running code)
    (h : s.advance library p q answer code = some s₁) (hq₁ : s₁.process p₁ = some q₁) :
    ∃ s', Reaches (System.step library) s s' ∧ s'.process p₁ = some q₁ :=
  ⟨s₁, Relation.ReflTransGen.single ⟨.run p answer, by rw [System.step_run hq hcode]; exact h⟩,
    hq₁⟩

/-- From the head of its loop the shell is led to its `fork`. -/
theorem reaches_nestCode {stdin : List UInt8}
    (hp : s.process p = some ⟨.running (.goto .catalog_shell), stdin, k⟩) :
    ∃ s', Reaches (System.step library) s s' ∧
      s'.process p = some ⟨.running (inLibrary nestCode), [], k⟩ := by
  -- the line is typed, the turn begins, and the prompt is printed
  have htyped : Reaches (System.step library) s
      (s.set p ⟨.running (.goto .catalog_shell), nestLine, k⟩) := by
    refine Relation.ReflTransGen.single ⟨.input p nestLine, ?_⟩
    simp only [System.step, hp]
  obtain ⟨s₁, h₁, hp₁⟩ := reaches_call 0
    (set_self s p ⟨.running (.goto .catalog_shell), nestLine, k⟩) rfl rfl
    (set_self _ p ⟨.running (library.code .catalog_shell), nestLine, k⟩)
  obtain ⟨s₂, h₂, hp₂⟩ := reaches_call 0 hp₁ rfl rfl
    (set_emit_self _ p ⟨.running (.scanf 100 1 fun r ws => inLibrary (catalogTurn r ws)),
      nestLine, k⟩ _)
  -- the command word
  have hscan : s₂.advance library p
      ⟨.running (.scanf 100 1 fun r ws => inLibrary (catalogTurn r ws)), nestLine, k⟩ 0
      (.scanf 100 1 fun r ws => inLibrary (catalogTurn r ws))
        = some ((s₂.set p ⟨.running (inLibrary (catalogCommand (str "run"))), nestRest, k⟩).emit
            (.scanned [str "run"] nestRest.length)) := by
    simp only [System.advance]
    rw [scanf_nestLine]
    exact if_pos (by decide +kernel)
  obtain ⟨s₃, h₃, hp₃⟩ := reaches_call 0 hp₂ rfl hscan (set_emit_self _ p _ _)
  rw [catalogCommand_run] at hp₃
  -- its parameters
  have hget : s₃.advance library p ⟨.running (inLibrary (lineParams 2 runAct)), nestRest, k⟩ 0
      (inLibrary (lineParams 2 runAct))
        = some ((s₃.set p ⟨.running (inLibrary nestCode), [], k⟩).emit
            (.got (some nestRest))) := by
    rw [← sscanf_nestRest]
    change System.advance library s₃ p _ 0 (.fgets 200 _) = _
    simp only [System.advance]
    rw [if_neg (show nestRest ≠ [] by decide +kernel), fgets_nestRest]
  obtain ⟨s₄, h₄, hp₄⟩ := reaches_call 0 hp₃ rfl hget (set_emit_self _ p _ _)
  exact ⟨s₄, htyped.trans (h₁.trans (h₂.trans (h₃.trans h₄))), hp₄⟩

/-- **One more shell**: the child begins at the head of the same loop. -/
theorem reaches_nested {stdin : List UInt8}
    (hp : s.process p = some ⟨.running (.goto .catalog_shell), stdin, k⟩) :
    ∃ s', Reaches (System.step library) s s' ∧
      s'.process (k :: p) = some ⟨.running (.goto .catalog_shell), [], 0⟩ := by
  obtain ⟨s₁, h₁, hp₁⟩ := reaches_nestCode hp
  have hfork : s₁.advance library p ⟨.running (inLibrary nestCode), [], k⟩ 1 (inLibrary nestCode)
      = some (((s₁.set p ⟨.running (inLibrary (afterFork () nestChild 1)), [], k + 1⟩).set
          (k :: p) ⟨.running (inLibrary (afterFork () nestChild 0)), [], 0⟩).emit
          (.forked false)) := by
    change System.advance library s₁ p _ 1 (.fork _) = _
    simp only [System.advance]
    rw [if_pos Int.one_pos]
  obtain ⟨s₂, h₂, hp₂⟩ := reaches_call 1 hp₁ rfl hfork (set_emit_self _ (k :: p) _ _)
  rw [afterFork_child] at hp₂
  have hload : library.load (str "./catalog_shell") [str "./catalog_shell", str "x"]
      = some .catalog_shell := by decide +kernel
  obtain ⟨s₃, h₃, hp₃⟩ := reaches_call 0 hp₂ rfl rfl (set_emit_self _ (k :: p) _ _)
  refine ⟨s₃, h₁.trans (h₂.trans h₃), ?_⟩
  rw [hp₃, hload]

end nesting

/-- The process is at the head of the loop of the catalog shell. -/
def atCatalog (q : Option (Process LibraryLabel ArchiveCall)) : Bool :=
  match q with
  | some ⟨.running (.goto .catalog_shell), _, _⟩ => true
  | _ => false

theorem eq_of_atCatalog {q : Option (Process LibraryLabel ArchiveCall)}
    (h : atCatalog q = true) :
    ∃ stdin k, q = some ⟨.running (.goto .catalog_shell), stdin, k⟩ := by
  unfold atCatalog at h
  split at h
  · exact ⟨_, _, rfl⟩
  · cases h

/-- `catalog`, typed at the prompt of `libshell`. -/
theorem reaches_catalog : ∃ s,
    Reaches (System.step library) (System.start (.libshell .main) (str "catalog\n")) s ∧
      atCatalog (s.process [0]) = true :=
  exists_reaches
    [.run [] 0, .run [] 0, .run [] 0, .run [] 0, .run [] 0, .run [] 0, .run [] 1, .run [0] 0,
      .run [0] 0]
    (fun s : System LibraryLabel ArchiveCall => atCatalog (s.process [0])) (by decide +kernel)

/-- A catalog shell below `n` others, by induction on `n`. -/
theorem reaches_depth (n : Nat) : ∃ s p stdin k,
    Reaches (System.step library) (System.start (.libshell .main) (str "catalog\n")) s ∧
      p.length = n + 1 ∧ s.process p = some ⟨.running (.goto .catalog_shell), stdin, k⟩ := by
  induction n with
  | zero =>
      obtain ⟨s, hreach, hcatalog⟩ := reaches_catalog
      obtain ⟨stdin, k, hq⟩ := eq_of_atCatalog hcatalog
      exact ⟨s, [0], stdin, k, hreach, rfl, hq⟩
  | succ n ih =>
      obtain ⟨s, p, stdin, k, hreach, hlen, hq⟩ := ih
      obtain ⟨s', hmore, hq'⟩ := reaches_nested hq
      exact ⟨s', k :: p, [], 0, hreach.trans hmore, congrArg (· + 1) hlen, hq'⟩

/-- **SHELLS NEST TO ANY DEPTH**, for `run` executes the shells like any other
program: below every number of shells that wait, one more can be active. -/
theorem shells_nest_to_any_depth (n : Nat) : ∃ s p,
    Reaches (System.step library) (System.start (.libshell .main) (str "catalog\n")) s ∧
      p.length = n + 1 ∧ OneActive s.process p ∧ atCatalog (s.process p) = true := by
  obtain ⟨s, p, stdin, k, hreach, hlen, hq⟩ := reaches_depth n
  refine ⟨s, p, hreach, hlen, ?_, by rw [hq]; rfl⟩
  obtain ⟨p', hp'⟩ := one_active library_waits hreach
  rcases hp'.cases hq with ⟨rfl, -⟩ | ⟨-, -, hwait⟩ | ⟨-, hreaped⟩
  · exact hp'
  · -- a shell at the head of its loop is not at its `wait`
    exact hwait.1.elim
  · cases hreaped

/-- The session three shells deep. -/
theorem one_active_shell_deep : ∃ (s : System LibraryLabel ArchiveCall) (p : Pid),
    OneActive s.process p ∧
      (∀ a s', a.isInput = false → s.step library a = some s' →
        a.actor = p ∨
          ∃ n c, p = n :: a.actor ∧ s.process p = some c ∧ c.status.isZombie = true) := by
  obtain ⟨s, -, -, -, hreach, -, -⟩ := reaches_depth 2
  obtain ⟨p, hp, -, hactor, -⟩ := one_active_shell hreach
  exact ⟨s, p, hp, hactor⟩

end ConcurrencyCrypto.Shells
