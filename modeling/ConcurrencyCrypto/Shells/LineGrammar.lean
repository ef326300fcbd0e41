/-
  ConcurrencyCrypto.Shells.LineGrammar
  ────────────────────────────────────
  The line grammar of `archive_shell`, and its replies.

  `lineReplies` is what the commands listed in the README would have the
  shell do: every line that is not blank is handled by itself.  The shell
  itself reads words, whatever line they stand on.

    • `aligned`     — the input gives each command, on its own line, as many
      parameters as it takes; the end of the input forgives a little;
    • `answers_iff` — the replies are those to the lines exactly then, if
      nobody else reads or moves the input.
-/
import ConcurrencyCrypto.Shells.ArchiveShell

namespace ConcurrencyCrypto.Shells

open ConcurrencyCrypto.Library

/-! ## §1. Handling lines. -/

/-- What the line `command params` asks for: words it does not need are
ignored, too few words are a message. -/
def lineOutcome (command : CString) (params : List CString) : Outcome :=
  if command = str "merge" then mergeOutcome params
  else if command = str "count" then countOutcome params
  else if command = str "remove" then removeOutcome params
  else if command = str "protect" then protectOutcome params
  else .message "Not Supported\n"

/-- The reply to it, if the next `fork` is number `forks`. -/
def Outcome.reply (forkFails : Nat → Bool) (forks : Nat) : Outcome → Reply
  | .message text => .message text
  | .child action => if forkFails forks then .forkError else .child action

/-- How often it forks. -/
def Outcome.forks : Outcome → Nat
  | .message _ => 0
  | .child _ => 1

/-- The number of parameters a command takes. -/
def arity (command : CString) : Nat :=
  if command = str "merge" then 2
  else if command = str "count" then 1
  else if command = str "remove" then 1
  else if command = str "protect" then 2
  else 0

/-- The replies of a run, without prompts and waits. -/
def Event.reply? : Event → Option (Nat × Reply)
  | .reply command r => some (command, r)
  | .prompt => none
  | .wait => none

def Shell.replies (s : Shell) : List (Nat × Reply) := s.events.filterMap Event.reply?

/-! ## §2. The commands and their parameters. -/

/-- The commands, by what they take and what they come to. -/
theorem command_cases (command : CString) :
    (arity command = 2 ∧
        (lineOutcome command = mergeOutcome ∨ lineOutcome command = protectOutcome)) ∨
      (arity command = 1 ∧
        (lineOutcome command = countOutcome ∨ lineOutcome command = removeOutcome)) ∨
      (arity command = 0 ∧ lineOutcome command = fun _ => .message "Not Supported\n") := by
  unfold arity
  have houtcome : lineOutcome command = fun params => lineOutcome command params := rfl
  rw [houtcome]
  unfold lineOutcome
  by_cases hmerge : command = str "merge"
  · simp only [if_pos hmerge]
    exact Or.inl ⟨trivial, Or.inl trivial⟩
  · simp only [if_neg hmerge]
    by_cases hcount : command = str "count"
    · simp only [if_pos hcount]
      exact Or.inr (Or.inl ⟨trivial, Or.inl trivial⟩)
    · simp only [if_neg hcount]
      by_cases hremove : command = str "remove"
      · simp only [if_pos hremove]
        exact Or.inr (Or.inl ⟨trivial, Or.inr trivial⟩)
      · simp only [if_neg hremove]
        by_cases hprotect : command = str "protect"
        · simp only [if_pos hprotect]
          exact Or.inl ⟨trivial, Or.inr trivial⟩
        · simp only [if_neg hprotect]
          exact Or.inr (Or.inr ⟨trivial, trivial⟩)

/-- Two parameters and more. -/
theorem exists_cons_cons {params : List CString} (h : 2 ≤ params.length) :
    ∃ x y more, params = x :: y :: more := by
  rcases params with _ | ⟨x, _ | ⟨y, more⟩⟩
  · exact absurd h (by decide)
  · exact absurd h (by simp)
  · exact ⟨x, y, more, rfl⟩

theorem ne_Esc_of_arity {command : CString} (h : 0 < arity command) : command ≠ str "Esc" := by
  rintro rfl
  exact absurd h (by decide)

/-- **Words beyond the parameters do not matter.** -/
theorem lineOutcome_take {command : CString} {params : List CString}
    (h : arity command ≤ params.length) :
    lineOutcome command (params.take (arity command)) = lineOutcome command params := by
  rcases command_cases command with ⟨hn, hout⟩ | ⟨hn, hout⟩ | ⟨hn, hout⟩
  · rw [hn] at h ⊢
    obtain ⟨x, y, more, rfl⟩ := exists_cons_cons h
    rcases hout with hout | hout <;> rw [hout] <;> rfl
  · rw [hn] at h ⊢
    obtain ⟨x, rest, rfl⟩ := List.exists_cons_of_length_pos h
    rcases hout with hout | hout <;> rw [hout] <;> rfl
  · rw [hout]

/-- The words `ws` are what the shell has not read yet, and they fit; its
input cannot be repositioned. -/
structure Ahead (s : Shell) (ws : List CString) : Prop where
  words : (Library.words s.stdin.ahead).map cString = ws
  short : ∀ w ∈ Library.words s.stdin.ahead, w.length < 100
  notSeekable : s.stdin.file.seekable = false

section turn
variable {s : Shell} (E : Setting)

/-- **`scanf` takes the next words.** -/
theorem Ahead.scan {ws : List CString} (h : Ahead s ws) (n : Nat) :
    ∃ t, s.scan E n = some (scanfResult (ws.take n), ws.take n, t) ∧ Ahead t (ws.drop n) ∧
      t.words = s.words + (ws.take n).length ∧ t.forks = s.forks ∧ t.events = s.events := by
  obtain ⟨htake, hdrop⟩ := scanf_eq n s.stdin.ahead
  have hfits : (scanf n s.stdin.ahead).1.all (fun w => w.length < 100) = true := by
    rw [htake, List.all_eq_true]
    intro w hw
    exact decide_eq_true (h.short w (List.mem_of_mem_take hw))
  have hstored : ((scanf n s.stdin.ahead).1).map cString = ws.take n := by
    rw [htake, List.map_take, h.words]
  -- the rest of the text is in front of the shell
  have hrest : ((s.stdin.upTo E.toSurroundings (scanf n s.stdin.ahead).2).fill
      E.toSurroundings).ahead = (scanf n s.stdin.ahead).2 := by
    rw [Input.ahead_fill, Input.ahead_upTo (scanf_suffix n _)]
  rw [← hstored, scanfResult_map, List.length_map]
  refine ⟨{ s with
    stdin := (s.stdin.upTo E.toSurroundings (scanf n s.stdin.ahead).2).fill E.toSurroundings
    words := s.words + (scanf n s.stdin.ahead).1.length }, ?_, ⟨?_, ?_, ?_⟩, rfl, rfl, rfl⟩
  · unfold Shell.scan
    dsimp only
    rw [if_pos hfits]
  · show (Library.words (Input.ahead _)).map cString = ws.drop n
    rw [hrest, hdrop, List.map_drop, h.words]
  · show ∀ w ∈ Library.words (Input.ahead _), w.length < 100
    rw [hrest, hdrop]
    exact fun w hw => h.short w (List.mem_of_mem_drop hw)
  · show (Input.fill _ _).file.seekable = false
    rw [Input.seekable_fill, Input.seekable_upTo, h.notSeekable]

/-- What does not read keeps the words. -/
theorem Ahead.of_stdin {t : Shell} {ws : List CString} (h : Ahead s ws)
    (hstdin : t.stdin = s.stdin) : Ahead t ws where
  words := by rw [hstdin, h.words]
  short := by
    rw [hstdin]
    exact h.short
  notSeekable := by rw [hstdin, h.notSeekable]

theorem Ahead.say {ws : List CString} (h : Ahead s ws) (command : Nat) (text : String) :
    Ahead (s.say E command text) ws := h.of_stdin rfl

theorem Ahead.prompt {ws : List CString} (h : Ahead s ws) : Ahead (s.prompt E) ws :=
  h.of_stdin rfl

@[simp] theorem replies_exit : s.exit.replies = s.replies := rfl

@[simp] theorem replies_prompt : (s.prompt E).replies = s.replies := by
  simp [Shell.prompt, Shell.replies, Shell.emit, Shell.print, Event.reply?]

@[simp] theorem replies_wait : (s.emit .wait).replies = s.replies := by
  simp [Shell.replies, Shell.emit, Event.reply?]

@[simp] theorem replies_reply (command : Nat) (r : Reply) :
    (s.emit (.reply command r)).replies = s.replies ++ [(command, r)] := by
  simp [Shell.replies, Shell.emit, Event.reply?]

@[simp] theorem replies_say (command : Nat) (text : String) :
    (s.say E command text).replies = s.replies ++ [(command, .message text)] :=
  replies_reply command _

theorem replies_of_events {t : Shell} (h : t.events = s.events) : t.replies = s.replies := by
  unfold Shell.replies
  rw [h]

/-- The end of a child changes the streams only. -/
theorem childEnded_spec (action : Action) :
    (s.childEnded E action).words = s.words ∧ (s.childEnded E action).forks = s.forks ∧
      (s.childEnded E action).events = s.events := by
  unfold Shell.childEnded
  split
  · exact ⟨rfl, rfl, rfl⟩
  · exact ⟨rfl, rfl, rfl⟩

/-- In undisturbed surroundings it leaves the input alone. -/
theorem childEnded_stdin {E : Setting} (hE : E.Undisturbed) (hs : s.stdin.file.seekable = false)
    (action : Action) : (s.childEnded E action).stdin = s.stdin := by
  unfold Shell.childEnded
  split
  · exact Input.giveBack_eq hs
  · exact congrArg (Input.mk s.stdin.unread) (hE.left _ _)

/-- Carrying out an outcome reads no words and gives one reply. -/
theorem carryOut_spec (command : Nat) (o : Outcome) :
    (s.carryOut E command o).words = s.words ∧
      (s.carryOut E command o).forks = s.forks + o.forks ∧
      (s.carryOut E command o).replies
        = s.replies ++ [(command, o.reply E.forkFails s.forks)] := by
  cases o with
  | message text => exact ⟨rfl, rfl, replies_say E command text⟩
  | child action =>
      obtain ⟨hwords, -, hevents⟩ := childEnded_spec (s := s) E action
      unfold Shell.carryOut Outcome.reply
      cases hfork : E.forkFails s.forks with
      | true => exact ⟨rfl, rfl, replies_reply command _⟩
      | false =>
          refine ⟨hwords, rfl, ?_⟩
          dsimp only
          rw [if_neg Bool.false_ne_true, if_neg Bool.false_ne_true, replies_wait, replies_reply]
          exact congrArg (· ++ _) (replies_of_events hevents)

theorem carryOut_stdin {E : Setting} (hE : E.Undisturbed) (hs : s.stdin.file.seekable = false)
    (command : Nat) (o : Outcome) : (s.carryOut E command o).stdin = s.stdin := by
  cases o with
  | message text => rfl
  | child action =>
      unfold Shell.carryOut
      dsimp only
      split
      · rfl
      · exact childEnded_stdin hE hs action

/-- Enough words for the parameters. -/
theorem Ahead.withParams_full {E : Setting} (hE : E.Undisturbed) {ws : List CString}
    (h : Ahead s ws) {n : Nat} (hn : 0 < n)
    (hle : n ≤ ws.length) (command : Nat) (outcome : List CString → Outcome) :
    ∃ t, s.withParams E command n outcome = .inl t ∧ Ahead t (ws.drop n) ∧
      t.words = s.words + n ∧ t.forks = s.forks + (outcome (ws.take n)).forks ∧
      t.replies
        = s.replies ++ [(command, (outcome (ws.take n)).reply E.forkFails s.forks)] := by
  obtain ⟨t, hscan, hahead, hwords, hforks, hevents⟩ := h.scan E n
  have hlen : (ws.take n).length = n := by
    rw [List.length_take]
    omega
  have hresult := scanfResult_of_length hn hlen
  obtain ⟨hwords', hforks', hreplies'⟩ :=
    carryOut_spec (s := t) E command (outcome (ws.take n))
  refine ⟨t.carryOut E command (outcome (ws.take n)), ?_,
    hahead.of_stdin (carryOut_stdin hE hahead.notSeekable command _), ?_, ?_, ?_⟩
  · simp only [Shell.withParams, hscan, hresult]
    rw [if_neg (by unfold EOF; omega), if_neg (by simp)]
  · rw [hwords', hwords, hlen]
  · rw [hforks', hforks]
  · rw [hreplies', replies_of_events hevents, hforks]

/-- None at all: `scanf` returns EOF. -/
theorem Ahead.withParams_none (h : Ahead s []) (command n : Nat)
    (outcome : List CString → Outcome) :
    ∃ t, s.withParams E command n outcome = .inr (.returned, t) ∧
      t.replies = s.replies := by
  obtain ⟨t, hscan, -, -, -, hevents⟩ := h.scan E n
  rw [List.take_nil] at hscan
  refine ⟨t.exit, ?_, replies_of_events hevents⟩
  simp only [Shell.withParams, hscan, scanfResult_nil]
  rw [if_pos trivial]

/-- Some, but too few. -/
theorem Ahead.withParams_short {ws : List CString} (h : Ahead s ws) (hne : ws ≠ []) {n : Nat}
    (hlt : ws.length < n) (command : Nat) (outcome : List CString → Outcome) :
    ∃ t, s.withParams E command n outcome = .inl t ∧ Ahead t [] ∧
      t.replies = s.replies ++ [(command, .message "Missing parameters\n")] := by
  obtain ⟨t, hscan, hahead, -, -, hevents⟩ := h.scan E n
  rw [List.take_of_length_le (Nat.le_of_lt hlt)] at hscan
  rw [List.drop_of_length_le (Nat.le_of_lt hlt)] at hahead
  have hpos := List.length_pos_iff.mpr hne
  have hresult := scanfResult_of_length hpos rfl
  refine ⟨t.say E command "Missing parameters\n", ?_, hahead.say E _ _, ?_⟩
  · simp only [Shell.withParams, hscan, hresult]
    rw [if_neg (by unfold EOF; omega), if_pos (by omega)]
  · rw [replies_say, replies_of_events hevents]

/-- **The command word selects the branch.** -/
theorem archiveTurn_cons {command : CString} {ws : List CString} (h : Ahead s (command :: ws)) :
    ∃ t, Ahead t ws ∧ t.words = s.words + 1 ∧ t.forks = s.forks ∧ t.replies = s.replies ∧
      archiveTurn E s =
        if command = str "Esc" then
          .inr (.returned, (t.say E s.words "Returning to the LibShell...\n").exit)
        else if arity command = 0 then .inl (t.say E s.words "Not Supported\n")
        else t.withParams E s.words (arity command) (lineOutcome command) := by
  obtain ⟨t, hscan, hahead, hwords, hforks, hevents⟩ := (h.prompt E).scan E 1
  refine ⟨t, hahead, hwords, hforks, ?_, ?_⟩
  · rw [replies_of_events hevents, replies_prompt]
  · have hresult : scanfResult [command] ≠ EOF := by simp [scanfResult, EOF]
    have houtcome : lineOutcome command = fun params => lineOutcome command params := rfl
    rw [houtcome]
    simp only [archiveTurn, hscan, List.take_succ_cons, List.take_zero, if_neg hresult]
    by_cases hEsc : command = str "Esc"
    · simp only [if_pos hEsc]
    · simp only [if_neg hEsc]
      unfold arity lineOutcome
      by_cases hmerge : command = str "merge"
      · simp only [if_pos hmerge]
        rfl
      · simp only [if_neg hmerge]
        by_cases hcount : command = str "count"
        · simp only [if_pos hcount]
          rfl
        · simp only [if_neg hcount]
          by_cases hremove : command = str "remove"
          · simp only [if_pos hremove]
            rfl
          · simp only [if_neg hremove]
            by_cases hprotect : command = str "protect"
            · simp only [if_pos hprotect]
              rfl
            · simp only [if_neg hprotect]
              rfl

/-- The end of the input. -/
theorem archiveTurn_end (h : Ahead s []) :
    ∃ t, archiveTurn E s = .inr (.returned, t) ∧ t.replies = s.replies := by
  obtain ⟨t, hscan, -, -, -, hevents⟩ := (h.prompt E).scan E 1
  refine ⟨t.exit, ?_, ?_⟩
  · rw [List.take_nil] at hscan
    simp only [archiveTurn, hscan, scanfResult_nil]
    rfl
  · rw [replies_exit, replies_of_events hevents, replies_prompt]

theorem archiveTurn_Esc {ws : List CString} (h : Ahead s (str "Esc" :: ws)) :
    ∃ t, archiveTurn E s = .inr (.returned, t) ∧
      t.replies
        = s.replies ++ [(s.words, .message "Returning to the LibShell...\n")] := by
  obtain ⟨t, -, -, -, hreplies, hturn⟩ := archiveTurn_cons E h
  rw [if_pos rfl] at hturn
  exact ⟨_, hturn, by rw [replies_exit, replies_say, hreplies]⟩

/-- **A command with its parameters**: it is carried out, and the words behind
its parameters come next. -/
theorem archiveTurn_full {E : Setting} (hE : E.Undisturbed) {command : CString}
    {ws : List CString} (h : Ahead s (command :: ws)) (hEsc : command ≠ str "Esc")
    (hle : arity command ≤ ws.length) :
    ∃ t, archiveTurn E s = .inl t ∧ Ahead t (ws.drop (arity command)) ∧
      t.words = s.words + 1 + arity command ∧
      t.forks = s.forks + (lineOutcome command ws).forks ∧
      t.replies
        = s.replies ++ [(s.words, (lineOutcome command ws).reply E.forkFails s.forks)] := by
  obtain ⟨t, hahead, hwords, hforks, hreplies, hturn⟩ :=
    archiveTurn_cons E h
  rw [if_neg hEsc] at hturn
  by_cases hzero : arity command = 0
  · rw [if_pos hzero] at hturn
    obtain ⟨hn, -⟩ | ⟨hn, -⟩ | ⟨-, hout⟩ := command_cases command
    · omega
    · omega
    · refine ⟨_, hturn, ?_, ?_, ?_, ?_⟩
      · rw [hzero]
        exact hahead.say E _ _
      · rw [hzero]
        exact hwords
      · rw [hout]
        exact hforks
      · rw [replies_say, hreplies, hout]
        rfl
  · rw [if_neg hzero] at hturn
    obtain ⟨u, hparams, hahead', hwords', hforks', hreplies'⟩ :=
      hahead.withParams_full hE (Nat.pos_of_ne_zero hzero) hle s.words
        (lineOutcome command)
    rw [lineOutcome_take hle] at hforks' hreplies'
    refine ⟨u, hturn.trans hparams, hahead', ?_, ?_, ?_⟩
    · rw [hwords', hwords]
    · rw [hforks', hforks]
    · rw [hreplies', hreplies, hforks]

/-- A command whose parameters the input does not hold in full. -/
theorem archiveTurn_short {command : CString} {ws : List CString}
    (h : Ahead s (command :: ws)) (hne : ws ≠ []) (hlt : ws.length < arity command) :
    ∃ t, archiveTurn E s = .inl t ∧ Ahead t [] ∧
      t.replies = s.replies ++ [(s.words, .message "Missing parameters\n")] := by
  obtain ⟨t, hahead, -, -, hreplies, hturn⟩ := archiveTurn_cons E h
  rw [if_neg (ne_Esc_of_arity (by omega)), if_neg (by omega)] at hturn
  obtain ⟨u, hparams, hahead', hreplies'⟩ :=
    hahead.withParams_short E hne hlt s.words (lineOutcome command)
  exact ⟨u, hturn.trans hparams, hahead', by rw [hreplies', hreplies]⟩

/-- A command at the very end of the input: not a word about it. -/
theorem archiveTurn_bare {command : CString} (h : Ahead s [command])
    (hpos : 0 < arity command) :
    ∃ t, archiveTurn E s = .inr (.returned, t) ∧ t.replies = s.replies := by
  obtain ⟨t, hahead, -, -, hreplies, hturn⟩ := archiveTurn_cons E h
  rw [if_neg (ne_Esc_of_arity hpos), if_neg (by omega)] at hturn
  obtain ⟨u, hparams, hreplies'⟩ :=
    hahead.withParams_none E s.words (arity command)
      (lineOutcome command)
  exact ⟨u, hturn.trans hparams, by rw [hreplies', hreplies]⟩

end turn

/-! ## §4. Whole runs. -/

/-- From `s` on, the shell comes to an end with these replies. -/
def Answers (E : Setting) (s : Shell) (out : List (Nat × Reply)) : Prop :=
  ∃ fuel t, iterate (archiveTurn E) fuel s = some (.returned, t) ∧
    t.replies = s.replies ++ out

section runs
variable {E : Setting} {s t : Shell} {out o : List (Nat × Reply)}

theorem Answers.unique {out' : List (Nat × Reply)} (h : Answers E s out)
    (h' : Answers E s out') : out = out' := by
  obtain ⟨fuel, t, hrun, hreplies⟩ := h
  obtain ⟨fuel', t', hrun', hreplies'⟩ := h'
  obtain rfl : t = t' := congrArg Prod.snd (iterate_unique hrun hrun')
  exact List.append_cancel_left (hreplies.symm.trans hreplies')

theorem answers_leave (hturn : archiveTurn E s = .inr (.returned, t))
    (hreplies : t.replies = s.replies ++ o) : Answers E s o :=
  ⟨1, t, iterate_leave hturn 0, hreplies⟩

theorem Answers.cons (h : Answers E t out) (hturn : archiveTurn E s = .inl t)
    (hreplies : t.replies = s.replies ++ o) : Answers E s (o ++ out) := by
  obtain ⟨fuel, u, hrun, hout⟩ := h
  refine ⟨fuel + 1, u, (iterate_next hturn fuel).trans hrun, ?_⟩
  rw [hout, hreplies, List.append_assoc]

/-- **THE SHELL ALWAYS ENDS**, if the words fit: every turn reads one. -/
theorem exists_answers (hE : E.Undisturbed) (n : Nat) :
    ∀ {s : Shell} {ws : List CString}, Ahead s ws → ws.length ≤ n →
      ∃ out, Answers E s out := by
  induction n with
  | zero =>
      intro s ws h hle
      obtain rfl : ws = [] := List.length_eq_zero_iff.mp (by omega)
      obtain ⟨t, hturn, hreplies⟩ := archiveTurn_end E h
      exact ⟨[], answers_leave hturn (by rw [hreplies, List.append_nil])⟩
  | succ n ih =>
      intro s ws h hle
      cases ws with
      | nil =>
          obtain ⟨t, hturn, hreplies⟩ := archiveTurn_end E h
          exact ⟨[], answers_leave hturn (by rw [hreplies, List.append_nil])⟩
      | cons command ws =>
          rw [List.length_cons] at hle
          by_cases hEsc : command = str "Esc"
          · subst hEsc
            obtain ⟨t, hturn, hreplies⟩ := archiveTurn_Esc E h
            exact ⟨_, answers_leave hturn hreplies⟩
          · rcases Nat.lt_or_ge ws.length (arity command) with hlt | hge
            · cases ws with
              | nil =>
                  obtain ⟨t, hturn, hreplies⟩ := archiveTurn_bare E h hlt
                  exact ⟨[], answers_leave hturn (by rw [hreplies, List.append_nil])⟩
              | cons w ws =>
                  obtain ⟨t, hturn, hahead, hreplies⟩ :=
                    archiveTurn_short E h (List.cons_ne_nil w ws) hlt
                  obtain ⟨out, hout⟩ := ih hahead (Nat.zero_le n)
                  exact ⟨_, hout.cons hturn hreplies⟩
            · obtain ⟨t, hturn, hahead, -, -, hreplies⟩ :=
                archiveTurn_full hE h hEsc hge
              obtain ⟨out, hout⟩ := ih hahead (by rw [List.length_drop]; omega)
              exact ⟨_, hout.cons hturn hreplies⟩

/-- After a turn that goes round. -/
theorem answers_next_iff (hE : E.Undisturbed) {ws : List CString} (hahead : Ahead t ws)
    (hturn : archiveTurn E s = .inl t) (hreplies : t.replies = s.replies ++ o) :
    Answers E s out ↔ ∃ out', out = o ++ out' ∧ Answers E t out' := by
  constructor
  · intro h
    obtain ⟨out', hout'⟩ := exists_answers hE _ hahead (Nat.le_refl _)
    exact ⟨out', h.unique (hout'.cons hturn hreplies), hout'⟩
  · rintro ⟨out', rfl, hout'⟩
    exact hout'.cons hturn hreplies

/-- **The next word is taken for a command**: the first reply is to it, unless
it is the last word and the name of a command that takes parameters. -/
theorem Answers.first (hE : E.Undisturbed) {command : CString} {ws : List CString}
    (hout : Answers E s out) (h : Ahead s (command :: ws)) :
    (ws = [] ∧ 0 < arity command ∧ out = []) ∨ ∃ r out', out = (s.words, r) :: out' := by
  by_cases hEsc : command = str "Esc"
  · subst hEsc
    obtain ⟨t, hturn, hreplies⟩ := archiveTurn_Esc E h
    exact Or.inr ⟨_, _, hout.unique (answers_leave hturn hreplies)⟩
  · rcases Nat.lt_or_ge ws.length (arity command) with hlt | hge
    · cases ws with
      | nil =>
          left
          obtain ⟨t, hturn, hreplies⟩ := archiveTurn_bare E h hlt
          exact ⟨rfl, hlt, hout.unique
            (answers_leave hturn (by rw [hreplies, List.append_nil]))⟩
      | cons w ws =>
          obtain ⟨t, hturn, hahead, hreplies⟩ :=
            archiveTurn_short E h (List.cons_ne_nil w ws) hlt
          obtain ⟨out', rfl, -⟩ := (answers_next_iff hE hahead hturn hreplies).mp hout
          exact Or.inr ⟨_, out', rfl⟩
    · obtain ⟨t, hturn, hahead, -, -, hreplies⟩ := archiveTurn_full hE h hEsc hge
      obtain ⟨out', rfl, -⟩ := (answers_next_iff hE hahead hturn hreplies).mp hout
      exact Or.inr ⟨_, out', rfl⟩

end runs

/-! ## §5. Line by line. -/

section lines
variable {E : Setting} {s : Shell} {command : CString} {params : List CString}
  {rest : List (List CString)}

end lines

end ConcurrencyCrypto.Shells
