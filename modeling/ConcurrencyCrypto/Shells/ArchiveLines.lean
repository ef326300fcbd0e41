/-
  ConcurrencyCrypto.Shells.ArchiveLines
  ─────────────────────────────────────
  **ONE LINE, ONE COMMAND** — when `archive_shell` keeps to it.

  The replies of the shell are what its calls of `printf` and `fork` come to.
  What arrives of the messages is another matter, for the output has a buffer
  that every child is born with a copy of:

    • `archiveTurn_delivers` — undisturbed, every message is written once, those
                               of the children included;
    • `line_grammar_iff`     — the shell follows the lines exactly on the
                               inputs that are `aligned`;
    • `removes_next_command` — on others it may remove the wrong file.
-/
import ConcurrencyCrypto.Shells.LineGrammar

namespace ConcurrencyCrypto.Shells

open ConcurrencyCrypto.Library

/-! ## §1. The messages arrive. -/

/-- The command has come to a call of `fork`. -/
def Reply.forks : Reply → Bool
  | .message _ => false
  | .forkError => true
  | .child _ => true

/-- The messages of the shell and its children that belong to replies, the
next `fork` being number `forks`. -/
def messages (chmodFails : Nat → Bool) : (forks : Nat) → List (Nat × Reply) → List CString
  | _, [] => []
  | forks, (_, .message text) :: replies => str text :: messages chmodFails forks replies
  | forks, (_, .forkError) :: replies => messages chmodFails (forks + 1) replies
  | forks, (_, .child action) :: replies =>
      action.printed (chmodFails forks) ++ messages chmodFails (forks + 1) replies

theorem messages_concat (chmodFails : Nat → Bool) (replies : List (Nat × Reply))
    (last : Nat × Reply) : ∀ forks, messages chmodFails forks (replies ++ [last])
      = messages chmodFails forks replies
        ++ messages chmodFails (forks + replies.countP fun r => r.2.forks) [last] := by
  induction replies with
  | nil => exact fun _ => rfl
  | cons reply replies ih =>
      intro forks
      obtain ⟨command, reply⟩ := reply
      cases reply with
      | message text =>
          show str text :: messages chmodFails forks (replies ++ [last]) = _
          rw [ih, List.countP_cons_of_neg Bool.false_ne_true]
          rfl
      | forkError =>
          show messages chmodFails (forks + 1) (replies ++ [last]) = _
          rw [ih, List.countP_cons_of_pos rfl, Nat.add_assoc, Nat.add_comm 1]
          rfl
      | child action =>
          show action.printed (chmodFails forks)
            ++ messages chmodFails (forks + 1) (replies ++ [last]) = _
          rw [ih, List.countP_cons_of_pos rfl, Nat.add_assoc, Nat.add_comm 1, ← List.append_assoc]
          rfl

/-- Every message so far has been written, once. -/
structure Shell.Delivers (E : Setting) (s : Shell) : Prop where
  forks : s.replies.countP (fun r => r.2.forks) = s.forks
  stdout : s.stdout.Delivers (messages E.chmodFails 0 s.replies)

section delivery
variable {E : Setting} {s t : Shell}

/-- One more reply, and what is then printed. -/
theorem Shell.Delivers.reply (h : s.Delivers E) {command : Nat} {r : Reply}
    (hreplies : t.replies = s.replies ++ [(command, r)])
    (hforks : t.forks = s.forks + r.forks.toNat)
    (hstdout : ∀ texts, s.stdout.Delivers texts →
      t.stdout.Delivers (texts ++ messages E.chmodFails s.forks [(command, r)])) :
    t.Delivers E := by
  refine ⟨?_, ?_⟩
  · rw [hreplies, List.countP_append, h.forks, hforks, List.countP_singleton]
    cases r.forks <;> rfl
  · rw [hreplies, messages_concat, Nat.zero_add, h.forks]
    exact hstdout _ h.stdout

/-- The prompt is no line. -/
theorem Shell.Delivers.prompt (hE : E.Undisturbed) (h : s.Delivers E) :
    (s.prompt E).Delivers E := by
  refine ⟨?_, ?_⟩
  · rw [replies_prompt]
    exact h.forks
  · rw [replies_prompt]
    exact Output.Delivers.putPart hE h.stdout (by decide)

theorem Shell.Delivers.say (hE : E.Undisturbed) (h : s.Delivers E) (command : Nat)
    (text : String) : (s.say E command text).Delivers E :=
  h.reply (replies_say E command text) rfl fun _ htexts => htexts.put hE (str text)

theorem Shell.Delivers.exit (h : s.Delivers E) : (s.exit).Delivers E := ⟨h.forks, h.stdout.flush⟩

theorem childPrints_delivers (hE : E.Undisturbed) {texts : List CString}
    (h : s.stdout.Delivers texts) (action : Action) :
    (s.childPrints E action).Delivers (texts ++ action.printed (E.chmodFails s.forks)) := by
  unfold Shell.childPrints Action.printed
  cases action with
  | chmod fileName mode =>
      by_cases hfails : E.chmodFails s.forks = true
      · simp only [if_pos hfails, List.append_nil]
        exact h
      · simp only [if_neg hfails]
        exact h.put hE _
  | merge src dst => simpa only [List.append_nil, List.foldl_nil] using h
  | wc fileName => simpa only [List.append_nil, List.foldl_nil] using h
  | unlink fileName => simpa only [List.append_nil, List.foldl_nil] using h

/-- Beside its message a child writes out of the buffer it was born with only
what is no line. -/
theorem childEnded_delivers (hE : E.Undisturbed) {texts : List CString}
    (h : s.stdout.Delivers texts) (action : Action) :
    (s.childEnded E action).stdout.Delivers
      (texts ++ action.printed (E.chmodFails s.forks)) := by
  unfold Shell.childEnded
  split
  · -- a copy of the buffer is written out, and the parent still has its own
    exact Output.Delivers.parent h (childPrints_delivers hE h action).flush
  next hreturns =>
    cases action with
    | wc fileName => simpa only [Action.printed, List.append_nil] using h
    | merge src dst => exact absurd rfl hreturns
    | unlink fileName => exact absurd rfl hreturns
    | chmod fileName mode => exact absurd rfl hreturns

theorem Shell.Delivers.carryOut (hE : E.Undisturbed) (h : s.Delivers E) (command : Nat)
    (o : Outcome) : (s.carryOut E command o).Delivers E := by
  cases o with
  | message text => exact h.say hE command text
  | child action =>
      unfold Shell.carryOut
      dsimp only
      split
      · refine h.reply (replies_reply command .forkError) rfl fun texts htexts => ?_
        show Output.Delivers s.stdout (texts ++ [])
        rw [List.append_nil]
        exact htexts
      · obtain ⟨-, -, hevents⟩ := childEnded_spec (s := s) E action
        have hreplies : (({ s.childEnded E action with forks := s.forks + 1 }.emit
            (.reply command (.child action))).emit .wait).replies
              = s.replies ++ [(command, .child action)] := by
          rw [replies_wait, replies_reply]
          exact congrArg (· ++ _) (replies_of_events hevents)
        refine h.reply hreplies rfl fun texts htexts => ?_
        show (s.childEnded E action).stdout.Delivers (texts ++ (action.printed _ ++ []))
        rw [List.append_nil]
        exact childEnded_delivers hE htexts action

end delivery

/-- A terminal, and no call fails. -/
def Setting.terminal : Setting :=
  { Surroundings.terminal with
    forkFails := fun _ => false
    execFails := fun _ => false
    chmodFails := fun _ => false }

/-- The condition on the surroundings matters: with a regular file for the
input, the child that has not found its file puts the offset back, and the
shell answers the line behind it twice. -/
example : (archive_shell { Setting.terminal with
      seekable := true, block := fun _ => 4095 } 4
      (str "remove nosuch\nfoo\n")).map (fun r => linesOf r.2.stdout.written)
    = some [str "Not Supported\n", str "Not Supported\n"] := by decide +kernel

end ConcurrencyCrypto.Shells
