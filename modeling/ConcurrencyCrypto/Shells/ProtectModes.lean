/-
  ConcurrencyCrypto.Shells.ProtectModes
  ─────────────────────────────────────
  **WHICH MODES `protect` APPLIES.**

  `archive_shell` takes `(int) strtol(mode, NULL, 8)` for the mode and refuses
  it below 0 and above 0777.  `strtol` reads the digits that the word begins
  with, if there are any, and ends at `LONG_MIN` and `LONG_MAX`; the cast
  keeps the low 32 bits.  So the check does not see the word.

    • `modeAccepted_iff`  — the numbers that pass the check,
    • `protect_modes_iff` — the words for which the shell does what the
      README says of `protect <mode> <filename>`.
-/
import ConcurrencyCrypto.Shells.ArchiveLines

namespace ConcurrencyCrypto.Shells

open ConcurrencyCrypto.Library

/-! ## §1. Modes. -/

/-- The word spells the mode `m`: octal digits, at least one, nothing else. -/
def OctalMode (word : CString) (m : Int) : Prop :=
  word ≠ [] ∧ (∀ b ∈ word, 48 ≤ b.toNat ∧ b.toNat < 56) ∧ m = digitsValue 8 word ∧ m ≤ 0o777

/-- The mode passes the check of the shell. -/
def ModeAccepted (word : CString) : Prop :=
  0 ≤ toInt (strtol 8 word) ∧ toInt (strtol 8 word) ≤ 0o777

/-- The number that the word begins with is refused. -/
def NumberRefused (n : Int) : Prop :=
  2 ^ 63 ≤ n ∨ -2 ^ 63 ≤ n ∧ 0o777 < n % 2 ^ 32

/-- **A turn that handles `protect mode fileName` as described**: `chmod` gets
that file and the mode that the word spells, and a word that spells none is
answered with the message. -/
def ProtectsAsGiven (E : Setting) (s : Shell) (mode fileName : CString) : Prop :=
  ∃ t reply, archiveTurn E s = .inl t ∧ t.replies = s.replies ++ [(s.words, reply)] ∧
    (∀ f m, reply = .child (.chmod f m) → f = fileName ∧ OctalMode mode m) ∧
    ((∀ m, ¬ OctalMode mode m) → reply = .message "Invalid Mode!!\n")

/-- Behind the ends of the range the check sees `LONG_MAX` and `LONG_MIN`,
whose low halves are -1 and 0. -/
theorem modeAccepted_iff (word : CString) :
    ModeAccepted word ↔ ¬ NumberRefused (leadingNumber 8 word) := by
  unfold ModeAccepted NumberRefused toInt
  rw [strtol_eq]
  generalize leadingNumber 8 word = n
  have hbmod : ∀ x : Int, (0 ≤ x.bmod (2 ^ 32) ∧ x.bmod (2 ^ 32) ≤ 0o777)
      ↔ x % 2 ^ 32 ≤ 0o777 := by
    intro x
    rw [Int.bmod_def]
    omega
  rw [hbmod]
  omega

/-- A mode that is spelled out is the one that is applied. -/
theorem toInt_of_octalMode {word : CString} {m : Int} (h : OctalMode word m) :
    toInt (strtol 8 word) = m ∧ 0 ≤ m ∧ m ≤ 0o777 := by
  obtain ⟨-, hdigits, hvalue, hle⟩ := h
  have hnumber : leadingNumber 8 word = m := by
    rw [hvalue]
    exact leadingNumber_digits (by decide) hdigits
  have hpos : 0 ≤ m := by omega
  refine ⟨?_, hpos, hle⟩
  unfold toInt
  rw [strtol_eq, hnumber, Int.bmod_def]
  omega

theorem protectOutcome_accepted {mode fileName : CString} {ws : List CString}
    (h : ModeAccepted mode) : protectOutcome (mode :: fileName :: ws)
      = .child (.chmod fileName (toInt (strtol 8 mode))) := by
  unfold ModeAccepted at h
  unfold protectOutcome
  dsimp only
  rw [if_neg (by omega)]

theorem protectOutcome_refused {mode fileName : CString} {ws : List CString}
    (h : ¬ ModeAccepted mode) :
    protectOutcome (mode :: fileName :: ws) = .message "Invalid Mode!!\n" := by
  unfold ModeAccepted at h
  unfold protectOutcome
  dsimp only
  rw [if_pos (by omega)]

/-! ## §2. The turn. -/

section turn

/-- `scanf` with words that all fit. -/
theorem scan_of_fits (E : Setting) (s : Shell) (n : Nat) (ws : List (List UInt8))
    (hws : (words s.stdin.ahead).take n = ws) (hfit : ∀ w ∈ ws, w.length < 100) :
    ∃ t, s.scan E n = some (scanfResult ws, ws.map cString, t) ∧
      words t.stdin.ahead = (words s.stdin.ahead).drop n ∧ t.words = s.words + ws.length ∧
      t.forks = s.forks ∧ t.events = s.events := by
  obtain ⟨htake, hdrop⟩ := scanf_eq n s.stdin.ahead
  rw [hws] at htake
  refine ⟨{ s with
    stdin := (s.stdin.upTo E.toSurroundings (scanf n s.stdin.ahead).2).fill E.toSurroundings
    words := s.words + ws.length }, ?_, ?_, rfl, rfl, rfl⟩
  rotate_left
  · rw [Input.ahead_fill, Input.ahead_upTo (scanf_suffix n _), hdrop]
  unfold Shell.scan
  dsimp only
  rw [htake, if_pos]
  rw [List.all_eq_true]
  intro w hw
  exact decide_eq_true (hfit w hw)

/-- With a word that does not fit it is not defined. -/
theorem scan_of_not_fits (E : Setting) (s : Shell) (n : Nat) (ws : List (List UInt8))
    (hws : (words s.stdin.ahead).take n = ws) (hlong : ¬ ∀ w ∈ ws, w.length < 100) :
    s.scan E n = none := by
  unfold Shell.scan
  dsimp only
  rw [(scanf_eq n s.stdin.ahead).1, hws, if_neg]
  intro hall
  rw [List.all_eq_true] at hall
  exact hlong fun w hw => of_decide_eq_true (hall w hw)

variable (E : Setting) {s : Shell} {mode fileName : List UInt8}
  {rest : List (List UInt8)}

/-- The command word `protect` selects its branch. -/
theorem archiveTurn_protect
    (hwords : words s.stdin.ahead = str "protect" :: mode :: fileName :: rest) :
    ∃ t : Shell, archiveTurn E s = t.withParams E s.words 2 protectOutcome ∧
      words t.stdin.ahead = mode :: fileName :: rest ∧ t.forks = s.forks ∧
      t.replies = s.replies := by
  obtain ⟨t, hscan, hdrop, -, hforks, hevents⟩ :=
    scan_of_fits E (s.prompt E) 1 [str "protect"]
      (by show (words s.stdin.ahead).take 1 = _; rw [hwords]; rfl) (by decide)
  have hcommand : ([str "protect"] : List (List UInt8)).map cString = [str "protect"] := by
    decide
  rw [hcommand] at hscan
  refine ⟨t, ?_, ?_, hforks, ?_⟩
  · have hresult : scanfResult [str "protect"] ≠ EOF := by decide
    have hEsc : str "protect" ≠ str "Esc" := by decide
    have hmerge : str "protect" ≠ str "merge" := by decide
    have hcount : str "protect" ≠ str "count" := by decide
    have hremove : str "protect" ≠ str "remove" := by decide
    simp only [archiveTurn, hscan, if_neg hresult, if_neg hEsc, if_neg hmerge, if_neg hcount,
      if_neg hremove]
    rw [if_pos trivial]
  · rw [hdrop]
    show (words s.stdin.ahead).drop 1 = _
    rw [hwords]
    rfl
  · rw [replies_of_events hevents, replies_prompt]

/-- **The turn of a `protect`** whose parameters fit. -/
theorem archiveTurn_protect_fits
    (hwords : words s.stdin.ahead = str "protect" :: mode :: fileName :: rest)
    (hmode : mode.length < 100) (hfile : fileName.length < 100) :
    ∃ t, archiveTurn E s = .inl t ∧ t.replies = s.replies ++
      [(s.words,
        (protectOutcome [cString mode, cString fileName]).reply E.forkFails s.forks)] := by
  obtain ⟨t, hturn, hrest, hforks, hreplies⟩ := archiveTurn_protect E hwords
  obtain ⟨u, hscan, -, -, hforks', hevents⟩ :=
    scan_of_fits E t 2 [mode, fileName] (by rw [hrest]; rfl) (by
      intro w hw
      rcases List.mem_cons.mp hw with rfl | hw
      · exact hmode
      · rw [List.mem_singleton.mp hw]
        exact hfile)
  obtain ⟨-, -, hreply⟩ := carryOut_spec (s := u) E s.words
    (protectOutcome [cString mode, cString fileName])
  have hresult : scanfResult [mode, fileName] = 2 := rfl
  refine ⟨u.carryOut E s.words (protectOutcome [cString mode, cString fileName]), ?_, ?_⟩
  · rw [hturn]
    simp only [Shell.withParams, hscan, hresult]
    rw [if_neg (by decide), if_neg (by simp)]
    rfl
  · rw [hreply, replies_of_events hevents, hreplies, hforks', hforks]

/-- A parameter that does not fit: the run is not defined. -/
theorem archiveTurn_protect_long
    (hwords : words s.stdin.ahead = str "protect" :: mode :: fileName :: rest)
    (hlong : ¬ (mode.length < 100 ∧ fileName.length < 100)) :
    ∃ t, archiveTurn E s = .inr (.overflow, t) := by
  obtain ⟨t, hturn, hrest, -, -⟩ := archiveTurn_protect E hwords
  have hscan : t.scan E 2 = none := by
    refine scan_of_not_fits E t 2 [mode, fileName] (by rw [hrest]; rfl) (fun hall => ?_)
    exact hlong ⟨hall mode (by simp), hall fileName (by simp)⟩
  refine ⟨t, ?_⟩
  rw [hturn]
  simp only [Shell.withParams, hscan]

end turn

/-! ## §3. The words that are handled as described. -/

/-- **The answer to two words is as described** exactly if the first spells a
mode, or begins with a number that is refused. -/
theorem protect_reply_iff (forkFails : Nat → Bool) (forks : Nat) (mode fileName : CString) :
    ((∀ f m, (protectOutcome [mode, fileName]).reply forkFails forks = .child (.chmod f m) →
          f = fileName ∧ OctalMode mode m) ∧
        ((∀ m, ¬ OctalMode mode m) → (protectOutcome [mode, fileName]).reply forkFails forks
          = .message "Invalid Mode!!\n"))
      ↔ (∃ m, OctalMode mode m) ∨ NumberRefused (leadingNumber 8 mode) := by
  by_cases haccepted : ModeAccepted mode
  · rw [protectOutcome_accepted haccepted]
    constructor
    · intro ⟨_, hinvalid⟩
      -- the number passes the check, so there is no message
      by_contra hneither
      obtain ⟨hnot, -⟩ := not_or.mp hneither
      have hmessage := hinvalid fun m hm => hnot ⟨m, hm⟩
      unfold Outcome.reply at hmessage
      dsimp only at hmessage
      split at hmessage <;> cases hmessage
    · intro hcase
      obtain ⟨m', hm'⟩ := hcase.resolve_right ((modeAccepted_iff _).mp haccepted)
      refine ⟨?_, fun hnot => absurd hm' (hnot m')⟩
      intro f m hreply
      rw [(toInt_of_octalMode hm').1] at hreply
      unfold Outcome.reply at hreply
      dsimp only at hreply
      split at hreply
      · cases hreply
      · injection hreply with hreply
        injection hreply with hf hm
        rw [← hf, ← hm]
        exact ⟨rfl, hm'⟩
  · rw [protectOutcome_refused haccepted]
    have hrefused : NumberRefused (leadingNumber 8 mode) := by
      by_contra hnot
      exact haccepted ((modeAccepted_iff _).mpr hnot)
    refine ⟨fun _ => Or.inr hrefused, fun _ => ⟨?_, fun _ => rfl⟩⟩
    intro f m hreply
    cases hreply

/-- **`protect` APPLIES ONLY MODES THAT IT WAS GIVEN** exactly if the two words
fit and the mode is spelled in octal digits up to 0777, or begins with a
number that is refused. -/
theorem protect_modes_iff (E : Setting) (s : Shell) (mode fileName : List UInt8)
    (rest : List (List UInt8))
    (hwords : words s.stdin.ahead = str "protect" :: mode :: fileName :: rest) :
    ProtectsAsGiven E s (cString mode) (cString fileName)
      ↔ mode.length < 100 ∧ fileName.length < 100 ∧
        ((∃ m, OctalMode (cString mode) m) ∨
          NumberRefused (leadingNumber 8 (cString mode))) := by
  by_cases hfits : mode.length < 100 ∧ fileName.length < 100
  · obtain ⟨hmode, hfile⟩ := hfits
    obtain ⟨t, hturn, hreplies⟩ := archiveTurn_protect_fits E hwords hmode hfile
    have hiff := protect_reply_iff E.forkFails s.forks (cString mode) (cString fileName)
    constructor
    · intro ⟨t', reply, hturn', hreplies', hchmod, hinvalid⟩
      rw [hturn] at hturn'
      injection hturn' with ht
      subst ht
      have hreply : reply
          = (protectOutcome [cString mode, cString fileName]).reply E.forkFails s.forks := by
        rw [hreplies'] at hreplies
        have := List.append_cancel_left hreplies
        injection this with hpair
        exact (Prod.mk.inj hpair).2
      rw [hreply] at hchmod hinvalid
      exact ⟨hmode, hfile, hiff.mp ⟨hchmod, hinvalid⟩⟩
    · intro ⟨_, _, hcase⟩
      obtain ⟨hchmod, hinvalid⟩ := hiff.mpr hcase
      exact ⟨t, _, hturn, hreplies, hchmod, hinvalid⟩
  · obtain ⟨t, hturn⟩ := archiveTurn_protect_long E hwords hfits
    constructor
    · intro ⟨t', reply, hturn', _⟩
      rw [hturn] at hturn'
      cases hturn'
    · intro ⟨hmode, hfile, _⟩
      exact absurd ⟨hmode, hfile⟩ hfits

/-- `protect 755 f`. -/
theorem protect_modes_iff_755 :
    ProtectsAsGiven Setting.terminal (Shell.start Setting.terminal (str "protect 755 f"))
      (str "755") (str "f") :=
  (protect_modes_iff Setting.terminal (Shell.start Setting.terminal (str "protect 755 f"))
    (str "755") (str "f") [] (by decide +kernel)).mpr
    ⟨by decide +kernel, by decide +kernel,
      Or.inl ⟨0o755, by decide +kernel, by decide +kernel, by decide +kernel, by decide⟩⟩

/-- `protect abc f` takes all permissions from `f`. -/
theorem protect_applies_no_mode :
    (∃ t,
      archiveTurn Setting.terminal (Shell.start Setting.terminal (str "protect abc f")) = .inl t ∧
      t.replies = [(0, .child (.chmod (str "f") 0))]) ∧
    ¬ ProtectsAsGiven Setting.terminal (Shell.start Setting.terminal (str "protect abc f"))
      (str "abc") (str "f") := by
  have hrun : ∃ t,
      archiveTurn Setting.terminal (Shell.start Setting.terminal (str "protect abc f")) = .inl t ∧
      t.replies = [(0, .child (.chmod (str "f") 0))] := by
    obtain ⟨t, hturn, hreplies⟩ := @archiveTurn_protect_fits Setting.terminal
      (Shell.start Setting.terminal (str "protect abc f")) (str "abc") (str "f") []
      (by decide +kernel) (by decide +kernel) (by decide +kernel)
    have hreply : (protectOutcome [cString (str "abc"), cString (str "f")]).reply
        Setting.terminal.forkFails 0 = .child (.chmod (str "f") 0) := by
      decide +kernel
    refine ⟨t, hturn, hreplies.trans ?_⟩
    show [((0 : Nat), (protectOutcome [cString (str "abc"), cString (str "f")]).reply
      Setting.terminal.forkFails 0)] = _
    rw [hreply]
  refine ⟨hrun, ?_⟩
  obtain ⟨t, hturn, hreplies⟩ := hrun
  intro ⟨t', reply, hturn', hreplies', _, hinvalid⟩
  rw [hturn] at hturn'
  injection hturn' with ht
  subst ht
  have hmessage := hinvalid (fun m hm => absurd hm.2.1 (by decide))
  rw [hreplies, hmessage] at hreplies'
  cases hreplies'

end ConcurrencyCrypto.Shells
