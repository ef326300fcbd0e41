/-
  ConcurrencyCrypto.Shells.LineCommands
  ─────────────────────────────────────
  Whether `libshell` and `reader_shell` take each line of their input for one
  command.

  `linesTrace` is the trace of a shell that does: for every line a prompt, the
  line, and what the whole line asks for.  The buffer holds 99 bytes.  A longer
  line comes in pieces, of which each is a command of its own, and a NUL byte
  hides the rest of a line from `strcmp`.

    • `oneCommandAlone_iff` — on an input of its own, of which nobody else
                              reads, the shell keeps to the trace exactly when
                              neither happens before it ends;
                              `Shells.SharedInput` says when it has one.
-/
import ConcurrencyCrypto.Shells.LineShells

namespace ConcurrencyCrypto.Shells

open ConcurrencyCrypto.Library

/-! ## §1. One line, one command. -/

namespace LineShell

variable (S : LineShell) (K : Oracle Empty)

/-- The trace after the command `text`, a whole line. -/
def lineTrace (past : List (Effect Empty)) (text : CString) : List (Effect Empty) :=
  match S.commands.find? (·.word == text) with
  | some c => commandTrace K past c.entering c.path c.argv c.failure
  | none => past ++ [Effect.printed (str "Not Supported\n")]

/-- The trace of a shell that takes every line for one command: for each a
prompt, the line, and what the line asks for, up to the line that ends the
shell or to the end of the input. -/
def linesTrace : List (Effect Empty) → List (List UInt8) → List (Effect Empty)
  | past, [] => past ++ [Effect.printed S.prompt, Effect.got none]
  | past, l :: ls =>
      let past := past ++ [Effect.printed S.prompt, Effect.got (some l)]
      if lineText l = S.bye then past ++ [Effect.printed S.farewell]
      else linesTrace (S.lineTrace K past (lineText l)) ls

/-- On an input of its own the shell treats every line as one command. -/
def OneCommandAlone (stdin : List UInt8) : Prop :=
  ∀ K : Oracle Empty, ∃ fuel s,
    execute K S.code fuel .main (Console.start stdin) = some (.exited 0, s) ∧
      s.events = S.linesTrace K (S.greeting.map .printed) (rawLines stdin)

/-- A word that the shell knows. -/
def Known (word : CString) : Prop := word = S.bye ∨ ∃ c ∈ S.commands, c.word = word

instance (word : CString) : Decidable (S.Known word) :=
  inferInstanceAs (Decidable (_ ∨ _))

/-- A line that the shell reads as it stands: it fits into the buffer, and no
NUL byte makes a known word of it. -/
def Fits (l : List UInt8) : Prop :=
  l.length ≤ 99 ∧ (S.Known (cString (lineText l)) → cString (lineText l) = lineText l)

instance (l : List UInt8) : Decidable (S.Fits l) := inferInstanceAs (Decidable (_ ∧ _))

/-- The lines up to the one that ends the shell. -/
def linesRead : List (List UInt8) → List (List UInt8)
  | [] => []
  | l :: ls => if lineText l = S.bye then [l] else l :: linesRead ls

/-! ## §2. One turn. -/

variable {S K}

/-- What the chain of `else if` does. -/
theorem run_select (cs : List Command) (command : CString) (stdin : List UInt8)
    (past : List (Effect Empty)) :
    (select cs command).run K ⟨stdin, 0, past⟩ = (.goto .prompt, ⟨stdin, 0,
      match cs.find? (·.word == command) with
      | some c => commandTrace K past c.entering c.path c.argv c.failure
      | none => past ++ [Effect.printed (str "Not Supported\n")]⟩) := by
  induction cs with
  | nil => rfl
  | cons c cs ih =>
      unfold select
      by_cases hword : command = c.word
      · rw [if_pos hword, run_command, List.find?_cons_of_pos (by simp [hword])]
      · rw [if_neg hword, ih, List.find?_cons_of_neg (by simp [Ne.symm hword])]

/-- The newline may be cut off first or last. -/
theorem cString_lineText (buffer : List UInt8) :
    (cString buffer).takeWhile (· != 10) = cString (lineText buffer) := by
  unfold cString lineText
  rw [List.takeWhile_takeWhile, List.takeWhile_takeWhile]
  congr 1
  funext b
  rw [Bool.decide_and, Bool.decide_and, Bool.and_comm]

theorem run_dispatch (buffer stdin : List UInt8) (past : List (Effect Empty)) :
    (S.dispatch buffer).run K ⟨stdin, 0, past⟩ =
      (if cString (lineText buffer) = S.bye then
        (.exited 0, ⟨stdin, 0, past ++ [Effect.printed S.farewell]⟩)
      else (.goto .prompt, ⟨stdin, 0, S.lineTrace K past (cString (lineText buffer))⟩)) := by
  unfold dispatch
  simp only [cString_lineText]
  by_cases hbye : cString (lineText buffer) = S.bye
  · rw [if_pos hbye, if_pos hbye]
    rfl
  · rw [if_neg hbye, if_neg hbye]
    exact run_select S.commands _ stdin past

/-- The end of the input. -/
theorem run_body_end (past : List (Effect Empty)) :
    S.body.run K ⟨[], 0, past⟩
      = (.exited 0, ⟨[], 0, past ++ [Effect.printed S.prompt, Effect.got none]⟩) := by
  show (Stop.exited 0, Console.mk [] 0 (past ++ [Effect.printed S.prompt] ++ [Effect.got none])) = _
  rw [List.append_assoc]
  rfl

/-- **ONE TURN**, on whatever `fgets` has stored. -/
theorem run_body {stdin : List UInt8} (hne : stdin ≠ []) (past : List (Effect Empty)) :
    S.body.run K ⟨stdin, 0, past⟩ =
      (S.dispatch (fgets 99 stdin).1).run K ⟨(fgets 99 stdin).2, 0,
        past ++ [Effect.printed S.prompt, Effect.got (some (fgets 99 stdin).1)]⟩ := by
  unfold body
  rw [Code.run, Code.run_fgets_line (by exact hne)]
  show (S.dispatch (fgets 99 stdin).1).run K ⟨(fgets 99 stdin).2, 0,
    past ++ [Effect.printed S.prompt] ++ [Effect.got (some (fgets 99 stdin).1)]⟩ = _
  rw [List.append_assoc]
  rfl

/-! ## §3. Whole runs. -/

theorem cString_of_not_mem {w : List UInt8} (h : 0 ∉ w) : cString w = w := by
  unfold cString
  rw [List.takeWhile_eq_self_iff]
  intro b hb
  rw [bne_iff_ne]
  rintro rfl
  exact h hb

/-- The words of the program text have no NUL. -/
theorem Known.nul_free {word : CString} (h : S.Known word) : 0 ∉ word := by
  refine S.nul_free word ?_
  rcases h with rfl | ⟨c, hc, rfl⟩
  · exact List.mem_cons_self
  · exact List.mem_cons_of_mem _ (List.mem_map_of_mem hc)

/-- A text that is no command. -/
theorem lineTrace_of_not_known {text : CString} (h : ¬ S.Known text)
    (past : List (Effect Empty)) :
    S.lineTrace K past text = past ++ [Effect.printed (str "Not Supported\n")] := by
  have hnone : S.commands.find? (·.word == text) = none := by
    rw [List.find?_eq_none]
    intro c hc hword
    exact h (Or.inr ⟨c, hc, by simpa using hword⟩)
  rw [lineTrace, hnone]

/-- On a line that fits, `strcmp` sees the line. -/
theorem Fits.cString_eq_or {l : List UInt8} (h : S.Fits l) :
    cString (lineText l) = lineText l ∨
      ¬ S.Known (cString (lineText l)) ∧ ¬ S.Known (lineText l) := by
  by_cases hknown : S.Known (cString (lineText l))
  · exact Or.inl (h.2 hknown)
  · by_cases hline : S.Known (lineText l)
    · exact Or.inl (cString_of_not_mem hline.nul_free)
    · exact Or.inr ⟨hknown, hline⟩

theorem Fits.bye_iff {l : List UInt8} (h : S.Fits l) :
    cString (lineText l) = S.bye ↔ lineText l = S.bye := by
  rcases h.cString_eq_or with heq | ⟨hc, hl⟩
  · rw [heq]
  · exact ⟨fun hb => absurd (Or.inl hb) hc, fun hb => absurd (Or.inl hb) hl⟩

theorem Fits.lineTrace_eq {l : List UInt8} (h : S.Fits l) (past : List (Effect Empty)) :
    S.lineTrace K past (cString (lineText l)) = S.lineTrace K past (lineText l) := by
  rcases h.cString_eq_or with heq | ⟨hc, hl⟩
  · rw [heq]
  · rw [lineTrace_of_not_known hc, lineTrace_of_not_known hl]

theorem ne_nil_of_rawLines {stdin l : List UInt8} {ls : List (List UInt8)}
    (h : rawLines stdin = l :: ls) : stdin ≠ [] := by
  rintro rfl
  exact absurd h (by simp)

/-- **WHERE EVERY LINE FITS**, the run has the trace it should have. -/
theorem runs_lines (ls : List (List UInt8)) : ∀ (stdin : List UInt8) (past : List (Effect Empty)),
    rawLines stdin = ls → (∀ l ∈ S.linesRead ls, S.Fits l) →
      ∃ fuel s, execute K S.code fuel .prompt ⟨stdin, 0, past⟩ = some (.exited 0, s) ∧
        s.events = S.linesTrace K past ls := by
  induction ls with
  | nil =>
      intro stdin past hraw hfits
      obtain rfl : stdin = [] := rawLines_eq_nil.mp hraw
      exact ⟨1, _, execute_exit (run_body_end past) 0, rfl⟩
  | cons l ls ih =>
      intro stdin past hraw hfits
      have hl : S.Fits l := hfits l (by unfold linesRead; split <;> exact List.mem_cons_self)
      obtain ⟨hfirst, hrest⟩ := fgets_line hraw hl.1
      have hturn := run_body (S := S) (K := K) (ne_nil_of_rawLines hraw) past
      rw [run_dispatch, hfirst] at hturn
      by_cases hbye : lineText l = S.bye
      · rw [if_pos (hl.bye_iff.mpr hbye)] at hturn
        refine ⟨1, _, execute_exit hturn 0, ?_⟩
        rw [linesTrace, if_pos hbye]
      · rw [if_neg (fun h => hbye (hl.bye_iff.mp h)), hl.lineTrace_eq] at hturn
        obtain ⟨fuel, s, hrun, htrace⟩ := ih (fgets 99 stdin).2 _ hrest (by
          intro l' hl'
          refine hfits l' ?_
          rw [linesRead, if_neg hbye]
          exact List.mem_cons_of_mem l hl')
        refine ⟨fuel + 1, s, (execute_goto hturn fuel).trans hrun, ?_⟩
        rw [linesTrace, if_neg hbye]
        exact htrace

/-! ## §4. The first line that does not fit. -/

theorem lineTrace_grows (past : List (Effect Empty)) (text : CString) :
    past <+: S.lineTrace K past text := by
  unfold lineTrace
  split
  · obtain ⟨failed, hforked⟩ := commandTrace_forked K past _ _ _ _
    exact (List.prefix_append _ _).trans hforked
  · exact List.prefix_append _ _

theorem linesTrace_grows (ls : List (List UInt8)) : ∀ past : List (Effect Empty),
    past <+: S.linesTrace K past ls := by
  induction ls with
  | nil => exact fun past => List.prefix_append _ _
  | cons l ls ih =>
      intro past
      unfold linesTrace
      refine (List.prefix_append past [.printed S.prompt, .got (some l)]).trans ?_
      split
      · exact List.prefix_append _ _
      · exact (lineTrace_grows _ _).trans (ih _)

/-- A line that `strcmp` takes for a known word. -/
theorem run_hidden {l stdin : List UInt8} (hknown : S.Known (cString (lineText l)))
    (past : List (Effect Empty)) :
    ∃ e, e ≠ .printed (str "Not Supported\n") ∧
      past ++ [e] <+: ((S.dispatch l).run K ⟨stdin, 0, past⟩).2.events := by
  rw [run_dispatch]
  by_cases hbye : cString (lineText l) = S.bye
  · rw [if_pos hbye]
    refine ⟨.printed S.farewell, ?_, List.prefix_refl _⟩
    intro h
    injection h with h
    exact S.farewell_ne h
  · rw [if_neg hbye]
    obtain ⟨c, hc, hword⟩ := hknown.resolve_left hbye
    have hsome : (S.commands.find? (·.word == cString (lineText l))).isSome = true := by
      rw [List.find?_isSome]
      exact ⟨c, hc, by simpa using hword⟩
    obtain ⟨c', hc'⟩ := Option.isSome_iff_exists.mp hsome
    obtain ⟨failed, hforked⟩ := commandTrace_forked K past c'.entering c'.path c'.argv
      c'.failure
    refine ⟨.forked failed, ?_, ?_⟩
    · intro h
      cases h
    · simp only [lineTrace, hc']
      exact hforked

/-- **WHERE A LINE DOES NOT FIT**, every run has another trace. -/
theorem runs_not_lines (ls : List (List UInt8)) :
    ∀ (stdin : List UInt8) (past : List (Effect Empty)) (fuel : Nat) (stop : Stop Label)
      (s : Console Empty), rawLines stdin = ls → (∃ l ∈ S.linesRead ls, ¬ S.Fits l) →
      execute K S.code fuel .prompt ⟨stdin, 0, past⟩ = some (stop, s) →
      s.events ≠ S.linesTrace K past ls := by
  induction ls with
  | nil =>
      rintro stdin past fuel stop s hraw ⟨l, hl, -⟩
      cases hl
  | cons l ls ih =>
      rintro stdin past fuel stop s hraw ⟨l', hl', hbad⟩ hrun
      have hturn := run_body (S := S) (K := K) (ne_nil_of_rawLines hraw) past
      -- the first turn of the run, and of the trace it should have
      have hfirst := execute_first_turn hrun
      have hspec : past ++ [Effect.printed S.prompt, Effect.got (some l)]
          <+: S.linesTrace K past (l :: ls) := by
        unfold linesTrace
        split
        · exact List.prefix_append _ _
        · exact (lineTrace_grows _ _).trans (linesTrace_grows _ _)
      by_cases hlen : l.length ≤ 99
      · obtain ⟨hgot, hrest⟩ := fgets_line hraw hlen
        rw [hgot] at hturn
        by_cases hl : S.Fits l
        · -- the line at fault is a later one
          rw [run_dispatch] at hturn
          by_cases hbye : lineText l = S.bye
          · rw [linesRead, if_pos hbye, List.mem_singleton] at hl'
            exact absurd (hl' ▸ hl) hbad
          · rw [if_neg (fun h => hbye (hl.bye_iff.mp h)), hl.lineTrace_eq] at hturn
            rw [linesRead, if_neg hbye] at hl'
            have hlater : l' ∈ S.linesRead ls := by
              rcases List.mem_cons.mp hl' with rfl | hmem
              · exact absurd hl hbad
              · exact hmem
            rw [linesTrace, if_neg hbye]
            cases fuel with
            | zero => exact nomatch hrun
            | succ fuel =>
                rw [execute_goto hturn] at hrun
                exact ih _ _ fuel stop s hrest ⟨l', hlater, hbad⟩ hrun
        · -- a NUL hides the rest of the line
          obtain ⟨hknown, hne⟩ := Classical.not_imp.mp (fun h => hl ⟨hlen, h⟩)
          have hnot : ¬ S.Known (lineText l) := fun h => hne (cString_of_not_mem h.nul_free)
          obtain ⟨e, he, hfront⟩ := run_hidden (K := K) (l := l) hknown
            (past ++ [Effect.printed S.prompt, Effect.got (some l)])
          refine ne_of_prefix (hfront.trans (hturn ▸ hfirst)) ?_ he
          rw [linesTrace, if_neg (fun h => hnot (Or.inl h)), lineTrace_of_not_known hnot]
          exact linesTrace_grows _ _
      · -- only a part of the line is read
        have hgot : (fgets 99 stdin).1 ≠ l := fgets_ne_line (Nat.lt_of_not_le hlen) stdin
        have hread : past ++ [Effect.printed S.prompt, Effect.got (some (fgets 99 stdin).1)]
            <+: s.events := by
          refine List.IsPrefix.trans ?_ hfirst
          show _ <+: (S.body.run K ⟨stdin, 0, past⟩).2.events
          rw [hturn]
          exact Code.run_grows (K := K) (S.dispatch (fgets 99 stdin).1) ⟨_, 0, _⟩
        rw [List.append_cons] at hread hspec
        refine ne_of_prefix hread hspec ?_
        intro h
        injection h with h
        injection h with h
        exact hgot h

/-- **ONE LINE IS ONE COMMAND EXACTLY** when every line that is read fits. -/
theorem oneCommandAlone_iff (S : LineShell) (stdin : List UInt8) :
    S.OneCommandAlone stdin ↔ ∀ l ∈ S.linesRead (rawLines stdin), S.Fits l := by
  -- the first turn prints the greeting
  have hmain : ∀ K : Oracle Empty, (S.code .main).run K (Console.start stdin)
      = (.goto .prompt, ⟨stdin, 0, S.greeting.map .printed⟩) := by
    intro K
    exact run_printAll K S.greeting (.goto Label.prompt) (Console.start stdin)
  constructor
  · intro h
    by_contra hall
    obtain ⟨l, hl⟩ := not_forall.mp hall
    obtain ⟨hmem, hbad⟩ := Classical.not_imp.mp hl
    let K : Oracle Empty := ⟨fun _ => false, fun _ => false, fun _ c => c.elim⟩
    obtain ⟨fuel, s, hrun, htrace⟩ := h K
    cases fuel with
    | zero => exact nomatch hrun
    | succ fuel =>
        rw [execute_goto (hmain K)] at hrun
        exact runs_not_lines _ stdin _ fuel _ s rfl ⟨l, hmem, hbad⟩ hrun htrace
  · intro hfits K
    obtain ⟨fuel, s, hrun, htrace⟩ :=
      runs_lines (K := K) _ stdin (S.greeting.map .printed) rfl hfits
    exact ⟨fuel + 1, s, (execute_goto (hmain K) fuel).trans hrun, htrace⟩

end LineShell

end ConcurrencyCrypto.Shells
