/-
  ConcurrencyCrypto.Shells.CatalogLines
  ─────────────────────────────────────
  **`catalog_shell` OBEYS ITS GRAMMAR EXACTLY** on the inputs whose lines, up
  to the end of the shell, are all answered whole.

  Between two turns the input begins with the white space that the last line
  has left, and `scanf` skips it:

    • `runs_catalog`           — then every line is answered as it should be,
    • `runs_not_catalog`       — a line with more words than its branch reads
                                 has its next word taken for a command,
    • `oneAnswerAlone_iff`     — so much for an input of its own, of which
                                 nobody else reads; `Shells.SharedInput` says
                                 when the shell has one.
-/
import ConcurrencyCrypto.Shells.CatalogGrammar

namespace ConcurrencyCrypto.Shells

open ConcurrencyCrypto.Library

/-! ## §1. Inputs. -/

/-- Lines that fit into the buffers: `char line[200]`, and `char[100]` for
every word. -/
def ShortLines (ls : List (List UInt8)) : Prop :=
  ∀ l ∈ ls, (lineText l).length < 200 ∧ ∀ w ∈ words l, w.length < 100

instance (ls : List (List UInt8)) : Decidable (ShortLines ls) :=
  inferInstanceAs (Decidable (∀ l ∈ ls, _))

/-- The rest of a short line is read whole, and its words fit. -/
theorem read_behind {input l w : List UInt8} {ls ws : List (List UInt8)}
    (hraw : rawLines input = l :: ls) (hw : words l = w :: ws) (hshort : ShortLines (l :: ls))
    {rest : List UInt8} (hrest : rawLines (behind l ++ rest) = behind l :: ls) :
    (fgets 199 (behind l ++ rest)).1 = behind l ∧
      rawLines (fgets 199 (behind l ++ rest)).2 = ls ∧
        ∀ v ∈ words (cString (behind l)), v.length < 100 := by
  obtain ⟨htext, hwords⟩ := hshort l List.mem_cons_self
  have hlen : (behind l).length ≤ 199 := by
    have hlt := behind_length_lt hw
    have hle := length_le_lineText hraw
    omega
  obtain ⟨hfirst, hlines⟩ := fgets_line hrest hlen
  refine ⟨hfirst, hlines, ?_⟩
  intro v hv
  obtain ⟨v', hv', hle⟩ := words_prefix_le (List.takeWhile_prefix (· != 0)) hv
  rw [(words_behind hw).2] at hv'
  have := hwords v' (by rw [hw]; exact List.mem_cons_of_mem w hv')
  omega

theorem ShortLines.tail {l : List UInt8} {ls : List (List UInt8)} (h : ShortLines (l :: ls)) :
    ShortLines ls := fun l' hl' => h l' (List.mem_cons_of_mem l hl')

/-- A line that does not end the shell. -/
theorem catalogLinesRead_cons {l : List UInt8} {ls : List (List UInt8)}
    (h : ∀ w ws, words l = w :: ws → cString w ≠ str "Esc") :
    catalogLinesRead (l :: ls) = l :: catalogLinesRead ls := by
  rw [catalogLinesRead, if_neg]
  intro hesc
  cases hwords : words l with
  | nil =>
      rw [hwords] at hesc
      cases hesc
  | cons w ws =>
      rw [hwords] at hesc
      injection hesc with hesc
      exact h w ws hwords hesc

theorem catalogLinesRead_esc {l w : List UInt8} {ls ws : List (List UInt8)}
    (hw : words l = w :: ws) (hesc : cString w = str "Esc") : catalogLinesRead (l :: ls) = [l] := by
  rw [catalogLinesRead, hw]
  exact if_pos (congrArg some hesc)

theorem answeredWhole_esc {l w : List UInt8} {ws : List (List UInt8)}
    (hw : words l = w :: ws) (hesc : cString w = str "Esc") : AnsweredWhole l := by
  intro w' hw' hne
  rw [hw] at hw'
  injection hw' with hw'
  exact absurd (hw' ▸ hesc) hne

theorem answeredWhole_iff {l w : List UInt8} {ws : List (List UInt8)} (hw : words l = w :: ws)
    (hesc : cString w ≠ str "Esc") :
    AnsweredWhole l ↔ (cString w ∈ catalogWords → behind l ≠ []) ∧
      (cString w ∉ catalogWords → ws = []) := by
  unfold AnsweredWhole
  rw [hw]
  constructor
  · intro h
    exact h w rfl hesc
  · intro h w' hw' _
    injection hw' with hw'
    exact hw' ▸ h

/-- The two ways a line is not answered whole. -/
theorem not_answeredWhole {l w : List UInt8} {ws : List (List UInt8)} (hw : words l = w :: ws)
    (hesc : cString w ≠ str "Esc") (h : ¬ AnsweredWhole l) :
    (cString w ∈ catalogWords ∧ behind l = []) ∨ (cString w ∉ catalogWords ∧ ws ≠ []) := by
  rw [answeredWhole_iff hw hesc] at h
  by_cases hcommand : cString w ∈ catalogWords
  · refine Or.inl ⟨hcommand, ?_⟩
    by_contra hne
    exact h ⟨fun _ => hne, fun hnot => absurd hcommand hnot⟩
  · refine Or.inr ⟨hcommand, ?_⟩
    intro hnil
    exact h ⟨fun hmem => absurd hmem hcommand, fun _ => hnil⟩

/-- What the trace of a line with a word in it is. -/
theorem catalogTrace_word {K : Oracle Empty} {l w : List UInt8} {ls ws : List (List UInt8)}
    (hw : words l = w :: ws) (hesc : cString w ≠ str "Esc") (past : List (Effect Empty)) :
    catalogTrace K past (l :: ls) = catalogTrace K (catalogAnswer K (past ++
      [.printed (str "Catalog$** "), .scanned [w] ((behind l).length + ls.flatten.length)])
      (cString w) (words (cString (behind l)))) ls := by
  rw [catalogTrace, hw]
  exact if_neg hesc

theorem catalogAnswer_unknown {K : Oracle Empty} {command : CString}
    (hcommand : command ∉ catalogWords) (past : List (Effect Empty)) (params : List CString) :
    catalogAnswer K past command params = past ++ [Effect.printed (str "Not Supported\n")] := by
  simp only [catalogWords, List.mem_cons, List.not_mem_nil, or_false, not_or] at hcommand
  obtain ⟨hfind, hls, hnewcat, hrun⟩ := hcommand
  unfold catalogAnswer
  rw [if_neg hfind, if_neg hls, if_neg hnewcat, if_neg hrun]

/-! ## §2. Lines that are answered whole. -/

section runs
variable {K : Oracle Empty}

/-- The command word of a line is read. -/
theorem run_line {rest l w : List UInt8} {ls ws : List (List UInt8)} {blank : List UInt8}
    (hblank : ∀ b ∈ blank, isspace b = true) (hraw : rawLines rest = l :: ls)
    (hshort : ShortLines (l :: ls)) (hw : words l = w :: ws) (past : List (Effect Empty)) :
    ∃ rest', rawLines rest' = ls ∧ (behind l = [] → rest' = []) ∧
      (behind l ≠ [] → rawLines (behind l ++ rest') = behind l :: ls) ∧
      (catalog_shell ()).run K ⟨blank ++ rest, 0, past⟩
        = (catalogCommand (cString w)).run K ⟨behind l ++ rest', 0, past ++
            [.printed (str "Catalog$** "),
              .scanned [w] ((behind l).length + ls.flatten.length)]⟩ := by
  obtain ⟨rest', hscan, hrest', hnil, hne⟩ := scanWord_line hraw hw
  refine ⟨rest', hrest', hnil, hne, ?_⟩
  have hlong : w.length < 100 :=
    (hshort l List.mem_cons_self).2 w (by rw [hw]; exact List.mem_cons_self)
  rw [run_catalog_word ((scanWord_blank hblank rest).trans hscan) hlong, List.length_append,
    ← hrest', flatten_rawLines]

/-- The trace when the word `w` of a line is read, with the line's rest and
`ls` behind it. -/
def wordRead (past : List (Effect Empty)) (w l : List UInt8) (ls : List (List UInt8)) :
    List (Effect Empty) :=
  past ++ [Effect.printed (str "Catalog$** "),
    Effect.scanned [w] ((behind l).length + ls.flatten.length)]

theorem seen_wordRead (past : List (Effect Empty)) (w l : List UInt8) (ls : List (List UInt8)) :
    seen (wordRead past w l ls) = wordRead (seen past) w l ls := seen_append past _

/-- **A LINE THAT IS ANSWERED WHOLE**: behind its turn only white space is
left of it. -/
theorem run_whole {rest l w : List UInt8} {ls ws : List (List UInt8)} {blank : List UInt8}
    (hblank : ∀ b ∈ blank, isspace b = true) (hraw : rawLines rest = l :: ls)
    (hshort : ShortLines (l :: ls)) (hw : words l = w :: ws) (hesc : cString w ≠ str "Esc")
    (hwhole : AnsweredWhole l) (past : List (Effect Empty)) :
    ∃ blank' rest' events, (∀ b ∈ blank', isspace b = true) ∧ rawLines rest' = ls ∧
      (catalog_shell ()).run K ⟨blank ++ rest, 0, past⟩
        = (.goto (), ⟨blank' ++ rest', 0, events⟩) ∧
      seen events = catalogAnswer K (wordRead (seen past) w l ls) (cString w)
        (words (cString (behind l))) := by
  obtain ⟨rest', hrest', hnil, hne, hturn⟩ := run_line (K := K) hblank hraw hshort hw past
  rw [answeredWhole_iff hw hesc] at hwhole
  rw [hturn, ← seen_wordRead]
  by_cases hcommand : cString w ∈ catalogWords
  · have hwhole := hwhole.1 hcommand
    obtain ⟨hfirst, hlines, hfit⟩ := read_behind hraw hw hshort (hne hwhole)
    have hstdin : behind l ++ rest' ≠ [] := fun h => hwhole (List.append_eq_nil_iff.mp h).1
    obtain ⟨events, hrun, hseen⟩ := does_known (K := K) hstdin (by rw [hfirst]; exact hfit) hcommand
      (wordRead past w l ls)
    rw [hfirst] at hseen
    exact ⟨[], (fgets 199 (behind l ++ rest')).2, events, List.forall_mem_nil _, hlines, hrun,
      hseen⟩
  · have hspace := isspace_of_words_eq_nil ((words_behind hw).2.trans (hwhole.2 hcommand))
    rw [catalogCommand_unknown hesc hcommand, catalogAnswer_unknown hcommand]
    refine ⟨behind l, rest',
      wordRead past w l ls ++ [Effect.printed (str "Not Supported\n")], hspace,
      hrest', rfl, ?_⟩
    rw [seen_append]
    rfl

/-- **WHERE EVERY LINE IS ANSWERED WHOLE**, the run has the trace it should
have. -/
theorem runs_catalog (ls : List (List UInt8)) :
    ∀ (blank rest : List UInt8) (past : List (Effect Empty)),
      (∀ b ∈ blank, isspace b = true) → rawLines rest = ls → ShortLines ls →
      (∀ l ∈ catalogLinesRead ls, AnsweredWhole l) →
      ∃ fuel s, execute K catalog_shell fuel () ⟨blank ++ rest, 0, past⟩ = some (.exited 0, s) ∧
        seen s.events = catalogTrace K (seen past) ls := by
  induction ls with
  | nil =>
      intro blank rest past hblank hraw _ _
      have hscan : scanWord (blank ++ rest) = none := by
        rw [scanWord_blank hblank, rawLines_eq_nil.mp hraw]
        rfl
      refine ⟨1, _, execute_exit (run_catalog_end hscan past) 0, ?_⟩
      rw [seen_append]
      rfl
  | cons l ls ih =>
      intro blank rest past hblank hraw hshort hwhole
      cases hw : words l with
      | nil =>
          -- the line joins the white space
          obtain ⟨rest', rfl, hrest', -⟩ := rawLines_cons hraw
          have hl := isspace_of_words_eq_nil hw
          rw [catalogLinesRead_cons (by rw [hw]; intro w ws h; cases h)] at hwhole
          obtain ⟨fuel, s, hrun, htrace⟩ := ih (blank ++ l) rest' past
            (fun b hb => (List.mem_append.mp hb).elim (hblank b) (hl b)) hrest' hshort.tail
            (fun l' hl' => hwhole l' (List.mem_cons_of_mem l hl'))
          refine ⟨fuel, s, by rw [← List.append_assoc]; exact hrun, ?_⟩
          rw [htrace, catalogTrace, hw]
      | cons w ws =>
          by_cases hesc : cString w = str "Esc"
          · -- the shell ends
            obtain ⟨rest', -, -, -, hturn⟩ := run_line (K := K) hblank hraw hshort hw past
            rw [hesc, catalogCommand_esc] at hturn
            refine ⟨1, _, execute_exit (hturn.trans rfl) 0, ?_⟩
            rw [catalogTrace, hw, Console.emit_events, seen_append]
            show seen (wordRead past w l ls) ++ _ = if cString w = str "Esc" then _ else _
            rw [if_pos hesc, seen_wordRead]
            rfl
          · rw [catalogLinesRead_cons (by rw [hw]; intro w' ws' h; cases h; exact hesc)] at hwhole
            obtain ⟨blank', rest', events, hblank', hrest', hturn, hseen⟩ := run_whole (K := K)
              hblank hraw hshort hw hesc (hwhole l List.mem_cons_self) past
            obtain ⟨fuel, s, hrun, htrace⟩ := ih blank' rest' events hblank' hrest' hshort.tail
              (fun l' hl' => hwhole l' (List.mem_cons_of_mem l hl'))
            refine ⟨fuel + 1, s, (execute_goto hturn fuel).trans hrun, ?_⟩
            rw [htrace, hseen, catalogTrace_word hw hesc]
            rfl

/-! ## §3. The first line that is not answered whole. -/

theorem catalogAnswer_grows (past : List (Effect Empty)) (command : CString)
    (params : List CString) : past <+: catalogAnswer K past command params := by
  have hcommand : ∀ path argv failure, past <+: commandTrace K past [] path argv failure := by
    intro path argv failure
    obtain ⟨failed, hforked⟩ := commandTrace_forked K past [] path argv failure
    exact (List.prefix_append _ _).trans hforked
  unfold catalogAnswer
  split
  · split
    · exact hcommand _ _ _
    · exact List.prefix_append _ _
  · split
    · split
      · split
        · exact hcommand _ _ _
        · exact List.prefix_append _ _
      · exact List.prefix_append _ _
    · split
      · split
        · exact hcommand _ _ _
        · exact List.prefix_append _ _
      · split
        · split
          · exact hcommand _ _ _
          · exact List.prefix_append _ _
        · exact List.prefix_append _ _

/-- A command with no parameters at all. -/
theorem catalogAnswer_bare {command : CString} (hcommand : command ∈ catalogWords)
    (past : List (Effect Empty)) :
    catalogAnswer K past command [] = past ++ [Effect.printed (str "Missing parameters\n")] := by
  have hcases : command = str "find" ∨ command = str "ls" ∨ command = str "newcat" ∨
      command = str "run" := by simpa [catalogWords] using hcommand
  unfold catalogAnswer
  rcases hcases with rfl | rfl | rfl | rfl
  · rw [if_pos rfl]
  · rw [if_neg (by decide), if_pos rfl]
  · rw [if_neg (by decide), if_neg (by decide), if_pos rfl]
  · rw [if_neg (by decide), if_neg (by decide), if_neg (by decide), if_pos rfl]

theorem catalogTrace_grows (ls : List (List UInt8)) : ∀ past : List (Effect Empty),
    past <+: catalogTrace K past ls := by
  induction ls with
  | nil => exact fun past => List.prefix_append _ _
  | cons l ls ih =>
      intro past
      cases hw : words l with
      | nil =>
          rw [catalogTrace, hw]
          exact ih past
      | cons w ws =>
          by_cases hesc : cString w = str "Esc"
          · rw [catalogTrace, hw]
            show past <+: if cString w = str "Esc" then _ else _
            rw [if_pos hesc, List.append_assoc]
            exact List.prefix_append _ _
          · rw [catalogTrace_word hw hesc]
            exact (List.prefix_append _ _).trans ((catalogAnswer_grows _ _ _).trans (ih _))

/-- **THE NEXT COMMAND WORD** of the trace is in the lines, or there is
none. -/
theorem catalogTrace_begins (ls : List (List UInt8)) : ∀ past : List (Effect Empty),
    ∃ stored left, (stored = [] ∨ left < ls.flatten.length) ∧
      past ++ [Effect.printed (str "Catalog$** ")] ++ [Effect.scanned stored left]
        <+: catalogTrace K past ls := by
  induction ls with
  | nil =>
      intro past
      refine ⟨[], 0, Or.inl rfl, ?_⟩
      rw [List.append_assoc]
      exact List.prefix_refl _
  | cons l ls ih =>
      intro past
      cases hw : words l with
      | nil =>
          obtain ⟨stored, left, hleft, hfront⟩ := ih past
          refine ⟨stored, left, ?_, ?_⟩
          · rw [List.flatten_cons, List.length_append]
            rcases hleft with hnil | hlt
            · exact Or.inl hnil
            · exact Or.inr (by omega)
          · rw [catalogTrace, hw]
            exact hfront
      | cons w ws =>
          refine ⟨[w], (behind l).length + ls.flatten.length, Or.inr ?_, ?_⟩
          · have hlt := behind_length_lt hw
            rw [List.flatten_cons, List.length_append]
            omega
          · rw [List.append_assoc]
            by_cases hesc : cString w = str "Esc"
            · rw [catalogTrace, hw]
              show _ <+: if cString w = str "Esc" then _ else _
              rw [if_pos hesc]
              exact List.prefix_append _ _
            · rw [catalogTrace_word hw hesc]
              exact (catalogAnswer_grows _ _ _).trans (catalogTrace_grows _ _)

/-- A command at the end of the input: `fgets` returns NULL. -/
theorem run_bare {command : CString} (hcommand : command ∈ catalogWords)
    (past : List (Effect Empty)) :
    (catalogCommand command).run K ⟨[], 0, past⟩
      = (.exited 0, ⟨[], 0, past ++ [Effect.got none]⟩) := by
  have hcases : command = str "find" ∨ command = str "ls" ∨ command = str "newcat" ∨
      command = str "run" := by simpa [catalogWords] using hcommand
  unfold catalogCommand
  rcases hcases with rfl | rfl | rfl | rfl
  · rw [if_neg (by decide), if_pos rfl]
    rfl
  · rw [if_neg (by decide), if_neg (by decide), if_pos rfl]
    rfl
  · rw [if_neg (by decide), if_neg (by decide), if_neg (by decide), if_pos rfl]
    rfl
  · rw [if_neg (by decide), if_neg (by decide), if_neg (by decide), if_neg (by decide),
      if_pos rfl]
    rfl

theorem seen_prefix {past events : List (Effect Empty)} (h : past <+: events) :
    seen past <+: seen events := h.filter _

/-- **A FURTHER WORD BEHIND A WORD THAT IS NO COMMAND** is the next command
word. -/
theorem run_further {rest l w v : List UInt8} {ls ws : List (List UInt8)} {blank : List UInt8}
    (hblank : ∀ b ∈ blank, isspace b = true) (hraw : rawLines rest = l :: ls)
    (hshort : ShortLines (l :: ls)) (hw : words l = w :: v :: ws) (hesc : cString w ≠ str "Esc")
    (hcommand : cString w ∉ catalogWords) (past : List (Effect Empty)) {fuel : Nat}
    {stop : Stop Unit} {s : Console Empty}
    (h : execute K catalog_shell fuel () ⟨blank ++ rest, 0, past⟩ = some (stop, s)) :
    ∃ left, ls.flatten.length ≤ left ∧
      wordRead (seen past) w l ls ++ [Effect.printed (str "Not Supported\n")] ++
        [.printed (str "Catalog$** ")] ++ [Effect.scanned [v] left] <+: seen s.events := by
  obtain ⟨rest', hrest', -, hne, hturn⟩ := run_line (K := K) hblank hraw hshort hw past
  have hv := (words_behind hw).2
  have hbehind : behind l ≠ [] := by
    intro hnil
    rw [hnil] at hv
    cases hv
  rw [catalogCommand_unknown hesc hcommand] at hturn
  have hturn' : (catalog_shell ()).run K ⟨blank ++ rest, 0, past⟩ = (.goto (),
      ⟨behind l ++ rest', 0, wordRead past w l ls ++ [Effect.printed (str "Not Supported\n")]⟩) :=
    hturn.trans rfl
  obtain ⟨rest'', hscan, hrest'', -, -⟩ := scanWord_line (hne hbehind) hv
  have hlong : v.length < 100 :=
    (hshort l List.mem_cons_self).2 v (by rw [hw]; exact List.mem_cons_of_mem w List.mem_cons_self)
  cases fuel with
  | zero => exact nomatch h
  | succ fuel =>
      rw [execute_goto hturn'] at h
      have hfirst := execute_first_turn h
      rw [run_catalog_word hscan hlong] at hfirst
      refine ⟨(behind (behind l) ++ rest'').length, ?_, ?_⟩
      · rw [List.length_append, ← hrest'', flatten_rawLines]
        omega
      · have hgrow := seen_prefix (((catalogCommand (cString v)).run_grows (K := K) _).trans hfirst)
        rw [seen_append, seen_append, seen_wordRead] at hgrow
        rw [List.append_assoc (wordRead (seen past) w l ls ++ _)]
        exact hgrow

/-- A command with nothing behind it in the input is not answered: the shell
ends. -/
theorem bare_not_trace {rest l w : List UInt8} {ls ws : List (List UInt8)} {blank : List UInt8}
    (hblank : ∀ b ∈ blank, isspace b = true) (hraw : rawLines rest = l :: ls)
    (hshort : ShortLines (l :: ls)) (hw : words l = w :: ws) (hcommand : cString w ∈ catalogWords)
    (hbehind : behind l = []) (past : List (Effect Empty)) {fuel : Nat} {stop : Stop Unit}
    {s : Console Empty}
    (h : execute K catalog_shell fuel () ⟨blank ++ rest, 0, past⟩ = some (stop, s)) :
    seen s.events ≠ catalogTrace K (catalogAnswer K (wordRead (seen past) w l ls) (cString w)
      (words (cString (behind l)))) ls := by
  obtain ⟨rest', -, hnil, -, hturn⟩ := run_line (K := K) hblank hraw hshort hw past
  have hstdin : behind l ++ rest' = [] := by
    rw [hbehind, hnil hbehind]
    rfl
  rw [hstdin, run_bare hcommand] at hturn
  cases fuel with
  | zero => exact nomatch h
  | succ fuel =>
      rw [execute_exit hturn] at h
      cases h
      have hparams : words (cString (behind l)) = [] := by
        rw [hbehind]
        rfl
      have hspec := catalogTrace_grows (K := K) ls
        (catalogAnswer K (wordRead (seen past) w l ls) (cString w) [])
      rw [hparams]
      intro heq
      -- the trace goes on with a message, the run does not
      rw [← heq, catalogAnswer_bare hcommand] at hspec
      have hend : seen (wordRead past w l ls ++ [Effect.got none])
          = wordRead (seen past) w l ls := by
        rw [seen_append, seen_wordRead]
        exact List.append_nil _
      have hlen := hspec.length_le.trans_eq (congrArg List.length hend)
      rw [List.length_append, List.length_singleton] at hlen
      omega

/-- A further word behind a word that is no command is taken for a command. -/
theorem further_not_trace {rest l w v : List UInt8} {ls ws : List (List UInt8)}
    {blank : List UInt8} (hblank : ∀ b ∈ blank, isspace b = true)
    (hraw : rawLines rest = l :: ls) (hshort : ShortLines (l :: ls)) (hw : words l = w :: v :: ws)
    (hesc : cString w ≠ str "Esc") (hcommand : cString w ∉ catalogWords)
    (past : List (Effect Empty)) {fuel : Nat} {stop : Stop Unit} {s : Console Empty}
    (h : execute K catalog_shell fuel () ⟨blank ++ rest, 0, past⟩ = some (stop, s)) :
    seen s.events ≠ catalogTrace K (catalogAnswer K (wordRead (seen past) w l ls) (cString w)
      (words (cString (behind l)))) ls := by
  obtain ⟨left, hleft, hfront⟩ := run_further hblank hraw hshort hw hesc hcommand past h
  rw [catalogAnswer_unknown hcommand]
  obtain ⟨stored, left', hstored, hspec⟩ := catalogTrace_begins (K := K) ls
    (wordRead (seen past) w l ls ++ [Effect.printed (str "Not Supported\n")])
  refine ne_of_prefix hfront hspec ?_
  intro heq
  injection heq with hstored' hleft'
  -- the trace's next word comes from a later line
  rcases hstored with hnil | hlt
  · rw [hnil] at hstored'
    cases hstored'
  · omega

/-- **WHERE A LINE IS NOT ANSWERED WHOLE**, every run has another trace. -/
theorem runs_not_catalog (ls : List (List UInt8)) :
    ∀ (blank rest : List UInt8) (past : List (Effect Empty)) (fuel : Nat) (stop : Stop Unit)
      (s : Console Empty),
      (∀ b ∈ blank, isspace b = true) → rawLines rest = ls → ShortLines ls →
      (∃ l ∈ catalogLinesRead ls, ¬ AnsweredWhole l) →
      execute K catalog_shell fuel () ⟨blank ++ rest, 0, past⟩ = some (stop, s) →
      seen s.events ≠ catalogTrace K (seen past) ls := by
  induction ls with
  | nil =>
      intro blank rest past fuel stop s _ _ _ hbad _
      obtain ⟨l, hl, -⟩ := hbad
      cases hl
  | cons l ls ih =>
      intro blank rest past fuel stop s hblank hraw hshort hbad hrun
      obtain ⟨l', hl', hbad⟩ := hbad
      cases hw : words l with
      | nil =>
          obtain ⟨rest', rfl, hrest', -⟩ := rawLines_cons hraw
          have hl := isspace_of_words_eq_nil hw
          rw [catalogLinesRead_cons (by rw [hw]; intro w ws h; cases h)] at hl'
          have hlater : l' ∈ catalogLinesRead ls := by
            rcases List.mem_cons.mp hl' with heq | hmem
            · refine absurd ?_ hbad
              intro w hmem
              rw [heq, hw] at hmem
              cases hmem
            · exact hmem
          rw [← List.append_assoc] at hrun
          rw [catalogTrace, hw]
          exact ih (blank ++ l) rest' past fuel stop s
            (fun b hb => (List.mem_append.mp hb).elim (hblank b) (hl b)) hrest' hshort.tail
            ⟨l', hlater, hbad⟩ hrun
      | cons w ws =>
          by_cases hesc : cString w = str "Esc"
          · -- the line that ends the shell is answered
            rw [catalogLinesRead_esc hw hesc, List.mem_singleton] at hl'
            rw [hl'] at hbad
            exact absurd (answeredWhole_esc hw hesc) hbad
          · rw [catalogLinesRead_cons (by rw [hw]; intro w' ws' h; cases h; exact hesc)] at hl'
            by_cases hwhole : AnsweredWhole l
            · have hlater : l' ∈ catalogLinesRead ls := by
                rcases List.mem_cons.mp hl' with heq | hmem
                · exact absurd (heq ▸ hwhole) hbad
                · exact hmem
              obtain ⟨blank', rest', events, hblank', hrest', hturn, hseen⟩ := run_whole (K := K)
                hblank hraw hshort hw hesc hwhole past
              cases fuel with
              | zero => exact nomatch hrun
              | succ fuel =>
                  rw [execute_goto hturn] at hrun
                  rw [catalogTrace_word hw hesc]
                  have hne := ih blank' rest' events fuel stop s hblank' hrest' hshort.tail
                    ⟨l', hlater, hbad⟩ hrun
                  rw [hseen] at hne
                  exact hne
            · -- this line is at fault
              rw [catalogTrace_word hw hesc]
              rcases not_answeredWhole hw hesc hwhole with ⟨hcommand, hbehind⟩ | ⟨hcommand, hmore⟩
              · exact bare_not_trace hblank hraw hshort hw hcommand hbehind past hrun
              · obtain ⟨v, vs, rfl⟩ := List.exists_cons_of_ne_nil hmore
                exact further_not_trace hblank hraw hshort hw hesc hcommand past hrun

end runs

/-! ## §4. The shell. -/

/-- **THE GRAMMAR IS OBEYED EXACTLY** when, up to the first line that begins
with `Esc`, every line is answered whole. -/
theorem oneAnswerAlone_iff (stdin : List UInt8) (hshort : ShortLines (rawLines stdin)) :
    OneAnswerAlone stdin ↔ ∀ l ∈ catalogLinesRead (rawLines stdin), AnsweredWhole l := by
  constructor
  · intro h
    by_contra hall
    obtain ⟨l, hl⟩ := not_forall.mp hall
    obtain ⟨hmem, hbad⟩ := Classical.not_imp.mp hl
    let K : Oracle Empty := ⟨fun _ => false, fun _ => false, fun _ c => c.elim⟩
    obtain ⟨fuel, s, hrun, htrace⟩ := h K
    exact runs_not_catalog _ [] stdin [] fuel _ s (List.forall_mem_nil _) rfl hshort
      ⟨l, hmem, hbad⟩ hrun htrace
  · intro hwhole K
    exact runs_catalog (K := K) _ [] stdin [] (List.forall_mem_nil _) rfl hshort hwhole

end ConcurrencyCrypto.Shells
