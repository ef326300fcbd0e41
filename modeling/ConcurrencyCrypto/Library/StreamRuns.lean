/-
  ConcurrencyCrypto.Library.StreamRuns
  ────────────────────────────────────
  **PROGRAMS ON THE STREAMS THEY SHARE WITH THEIR CHILDREN.**

  `Code.runOn` is `Code.run` with the standard input and output as they are:
  the open file that parent and child share, and the buffers that `fork`
  copies.  A child runs to its end before its parent goes on; in the programs
  here the parent waits for it at once.

  `Code.run` has a text for its input, of which only the process itself takes.
  That is what `Code.runOn` comes to in surroundings that leave the input
  alone, for programs whose children read nothing:

    • `Code.runOn_shows`      — one turn,
    • `executeOn_iff_execute` — whole runs; and every line that is printed
                                is written once.
-/
import ConcurrencyCrypto.Library.Programs
import ConcurrencyCrypto.Library.Streams

namespace ConcurrencyCrypto.Library

variable {L C : Type}

/-! ## §1. One turn. -/

/-- A process with its streams. -/
structure Streams (C : Type) where
  stdin : Input
  stdout : Output
  /-- The children that have ended and not been waited for. -/
  zombies : Nat
  events : List (Effect C)

namespace Streams

def start (E : Surroundings) (stdin : List UInt8) : Streams C :=
  ⟨Input.start E stdin, ⟨[], []⟩, 0, []⟩

def emit (s : Streams C) (e : Effect C) : Streams C := { s with events := s.events ++ [e] }

/-- `exit`. -/
def exit (s : Streams C) : Streams C :=
  { s with stdin := s.stdin.giveBack, stdout := s.stdout.flush }

/-- Another program has taken the place of the process, and has ended. -/
def replaced (E : Surroundings) (s : Streams C) : Streams C :=
  { s with
    stdin := { s.stdin with
      file := E.leaves (s.events.countP Effect.isExec) s.stdin.file }
    stdout := { s.stdout with pending := [] } }

/-- The parent, when its child has come to `child`. -/
def after (s child : Streams C) : Streams C where
  stdin := ⟨s.stdin.unread, child.stdin.file⟩
  stdout := ⟨s.stdout.pending, child.stdout.written⟩
  zombies := s.zombies + 1
  events := child.events

end Streams

/-- One turn of a process. -/
def Code.runOn (E : Surroundings) (K : Oracle C) : Code L C → Streams C → Stop L × Streams C
  | .printf text next, s =>
      next.runOn E K ({ s with stdout := s.stdout.put E text }.emit (.printed text))
  | .perror text next, s => next.runOn E K (s.emit (.perror text))
  | .scanf capacity n next, s =>
      let ws := (Library.scanf n s.stdin.ahead).1
      let rest := (Library.scanf n s.stdin.ahead).2
      if ws.all (·.length < capacity) then
        -- the byte behind the last word is looked at
        (next (scanfResult ws) (ws.map cString)).runOn E K
          ({ s with stdin := (s.stdin.upTo E rest).fill E }.emit (.scanned ws rest.length))
      else (.undefined, s)
  | .fgets size next, s =>
      if s.stdin.ahead = [] then
        (next none).runOn E K ({ s with stdin := s.stdin.fill E }.emit (.got none))
      else
        let line := (Library.fgets (size - 1) s.stdin.ahead).1
        (next (some line)).runOn E K
          ({ s with stdin := s.stdin.upTo E (Library.fgets (size - 1) s.stdin.ahead).2 }.emit
            (.got (some line)))
  | .call c next, s =>
      (next (K.answer s.events c)).runOn E K (s.emit (.called c (K.answer s.events c)))
  | .fork next, s =>
      if K.forkFails s.events then (next (-1)).runOn E K (s.emit (.forked true))
      else
        -- the child has the file in common with its parent, and copies of both buffers
        match (next 0).runOn E K ({ s with zombies := 0 }.emit (.forked false)) with
        -- a child that loops is not followed
        | (.goto _, child) => (.undefined, child)
        | (.undefined, child) => (.undefined, child)
        | (_, child) => (next (s.events.length + 1)).runOn E K (s.after child)
  | .wait next, s =>
      if s.zombies = 0 then next.runOn E K s
      else next.runOn E K ({ s with zombies := s.zombies - 1 }.emit .waited)
  | .execl path argv failed, s =>
      if K.execFails s.events then failed.runOn E K (s.emit (.execed path argv true))
      else (.execed, (s.replaced E).emit (.execed path argv false))
  | .goto l, s => (.goto l, s)
  | .exit status, s => (.exited status, s.exit)
  | .undefined, s => (.undefined, s)

/-- One turn of the loop at a label. -/
def turnOn (E : Surroundings) (K : Oracle C) (prog : L → Code L C) :
    L × Streams C → (L × Streams C) ⊕ (Stop L × Streams C)
  | (l, s) =>
      match (prog l).runOn E K s with
      | (.goto l', s') => .inl (l', s')
      | (stop, s') => .inr (stop, s')

/-- A run from label `l` on: how it ends, and the state it ends in. -/
def executeOn (E : Surroundings) (K : Oracle C) (prog : L → Code L C) (fuel : Nat) (l : L)
    (s : Streams C) : Option (Stop L × Streams C) :=
  iterate (turnOn E K prog) fuel (l, s)

/-! ## §2. Programs whose children read nothing. -/

/-- Code that takes nothing from its input. -/
def Code.Silent : Code L C → Prop
  | .printf _ next => next.Silent
  | .perror _ next => next.Silent
  | .scanf _ _ _ => False
  | .fgets _ _ => False
  | .call _ next => ∀ r, (next r).Silent
  | .fork next => ∀ r, (next r).Silent
  | .wait next => next.Silent
  | .execl _ _ failed => failed.Silent
  | .goto _ => True
  | .exit _ => True
  | .undefined => True

/-- Code whose children take nothing from their input. -/
def Code.ChildrenSilent : Code L C → Prop
  | .printf _ next => next.ChildrenSilent
  | .perror _ next => next.ChildrenSilent
  | .scanf _ _ next => ∀ r ws, (next r ws).ChildrenSilent
  | .fgets _ next => ∀ got, (next got).ChildrenSilent
  | .call _ next => ∀ r, (next r).ChildrenSilent
  | .fork next => (next 0).Silent ∧ ∀ r, r ≠ 0 → (next r).ChildrenSilent
  | .wait next => next.ChildrenSilent
  | .execl _ _ failed => failed.ChildrenSilent
  | .goto _ => True
  | .exit _ => True
  | .undefined => True

theorem Code.Silent.children {code : Code L C} (h : code.Silent) : code.ChildrenSilent := by
  induction code with
  | printf text next ih | perror text next ih => exact ih h
  | scanf capacity n next ih => exact h.elim
  | fgets size next ih => exact h.elim
  | call c next ih => exact fun r => ih r (h r)
  | fork next ih => exact ⟨h 0, fun r _ => ih r (h r)⟩
  | wait next ih => exact ih h
  | execl path argv failed ih => exact ih h
  | goto l => trivial
  | exit status => trivial
  | undefined => trivial

/-- What has been printed. -/
def printed (events : List (Effect C)) : List CString :=
  events.filterMap fun
    | .printed text => some text
    | _ => none

@[simp] theorem printed_append (a b : List (Effect C)) :
    printed (a ++ b) = printed a ++ printed b :=
  List.filterMap_append

/-! ## §3. A turn in undisturbed surroundings. -/

/-- The streams stand for an input of the process' own, and nothing that was
printed is lost or doubled, line by line. -/
structure Shows (s : Streams C) (c : Console C) : Prop where
  ahead : s.stdin.ahead = c.stdin
  notSeekable : s.stdin.file.seekable = false
  zombies : s.zombies = c.zombies
  events : s.events = c.events
  delivers : s.stdout.Delivers (printed c.events)

section shows
variable {E : Surroundings} {K : Oracle C} {s child : Streams C} {c : Console C}

theorem Shows.start (hE : E.Undisturbed) (stdin : List UInt8) :
    Shows (Streams.start E stdin : Streams C) (Console.start stdin) :=
  ⟨rfl, hE.notSeekable, rfl, rfl, Output.delivers_nil⟩

/-- An effect other than a text. -/
theorem Shows.emit (h : Shows s c) (e : Effect C) (he : printed [e] = []) :
    Shows (s.emit e) (c.emit e) := by
  refine ⟨h.ahead, h.notSeekable, h.zombies, congrArg (· ++ [e]) h.events, ?_⟩
  rw [Console.emit_events, printed_append, he, List.append_nil]
  exact h.delivers

theorem Shows.printf (hE : E.Undisturbed) (h : Shows s c) (text : CString) :
    Shows ({ s with stdout := s.stdout.put E text }.emit (.printed text))
      (c.emit (.printed text)) := by
  refine ⟨h.ahead, h.notSeekable, h.zombies, congrArg (· ++ [Effect.printed text]) h.events, ?_⟩
  rw [Console.emit_events, printed_append]
  exact h.delivers.put hE text

/-- Another input, of which the same is in front of the process. -/
theorem Shows.read (h : Shows s c) {i : Input} {rest : List UInt8} (hahead : i.ahead = rest)
    (hseek : i.file.seekable = s.stdin.file.seekable) :
    Shows { s with stdin := i } { c with stdin := rest } :=
  ⟨hahead, hseek.trans h.notSeekable, h.zombies, h.events, h.delivers⟩

theorem Shows.setZombies (h : Shows s c) (n : Nat) :
    Shows { s with zombies := n } { c with zombies := n } :=
  ⟨h.ahead, h.notSeekable, rfl, h.events, h.delivers⟩

theorem Shows.exit (h : Shows s c) : Shows s.exit c := by
  refine ⟨?_, ?_, h.zombies, h.events, h.delivers.flush⟩
  · exact (congrArg Input.ahead (Input.giveBack_eq h.notSeekable)).trans h.ahead
  · exact (congrArg (·.file.seekable) (Input.giveBack_eq h.notSeekable)).trans h.notSeekable

theorem Shows.replaced (hE : E.Undisturbed) (h : Shows s c) : Shows (s.replaced E) c := by
  have hfile : (s.replaced E).stdin = s.stdin := congrArg (Input.mk s.stdin.unread) (hE.left _ _)
  refine ⟨?_, ?_, h.zombies, h.events, h.delivers.lose⟩
  · rw [hfile, h.ahead]
  · rw [hfile, h.notSeekable]

/-- The parent goes on where it was, if the child has left the file alone. -/
theorem Shows.after {ended : Console C} (h : Shows s c) (hchild : Shows child ended)
    (hfile : child.stdin.file = s.stdin.file) :
    Shows (s.after child) { ended with stdin := c.stdin, zombies := c.zombies + 1 } := by
  refine ⟨?_, ?_, congrArg (· + 1) h.zombies, hchild.events, h.delivers.parent hchild.delivers⟩
  · show s.stdin.unread ++ child.stdin.file.rest = c.stdin
    rw [hfile]
    exact h.ahead
  · show child.stdin.file.seekable = false
    rw [hfile]
    exact h.notSeekable

/-- **A PROCESS THAT READS NOTHING LEAVES THE FILE ALONE.** -/
theorem Code.Silent.file (hE : E.Undisturbed) {code : Code L C} (h : code.Silent) :
    ∀ {s : Streams C}, s.stdin.file.seekable = false →
      (code.runOn E K s).2.stdin.file = s.stdin.file := by
  induction code with
  | printf text next ih | perror text next ih => exact fun hs => ih h hs
  | scanf capacity n next ih => exact h.elim
  | fgets size next ih => exact h.elim
  | call c next ih => exact fun hs => ih _ (h _) hs
  | fork next ih =>
      intro s hs
      rw [Code.runOn]
      by_cases hfork : K.forkFails s.events = true
      · rw [if_pos hfork]
        exact ih _ (h _) hs
      · rw [if_neg hfork]
        have hchild := ih 0 (h 0) (s := { s with zombies := 0 }.emit (.forked false)) hs
        revert hchild
        generalize (next 0).runOn E K _ = ended
        obtain ⟨stop, child⟩ := ended
        intro hchild
        have hchild : child.stdin.file = s.stdin.file := hchild
        -- so the parent, whatever it has in its buffer, goes on where it was
        have hafter : (s.after child).stdin.file.seekable = false := by
          show child.stdin.file.seekable = false
          rw [hchild, hs]
        cases stop with
        | goto l => exact hchild
        | undefined => exact hchild
        | exited status => exact (ih _ (h _) hafter).trans hchild
        | execed => exact (ih _ (h _) hafter).trans hchild
  | wait next ih =>
      intro s hs
      rw [Code.runOn]
      by_cases hz : s.zombies = 0
      · rw [if_pos hz]
        exact ih h hs
      · rw [if_neg hz]
        exact ih h hs
  | execl path argv failed ih =>
      intro s hs
      rw [Code.runOn]
      by_cases hexec : K.execFails s.events = true
      · rw [if_pos hexec]
        exact ih h hs
      · rw [if_neg hexec]
        exact hE.left _ _
  | goto l => exact fun _ => rfl
  | exit status => exact fun hs => OpenFile.seekBack_eq hs _
  | undefined => exact fun _ => rfl

/-- **ONE TURN SHOWS WHAT IT WOULD ON AN INPUT OF ITS OWN.** -/
theorem Code.runOn_shows (hE : E.Undisturbed) (code : Code L C) :
    code.ChildrenSilent → ∀ {s : Streams C} {c : Console C}, Shows s c →
      (code.runOn E K s).1 = (code.run K c).1 ∧
        Shows (code.runOn E K s).2 (code.run K c).2 := by
  induction code with
  | printf text next ih => exact fun h s c hs => ih h (hs.printf hE text)
  | perror text next ih => exact fun h s c hs => ih h (hs.emit _ rfl)
  | scanf capacity n next ih =>
      intro h s c hs
      rw [Code.runOn, Code.run, hs.ahead]
      split
      · refine ih _ _ (h _ _) (Shows.emit (hs.read ?_ ?_) _ rfl)
        · rw [Input.ahead_fill, Input.ahead_upTo]
          rw [hs.ahead]
          exact scanf_suffix n c.stdin
        · rw [Input.seekable_fill, Input.seekable_upTo]
      · exact ⟨rfl, hs⟩
  | fgets size next ih =>
      intro h s c hs
      rw [Code.runOn, Code.run, hs.ahead]
      by_cases hnil : c.stdin = []
      · rw [if_pos hnil, if_pos hnil]
        refine ih _ (h _) (Shows.emit ?_ _ rfl)
        exact hs.read (Input.ahead_fill.trans hs.ahead) Input.seekable_fill
      · rw [if_neg hnil, if_neg hnil]
        refine ih _ (h _) (Shows.emit (hs.read (Input.ahead_upTo ?_) ?_) _ rfl)
        · rw [hs.ahead]
          exact ⟨_, fgets_append _ c.stdin⟩
        · exact Input.seekable_upTo _
  | call k next ih =>
      intro h s c hs
      rw [Code.runOn, Code.run, hs.events]
      exact ih _ (h _) (hs.emit _ rfl)
  | fork next ih =>
      intro h s c hs
      have hfails : K.forkFails s.events = K.forkFails c.events := by rw [hs.events]
      have hpid : (next (s.events.length + 1)) = next (c.events.length + 1) := by rw [hs.events]
      rw [Code.runOn, Code.run, hfails, hpid]
      by_cases hfork : K.forkFails c.events = true
      · rw [if_pos hfork, if_pos hfork]
        exact ih _ (h.2 _ (by decide)) (hs.emit _ rfl)
      · rw [if_neg hfork, if_neg hfork]
        -- the child begins as on the text, and then the file tells what it has read
        obtain ⟨hstop, hended⟩ := ih 0 h.1.children ((hs.setZombies 0).emit (.forked false) rfl)
        have hfile := h.1.file (K := K) hE (s := { s with zombies := 0 }.emit (.forked false))
          hs.notSeekable
        revert hstop hended hfile
        generalize (next 0).runOn E K _ = endedOn
        generalize (next 0).run K _ = ended
        obtain ⟨stop, child⟩ := endedOn
        obtain ⟨stop', child'⟩ := ended
        intro hstop hended hfile
        obtain rfl : stop = stop' := hstop
        have hne : (c.events.length + 1 : Int) ≠ 0 := by omega
        cases stop with
        | goto l => exact ⟨rfl, hended⟩
        | undefined => exact ⟨rfl, hended⟩
        | exited status => exact ih _ (h.2 _ hne) (hs.after hended hfile)
        | execed => exact ih _ (h.2 _ hne) (hs.after hended hfile)
  | wait next ih =>
      intro h s c hs
      rw [Code.runOn, Code.run, hs.zombies]
      by_cases hz : c.zombies = 0
      · rw [if_pos hz, if_pos hz]
        exact ih h hs
      · rw [if_neg hz, if_neg hz]
        exact ih h ((hs.setZombies _).emit _ rfl)
  | execl path argv failed ih =>
      intro h s c hs
      have hfails : K.execFails s.events = K.execFails c.events := by rw [hs.events]
      rw [Code.runOn, Code.run, hfails]
      by_cases hexec : K.execFails c.events = true
      · rw [if_pos hexec, if_pos hexec]
        exact ih h (hs.emit _ rfl)
      · rw [if_neg hexec, if_neg hexec]
        exact ⟨rfl, (hs.replaced hE).emit _ rfl⟩
  | goto l => exact fun _ _ _ hs => ⟨rfl, hs⟩
  | exit status => exact fun _ _ _ hs => ⟨rfl, hs.exit⟩
  | undefined => exact fun _ _ _ hs => ⟨rfl, hs⟩

/-! ## §4. Whole runs. -/

variable {prog : L → Code L C}

/-- **BY INDUCTION ON THE TURNS.** -/
theorem executeOn_shows (hE : E.Undisturbed) (hprog : ∀ l, (prog l).ChildrenSilent)
    (fuel : Nat) : ∀ {l : L} {s : Streams C} {c : Console C}, Shows s c →
      (executeOn E K prog fuel l s).map Prod.fst = (execute K prog fuel l c).map Prod.fst ∧
        ∀ r r', executeOn E K prog fuel l s = some r → execute K prog fuel l c = some r' →
          Shows r.2 r'.2 := by
  induction fuel with
  | zero => exact fun _ => ⟨rfl, fun _ _ h => nomatch h⟩
  | succ fuel ih =>
      intro l s c hs
      obtain ⟨hstop, hshows⟩ := Code.runOn_shows (K := K) hE (prog l) (hprog l) hs
      revert hstop hshows
      rcases hrunOn : (prog l).runOn E K s with ⟨stop, s'⟩
      rcases hrun : (prog l).run K c with ⟨stop', c'⟩
      intro hstop hshows
      obtain rfl : stop = stop' := hstop
      by_cases hgoto : ∃ l', stop = .goto l'
      · obtain ⟨l', rfl⟩ := hgoto
        have hnext : executeOn E K prog (fuel + 1) l s = executeOn E K prog fuel l' s' := by
          refine iterate_next ?_ fuel
          simp only [turnOn, hrunOn]
        rw [hnext, execute_goto hrun]
        exact ih hshows
      · have hleave : executeOn E K prog (fuel + 1) l s = some (stop, s') := by
          refine iterate_leave ?_ fuel
          cases stop with
          | goto l' => exact absurd ⟨l', rfl⟩ hgoto
          | exited status => simp only [turnOn, hrunOn]
          | execed => simp only [turnOn, hrunOn]
          | undefined => simp only [turnOn, hrunOn]
        rw [hleave, execute_stop hrun fun l' hl => hgoto ⟨l', hl⟩]
        refine ⟨rfl, ?_⟩
        intro r r' hr hr'
        injection hr with hr
        injection hr' with hr'
        subst hr hr'
        exact hshows

/-- **ON UNDISTURBED STREAMS A PROGRAM RUNS AS ON AN INPUT OF ITS OWN**: there
is a run with such a trace on the streams, and it writes the lines it prints,
exactly if there is one on the text. -/
theorem executeOn_iff_execute (hE : E.Undisturbed) (hprog : ∀ l, (prog l).ChildrenSilent)
    (l : L) (stdin : List UInt8) (stop : Stop L) (trace : List (Effect C) → Prop) :
    (∃ fuel s, executeOn E K prog fuel l (Streams.start E stdin) = some (stop, s) ∧
        trace s.events ∧ linesOf s.stdout.written = linesOf (printed s.events)) ↔
      ∃ fuel c, execute K prog fuel l (Console.start stdin) = some (stop, c) ∧
        trace c.events := by
  constructor
  · rintro ⟨fuel, s, hrun, htrace, -⟩
    obtain ⟨hstop, hshows⟩ :=
      executeOn_shows (K := K) hE hprog fuel (l := l) (Shows.start hE stdin)
    rw [hrun, Option.map_some] at hstop
    obtain ⟨⟨stop', c⟩, hrun', rfl⟩ := Option.map_eq_some_iff.mp hstop.symm
    refine ⟨fuel, c, hrun', ?_⟩
    rw [← (hshows _ _ hrun hrun').events]
    exact htrace
  · rintro ⟨fuel, c, hrun, htrace⟩
    obtain ⟨hstop, hshows⟩ :=
      executeOn_shows (K := K) hE hprog fuel (l := l) (Shows.start hE stdin)
    rw [hrun, Option.map_some] at hstop
    obtain ⟨⟨stop', s⟩, hrun', rfl⟩ := Option.map_eq_some_iff.mp hstop
    have h := hshows _ _ hrun' hrun
    refine ⟨fuel, s, hrun', ?_, ?_⟩
    · rw [h.events]
      exact htrace
    · rw [h.events]
      exact h.delivers.written

end shows

end ConcurrencyCrypto.Library
