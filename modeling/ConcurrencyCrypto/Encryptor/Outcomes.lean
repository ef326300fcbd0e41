/-
  ConcurrencyCrypto.Encryptor.Outcomes
  ────────────────────────────────────
  **WHAT A RUN OF `createEncryptedCopy` LEAVES, WHATEVER FAILS.**

  Before its loop the program changes no file.  In the loop it writes to the
  copy alone, and where a write is short the copy ends in one torn piece: a
  beginning of the piece with a beginning of `STR` behind it, for `STR` is
  written before the first result is looked at.

    • `run_outcome`    — one run, with the status that goes with each outcome,
    • `copied_once`    — a copy stays as it is: every later run fails.
-/
import ConcurrencyCrypto.Encryptor.CreateEncryptedCopy

namespace ConcurrencyCrypto.Encryptor

open ConcurrencyCrypto.Library

/-! ## §1. What a call leaves alone. -/

/-- From `fs` to `fs'` the contents of file `o` may have changed, and nothing
else. -/
structure Kept (o : Ino) (fs fs' : FileSystem) : Prop where
  names : fs'.names = fs.names
  data : ∀ i, i ≠ o → fs'.data i = fs.data i

theorem Kept.trans {o : Ino} {fs fs' fs'' : FileSystem} (h : Kept o fs fs')
    (h' : Kept o fs' fs'') : Kept o fs fs'' :=
  ⟨h'.names.trans h.names, fun i hi => (h'.data i hi).trans (h.data i hi)⟩

section calls
variable {k : Kernel} {w : World}

theorem openFile_fs (p : CString) : (openFile k p w).2.fs = w.fs := by
  unfold openFile
  split
  · rfl
  · rfl

theorem readFile_fs (n : Nat) (fd : Descriptor) : (readFile k n fd w).2.2.fs = w.fs := by
  unfold readFile
  split
  · rfl
  · rfl

theorem mkdir_fs (dir : CString) (t : Tree) : (t.mkdir k dir).2.world.fs = t.world.fs := by
  unfold Tree.mkdir
  split
  · rfl
  · rfl

/-- A write keeps to its file. -/
theorem writeFile_kept (xs : List UInt8) (fd : Descriptor) :
    (writeFile k xs fd w).2.1.ino = fd.ino ∧ Kept fd.ino w.fs (writeFile k xs fd w).2.2.fs := by
  unfold writeFile
  split
  · exact ⟨rfl, rfl, fun _ hi => FileSystem.write_data_of_ne _ hi _⟩
  · exact ⟨rfl, rfl, fun _ hi => FileSystem.write_data_of_ne _ hi _⟩

/-- The file that `open` creates or finds is the one it would have emptied. -/
theorem create_cases {dir name : CString} (hslash : 47 ∉ name) (t : Tree) :
    ((t.create k dir name hslash).1 = none ∧
        (t.create k dir name hslash).2.world.fs = t.world.fs) ∨
      (t.create k dir name hslash).1
          = some ⟨(t.world.fs.truncate (inDirectory dir name)).1, 0⟩ ∧
        (t.create k dir name hslash).2.world.fs.names
          = (t.world.fs.truncate (inDirectory dir name)).2.names ∧
        ∀ i, i ≠ (t.world.fs.truncate (inDirectory dir name)).1 →
          (t.create k dir name hslash).2.world.fs.data i
            = (t.world.fs.truncate (inDirectory dir name)).2.data i := by
  unfold Tree.create
  split
  · split
    next i hi =>
      right
      have htruncate := FileSystem.truncate_of_some hi
      rw [htruncate]
      exact ⟨rfl, rfl, fun j hj => (FileSystem.write_data_of_ne _ hj _).symm⟩
    next => exact Or.inr ⟨rfl, rfl, fun _ _ => rfl⟩
  · exact Or.inl ⟨rfl, rfl⟩

end calls

/-! ## §2. What a run leaves alone. -/

section frame
variable {k : Kernel} {N : Nat} {STR : CString} {s : CopyState}

/-- A turn keeps to the copy. -/
theorem copyTurn_kept (s : CopyState) :
    (copyTurn k N STR s).elim
      (fun t => t.to_fd.ino = s.to_fd.ino ∧ Kept s.to_fd.ino s.world.fs t.world.fs)
      (fun r => Kept s.to_fd.ino s.world.fs r.world.fs) := by
  unfold copyTurn
  have hread := @readFile_fs k s.world N s.from_fd
  split
  next from_fd w h =>
    rw [h] at hread
    exact ⟨congrArg FileSystem.names hread, fun i _ => congrArg (FileSystem.data · i) hread⟩
  next from_fd w h =>
    rw [h] at hread
    exact ⟨congrArg FileSystem.names hread, fun i _ => congrArg (FileSystem.data · i) hread⟩
  next b bytes from_fd w h =>
    rw [h] at hread
    have hfirst := @writeFile_kept k w (b :: bytes) s.to_fd
    split
    next wbytes to_fd v hwrite =>
      rw [hwrite] at hfirst
      have hsecond := @writeFile_kept k v STR to_fd
      split
      next strbytes last w' hmark =>
        rw [hmark, hfirst.1] at hsecond
        have hstart : Kept s.to_fd.ino s.world.fs w.fs :=
          ⟨congrArg FileSystem.names hread, fun i _ => congrArg (FileSystem.data · i) hread⟩
        have hkept := (hstart.trans hfirst.2).trans hsecond.2
        split
        · exact hkept
        · exact ⟨hsecond.1, hkept⟩

theorem copyLoop_kept (fuel : Nat) : ∀ {s : CopyState} {r : Result},
    iterate (copyTurn k N STR) fuel s = some r → Kept s.to_fd.ino s.world.fs r.world.fs := by
  induction fuel with
  | zero =>
      intro s r h
      cases h
  | succ fuel ih =>
      intro s r h
      have hturn := @copyTurn_kept k N STR s
      cases hs : copyTurn k N STR s with
      | inl t =>
          rw [hs] at hturn
          obtain ⟨hino, hkept⟩ := hturn
          rw [iterate_next hs] at h
          have hrest := ih h
          rw [hino] at hrest
          exact hkept.trans hrest
      | inr r' =>
          rw [hs] at hturn
          rw [iterate_leave hs] at h
          cases h
          exact hturn

/-- **NO OTHER FILE CHANGES**, and none at all before the loop. -/
theorem main_cases {fuel : Nat} {argv : List CString} {t : Tree} {r : Result}
    (h : main k fuel argv t = some r) :
    (r.world.fs = t.world.fs ∧ (r.status = 1 ∨ r.status = 2 ∨ r.status = 3)) ∨
      (FileSystem.Confined copyPath t.world.fs r.world.fs ∧
        ∃ prog path size STR s, argv = [prog, path, size, STR] ∧ 0 ≤ atoi size ∧
          iterate (copyTurn k (atoi size).toNat STR) fuel s = some r) := by
  unfold main at h
  split at h
  next prog path size STR =>
    dsimp only at h
    split at h
    · cases h
    next hN =>
    have hopen := @openFile_fs k t.world path
    split at h
    next w hw =>
      rw [hw] at hopen
      cases h
      exact Or.inl ⟨hopen, Or.inr (Or.inl rfl)⟩
    next from_fd w hw =>
      have hmkdir : (t.tick.mkdir k copyDir).2.world.fs = t.world.fs := mkdir_fs copyDir t.tick
      generalize t.tick.mkdir k copyDir = made at h hmkdir
      split at h
      · cases h
        exact Or.inl ⟨hmkdir, Or.inl rfl⟩
      have hcreate := @create_cases k copyDir copyName slash_not_mem_copyName made.2
      split at h
      next t₂ ht₂ =>
        rw [ht₂] at hcreate
        rcases hcreate with ⟨-, hsame⟩ | ⟨hsome, -⟩
        · cases h
          exact Or.inl ⟨hsame.trans hmkdir, Or.inr (Or.inr rfl)⟩
        · cases hsome
      next to_fd t₂ ht₂ =>
        rw [ht₂] at hcreate
        rcases hcreate with ⟨hnone, -⟩ | ⟨hsome, hnames, hdata⟩
        · cases hnone
        · injection hsome with hsome
          have hkept := copyLoop_kept fuel h
          rw [hsome] at hkept
          rw [hmkdir] at hkept hnames hdata
          refine Or.inr ⟨.of_opened (hkept.names.trans hnames) fun i hi => ?_,
            prog, path, size, STR, _, rfl, Int.not_lt.mp hN, h⟩
          exact (hkept.data i hi).trans (hdata i hi)
  next =>
    cases h
    exact Or.inl ⟨rfl, Or.inl rfl⟩
  next =>
    cases h
    exact Or.inl ⟨rfl, Or.inl rfl⟩

end frame

/-! ## §3. What a run leaves of the copy. -/

section turns
variable {k : Kernel} {N : Nat} {STR : CString} {s t : CopyState} {r : Result}

/-- Two writes at the end of the copy, each of which may be short. -/
theorem two_writes (piece STR : List UInt8) {fd : Descriptor} {w : World}
    (hend : fd.pos = (w.fs.data fd.ino).length) :
    ∃ wbytes mid v strbytes last w' a b, writeFile k piece fd w = (wbytes, mid, v) ∧
      writeFile k STR mid v = (strbytes, last, w') ∧ last.ino = fd.ino ∧
      w'.fs.names = w.fs.names ∧
      w'.fs.data = Function.update w.fs.data fd.ino
        (w.fs.data fd.ino ++ (piece.take a ++ STR.take b)) := by
  obtain ⟨wbytes, a, v, hfirst, hvnames, hvdata⟩ := @writeFile_takes k w piece fd hend
  have hvself : v.fs.data fd.ino = w.fs.data fd.ino ++ piece.take a := by
    rw [hvdata, Function.update_self]
  have hend' : fd.pos + (piece.take a).length = (v.fs.data fd.ino).length := by
    rw [hvself, List.length_append, hend]
  obtain ⟨strbytes, b, w', hsecond, hwnames, hwdata⟩ :=
    @writeFile_takes k v STR ⟨fd.ino, fd.pos + (piece.take a).length⟩ hend'
  refine ⟨wbytes, _, v, strbytes, _, w', a, b, hfirst, hsecond, rfl, ?_, ?_⟩
  · rw [hwnames, hvnames]
  · rw [hwdata, hvself, hvdata, Function.update_idem, List.append_assoc]

/-- **A turn that leaves the loop** changes nothing, or it tears the last
piece. -/
theorem copyTurn_leaves (hend : s.to_fd.pos = (s.world.fs.data s.to_fd.ino).length)
    (h : copyTurn k N STR s = .inr r) :
    (r.status = 0 ∧ r.reads = s.reads ∧ r.world.fs = s.world.fs) ∨
      (r.status = 4 ∧ s.next k N ≠ [] ∧ r.reads = s.reads ++ [s.next k N] ∧
        r.world.fs.names = s.world.fs.names ∧
        ∃ a b, r.world.fs.data = Function.update s.world.fs.data s.to_fd.ino
          (s.world.fs.data s.to_fd.ino ++ ((s.next k N).take a ++ STR.take b))) := by
  by_cases hstops : k.fault s.world.calls = none → s.next k N = []
  · obtain ⟨w, hturn, hfs⟩ := @copyTurn_ends k N STR s hstops
    rw [hturn] at h
    cases h
    exact Or.inl ⟨rfl, rfl, hfs⟩
  · rw [Classical.not_imp] at hstops
    obtain ⟨hread, hgot⟩ := hstops
    obtain ⟨wbytes, mid, v, strbytes, last, w, a, b, hfirst, hsecond, hino, hnames, hdata⟩ :=
      @two_writes k (s.next k N) STR s.to_fd s.world.tick hend
    rw [copyTurn_eq hread hgot, hfirst] at h
    dsimp only at h
    rw [hsecond] at h
    dsimp only at h
    split at h
    · cases h
      exact Or.inr ⟨rfl, hgot, rfl, hnames, a, b, hdata⟩
    · cases h

/-- What the copy of `source` holds when the loop has been left. -/
structure LeavesCopy (N : Nat) (STR source : List UInt8) (r : Result) : Prop where
  /-- The reads have delivered a beginning of the source. -/
  cut : ∃ m, Cut N (source.take m) r.reads
  copy : (r.status = 0 ∧ r.world.fs.read copyPath = some (joinAfter STR r.reads)) ∨
    (r.status = 4 ∧ ∃ pieces piece a b, r.reads = pieces ++ [piece] ∧
      r.world.fs.read copyPath = some (joinAfter STR pieces ++ (piece.take a ++ STR.take b)))

section loop
variable {start : Nat} {source : List UInt8} {i o : Ino}

/-- The piece that is read next. -/
theorem Copying.cut_next {j : Nat} (h : Copying k start N STR source i o j s)
    (hgot : s.next k N ≠ []) : ∃ m, Cut N (source.take m) (s.reads ++ [s.next k N]) := by
  refine ⟨position k start N source.length (j + 1), ?_⟩
  have htake : source.take (position k start N source.length (j + 1))
      = source.take (position k start N source.length j) ++ s.next k N := by
    rw [h.length_next, List.take_add]
    congr 1
    rw [h.next_eq, List.length_take]
    exact List.take_eq_take_min.symm
  rw [htake]
  refine h.cut.concat hgot ?_
  rw [h.next_eq, List.length_take]
  omega

/-- **THE LOOP** leaves a copy of what it has read, or one that ends torn. -/
theorem Copying.leaves (hio : i ≠ o) (fuel : Nat) : ∀ {j : Nat} {s : CopyState},
    Copying k start N STR source i o j s → iterate (copyTurn k N STR) fuel s = some r →
      LeavesCopy N STR source r := by
  induction fuel with
  | zero =>
      intro j s _ hrun
      cases hrun
  | succ fuel ih =>
      intro j s h hrun
      have hend : s.to_fd.pos = (s.world.fs.data s.to_fd.ino).length := by
        rw [h.to_fd, h.out_eq]
      have hino : s.to_fd.ino = o := by rw [h.to_fd]
      rcases h.turn_cases hio with ⟨t, hturn, ht, -⟩ | ⟨r', hturn, -⟩
      · rw [iterate_next hturn] at hrun
        exact ih ht hrun
      · rw [iterate_leave hturn] at hrun
        injection hrun with hrun
        rw [hrun] at hturn
        rcases copyTurn_leaves hend hturn with ⟨hstatus, hreads, hfs⟩ |
          ⟨hstatus, hgot, hreads, hnames, a, b, hdata⟩
        · refine ⟨⟨_, by rw [hreads]; exact h.cut⟩, Or.inl ⟨hstatus, ?_⟩⟩
          rw [hfs, hreads, FileSystem.read_of_names h.names, h.out_eq]
        · obtain ⟨m, hcut⟩ := h.cut_next hgot
          refine ⟨⟨m, by rw [hreads]; exact hcut⟩, Or.inr ⟨hstatus, s.reads, _, a, b, hreads, ?_⟩⟩
          have hname : r.world.fs.names copyPath = some o := by rw [hnames, h.names]
          rw [FileSystem.read_of_names hname, hdata, hino, Function.update_self, h.out_eq]

end loop

end turns

/-! ## §4. One run, and any number of runs. -/

/-- A run that got to the loop: it has made the copy, which was not there. -/
structure MakesCopy (argv : List CString) (fs : FileSystem) (r : Result) : Prop where
  confined : FileSystem.Confined copyPath fs r.world.fs
  was_new : fs.read copyPath = none
  leaves : ∃ prog path size STR source, argv = [prog, path, size, STR] ∧
    fs.read path = some source ∧ LeavesCopy (atoi size).toNat STR source r

/-- **WHAT A RUN LEAVES**, whatever its arguments are and whatever its calls do:
every file as it was, with status 1, 2 or 3, or a new copy of what it read. -/
theorem run_outcome (k : Kernel) (fuel : Nat) (argv : List CString) (t : Tree) (r : Result)
    (h : main k fuel argv t = some r) :
    (r.world.fs = t.world.fs ∧ (r.status = 1 ∨ r.status = 2 ∨ r.status = 3)) ∨
      MakesCopy argv t.world.fs r := by
  rcases main_cases h with huntouched | ⟨hconfined, prog, path, size, STR, -, rfl, hN, -⟩
  · exact Or.inl huntouched
  by_cases hopens : ∃ i, Opens k t path i
  · obtain ⟨i, hopens⟩ := hopens
    obtain ⟨s, hmain, hs⟩ := @main_opens k t prog path size i STR hN hopens
    rw [hmain] at h
    have hio := Nat.ne_of_lt (t.world.fs.names_lt path i hopens.1.names)
    have hnew : t.world.fs.names copyPath = none :=
      Tree.names_eq_none hopens.1.dir_new slash_not_mem_copyName
    refine Or.inr ⟨hconfined, ?_, prog, path, size, STR, _, rfl,
      FileSystem.read_of_names hopens.1.names, hs.leaves hio fuel h⟩
    rw [FileSystem.read, hnew]
    rfl
  · -- the run ends before its loop, so also with no fuel for it
    rw [not_exists] at hopens
    obtain ⟨r', -, hmain⟩ := @main_stops k t prog path size STR hN hopens
    rw [hmain] at h
    injection h with h
    rw [h] at hmain
    rcases main_cases (hmain 0) with huntouched | ⟨-, _, _, _, _, s, -, -, hloop⟩
    · exact Or.inl huntouched
    · cases hloop

/-- `abc` in pieces of two, when the second write of the second turn stores one
byte of two. -/
def markTorn : Kernel :=
  ⟨fun _ => 2, fun _ => Nat.succ_pos 1, fun c => if c = 8 then some 1 else none, fun _ => []⟩

theorem run_outcome_torn :
    ∃ r, main markTorn 3 [str "./createEncryptedCopy", str "a.txt", str "2", str "xx"]
        (Tree.single (str "a.txt") slash_not_mem_a [97, 98, 99]) = some r ∧
      r.world.fs.read copyPath = some [97, 98, 120, 120, 99, 120] ∧
      MakesCopy [str "./createEncryptedCopy", str "a.txt", str "2", str "xx"]
        (Tree.single (str "a.txt") slash_not_mem_a [97, 98, 99]).world.fs r := by
  have hrun : ∃ r, main markTorn 3 [str "./createEncryptedCopy", str "a.txt", str "2", str "xx"]
      (Tree.single (str "a.txt") slash_not_mem_a [97, 98, 99]) = some r ∧ r.status = 4 ∧
      r.world.fs.read copyPath = some [97, 98, 120, 120, 99, 120] := ⟨_, rfl, rfl, rfl⟩
  obtain ⟨r, hr, hstatus, hread⟩ := hrun
  refine ⟨r, hr, hread, ?_⟩
  rcases run_outcome _ _ _ _ _ hr with ⟨-, hother⟩ | hmakes
  · rw [hstatus] at hother
    omega
  · exact hmakes

/-- Some run leads from the one file system to the other. -/
def RunLeads (fs fs' : FileSystem) : Prop :=
  ∃ k fuel argv t r, t.world.fs = fs ∧ main k fuel argv t = some r ∧ r.world.fs = fs'

/-- Any number of runs, one after the other. -/
def RunsLead : FileSystem → FileSystem → Prop := Relation.ReflTransGen RunLeads

/-- Where there is a copy a run changes nothing. -/
theorem RunLeads.eq {fs fs' : FileSystem} (h : RunLeads fs fs') (hcopy : fs.read copyPath ≠ none) :
    fs' = fs := by
  obtain ⟨k, fuel, argv, t, r, rfl, hrun, rfl⟩ := h
  rcases run_outcome k fuel argv t r hrun with ⟨hfs, -⟩ | hmakes
  · exact hfs
  · exact absurd hmakes.was_new hcopy

/-- Where there is none, a run that changes something makes it. -/
theorem RunLeads.copied {fs fs' : FileSystem} (h : RunLeads fs fs') (hne : fs' ≠ fs) :
    fs'.read copyPath ≠ none := by
  obtain ⟨k, fuel, argv, t, r, rfl, hrun, rfl⟩ := h
  rcases run_outcome k fuel argv t r hrun with ⟨hfs, -⟩ | hmakes
  · exact absurd hfs hne
  · obtain ⟨prog, path, size, STR, source, -, -, hleaves⟩ := hmakes.leaves
    rcases hleaves.copy with ⟨-, hread⟩ | ⟨-, pieces, piece, a, b, -, hread⟩
    · rw [hread]
      exact Option.some_ne_none _
    · rw [hread]
      exact Option.some_ne_none _

/-- **THE FILES CHANGE ONCE**: what the first run that changed anything has left,
a complete copy or a torn one, no later run changes. -/
theorem copied_once (fs fs' fs'' : FileSystem) (h : RunsLead fs fs') (hne : fs' ≠ fs)
    (h' : RunsLead fs' fs'') : fs'' = fs' := by
  -- after the change there is a copy
  have hcopied : fs' = fs ∨ fs'.read copyPath ≠ none := by
    clear h' hne
    induction h with
    | refl => exact Or.inl rfl
    | @tail mid last _ hlast ih =>
        by_cases hsame : last = mid
        · rw [hsame]
          exact ih
        · exact Or.inr (hlast.copied hsame)
  have hcopy := hcopied.resolve_left hne
  induction h' with
  | refl => rfl
  | @tail mid last _ hlast ih =>
      rw [← ih] at hcopy
      rw [hlast.eq hcopy, ih]

theorem copied_once_torn :
    ∃ fs fs', RunsLead fs fs' ∧ fs'.read copyPath = some [97, 98, 120, 120, 99, 120] ∧
      ∀ fs'', RunsLead fs' fs'' → fs'' = fs' := by
  have hrun : ∃ r, main markTorn 3 [str "./createEncryptedCopy", str "a.txt", str "2", str "xx"]
      (Tree.single (str "a.txt") slash_not_mem_a [97, 98, 99]) = some r ∧
      r.world.fs.read copyPath = some [97, 98, 120, 120, 99, 120] := ⟨_, rfl, rfl⟩
  obtain ⟨r, hr, hread⟩ := hrun
  have hlead : RunLeads (Tree.single (str "a.txt") slash_not_mem_a [97, 98, 99]).world.fs
      r.world.fs := ⟨_, _, _, _, r, rfl, hr, rfl⟩
  refine ⟨_, _, Relation.ReflTransGen.single hlead, hread, ?_⟩
  intro fs'' hlater
  refine copied_once _ _ fs'' (Relation.ReflTransGen.single hlead) ?_ hlater
  intro hsame
  have hnone : (Tree.single (str "a.txt") slash_not_mem_a [97, 98, 99]).world.fs.read copyPath
      = none := rfl
  rw [hsame, hnone] at hread
  cases hread

end ConcurrencyCrypto.Encryptor
