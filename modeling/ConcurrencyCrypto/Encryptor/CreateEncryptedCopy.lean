/-
  ConcurrencyCrypto.Encryptor.CreateEncryptedCopy
  ───────────────────────────────────────────────
  `createEncryptedCopy.c`: the source is read in pieces of at most `N` bytes,
  and every piece goes to `encrypted/a.txt` with `STR` behind it.

  A short or failed write ends the program with status 4.  A failed read does
  not: the loop takes -1 for the end of the file, and the program exits with
  EXIT_SUCCESS.  So does `N = 0`, where every read delivers nothing.

  The source is a regular file, or there is none of its name.  (A directory
  would open as well; every read of it fails.)

    • `main_returns`                 — the program always ends;
    • `success_means_complete_iff`   — when success means a complete copy.
-/
import ConcurrencyCrypto.Library.Descriptors
import ConcurrencyCrypto.Library.Iteration
import ConcurrencyCrypto.Library.Pieces
import ConcurrencyCrypto.Library.Text

namespace ConcurrencyCrypto.Encryptor

open ConcurrencyCrypto.Library

/-! ## §1. The code. -/

/-- What a run leaves. -/
structure Result where
  status : Int
  stdout : CString
  world : World
  /-- What the reads delivered; the code does not keep it. -/
  reads : List (List UInt8)

/-- The loop's state. -/
structure CopyState where
  from_fd : Descriptor
  to_fd : Descriptor
  world : World
  reads : List (List UInt8)

/-- `close(from); close(to);` and the exit status. -/
def leave (status : Int) (w : World) (reads : List (List UInt8)) : Result :=
  ⟨status, [], closeFile (closeFile w), reads⟩

/-- One turn of `while ((rbytes = read(from, buffer, N)) > 0)`.  No call
transfers 2^31 bytes or more, so the results fit in `int`. -/
def copyTurn (k : Kernel) (N : Nat) (STR : CString) (s : CopyState) : CopyState ⊕ Result :=
  match readFile k N s.from_fd s.world with
  -- -1 and 0 both end the loop
  | (none, _, w) => .inr (leave 0 w s.reads)
  | (some [], _, w) => .inr (leave 0 w s.reads)
  | (some (b :: bytes), from_fd, w) =>
      match writeFile k (b :: bytes) s.to_fd w with
      | (wbytes, to_fd, w) =>
        -- `STR` is written before `wbytes` is looked at
        match writeFile k STR to_fd w with
        | (strbytes, to_fd, w) =>
          if wbytes ≠ ((b :: bytes).length : Int) ∨ strbytes ≠ (STR.length : Int) then
            .inr (leave 4 (perror k "Error writing to file" w) (s.reads ++ [b :: bytes]))
          else .inl ⟨from_fd, to_fd, w, s.reads ++ [b :: bytes]⟩

/-- `Usage: …`, on the standard output. -/
def usage (prog : CString) : CString :=
  str "Usage: " ++ prog ++ str " <source_file> <buffer_size> <string_to_append>\n"

/-- The directory and the name of the copy. -/
def copyDir : CString := str "encrypted"

def copyName : CString := str "a.txt"

theorem slash_not_mem_copyName : 47 ∉ copyName := by decide +kernel

/-- `main(argc, argv)`; `none` where the behaviour is undefined, and where
the loop was not left within `fuel` turns. -/
def main (k : Kernel) (fuel : Nat) (argv : List CString) (t : Tree) : Option Result :=
  match argv with
  | [_, path, size, STR] =>
      let N := atoi size
      -- `char buffer[N]`
      if N < 0 then none
      else
        match openFile k path t.world with
        | (none, w) => some ⟨2, [], perror k "Error opening file for reading" w, []⟩
        | (some from_fd, _) =>
          match t.tick.mkdir k copyDir with
          | (made, t) =>
            if made = -1 then
              some ⟨1, [], closeFile (perror k "Error creating directory" t.world), []⟩
            else
              match t.create k copyDir copyName slash_not_mem_copyName with
              | (none, t) =>
                  some ⟨3, [], closeFile (perror k "Error opening file for writing" t.world), []⟩
              | (some to_fd, t) =>
                  iterate (copyTurn k N.toNat STR) fuel ⟨from_fd, to_fd, t.world, []⟩
  | [] => some ⟨1, usage (str "(null)"), t.world, []⟩
  | prog :: _ => some ⟨1, usage prog, t.world, []⟩

/-! ## §2. One turn. -/

section turns
variable {k : Kernel} {N : Nat} {STR : CString} {s : CopyState}

/-- What the next read delivers, if it does not fail. -/
def CopyState.next (k : Kernel) (N : Nat) (s : CopyState) : List UInt8 :=
  ((s.world.fs.data s.from_fd.ino).drop s.from_fd.pos).take (min N (k.piece s.world.calls))

/-- **The loop is left with EXIT_SUCCESS** by a read that fails and by one
that delivers nothing. -/
theorem copyTurn_ends (h : k.fault s.world.calls = none → s.next k N = []) :
    ∃ w, copyTurn k N STR s = .inr (leave 0 w s.reads) ∧ w.fs = s.world.fs := by
  refine ⟨s.world.tick, ?_, rfl⟩
  unfold copyTurn
  by_cases hfault : k.fault s.world.calls = none
  · have hgot : ((s.world.fs.data s.from_fd.ino).drop s.from_fd.pos).take
        (min N (k.piece s.world.calls)) = [] := h hfault
    rw [readFile_of_none hfault, hgot]
  · rw [readFile_of_fault hfault]

/-- A read that delivers something, by what the two writes do. -/
theorem copyTurn_eq (hread : k.fault s.world.calls = none) (hgot : s.next k N ≠ []) :
    copyTurn k N STR s =
      match writeFile k (s.next k N) s.to_fd s.world.tick with
      | (wbytes, to_fd, w) =>
        match writeFile k STR to_fd w with
        | (strbytes, to_fd, w) =>
          if wbytes ≠ ((s.next k N).length : Int) ∨ strbytes ≠ (STR.length : Int) then
            .inr (leave 4 (perror k "Error writing to file" w) (s.reads ++ [s.next k N]))
          else .inl ⟨{ s.from_fd with pos := s.from_fd.pos + (s.next k N).length }, to_fd, w,
            s.reads ++ [s.next k N]⟩ := by
  obtain ⟨b, bytes, hnext⟩ := List.exists_cons_of_ne_nil hgot
  have hgot' : ((s.world.fs.data s.from_fd.ino).drop s.from_fd.pos).take
      (min N (k.piece s.world.calls)) = b :: bytes := hnext
  rw [hnext]
  unfold copyTurn
  rw [readFile_of_none hread, hgot']

/-- **A failed write ends it with 4.** -/
theorem copyTurn_write_fails (hread : k.fault s.world.calls = none) (hgot : s.next k N ≠ [])
    (hwrite : k.fault (s.world.calls + 1) ≠ none ∨ k.fault (s.world.calls + 2) ≠ none) :
    ∃ r, copyTurn k N STR s = .inr r ∧ r.status = 4 := by
  rw [copyTurn_eq hread hgot]
  dsimp only
  rw [if_pos]
  · exact ⟨_, rfl, rfl⟩
  rcases hwrite with hdata | hmark
  · left
    exact writeFile_of_fault hdata _ s.to_fd
  · right
    refine writeFile_of_fault ?_ STR _
    rw [writeFile_calls]
    exact hmark

/-- **Otherwise the piece and `STR` are appended to the copy.** -/
theorem copyTurn_goes_on (hread : k.fault s.world.calls = none) (hgot : s.next k N ≠ [])
    (hdata : k.fault (s.world.calls + 1) = none) (hmark : k.fault (s.world.calls + 2) = none)
    (hend : s.to_fd.pos = (s.world.fs.data s.to_fd.ino).length) :
    ∃ w, copyTurn k N STR s
        = .inl ⟨{ s.from_fd with pos := s.from_fd.pos + (s.next k N).length },
            { s.to_fd with pos := s.to_fd.pos + (s.next k N).length + STR.length }, w,
            s.reads ++ [s.next k N]⟩ ∧
      w.calls = s.world.calls + 3 ∧ w.fs.names = s.world.fs.names ∧
      w.fs.data = Function.update s.world.fs.data s.to_fd.ino
        (s.world.fs.data s.to_fd.ino ++ (s.next k N ++ STR)) := by
  -- the piece, and behind it `STR`
  obtain ⟨v, hfirst, hvcalls, hvnames, hvdata⟩ :=
    @writeFile_of_none k s.world.tick hdata (s.next k N) s.to_fd hend
  have hvself : v.fs.data s.to_fd.ino = s.world.fs.data s.to_fd.ino ++ s.next k N := by
    rw [hvdata, Function.update_self]
    rfl
  obtain ⟨w, hsecond, hwcalls, hwnames, hwdata⟩ :=
    @writeFile_of_none k v (by rw [hvcalls]; exact hmark) STR
      { s.to_fd with pos := s.to_fd.pos + (s.next k N).length } (by
        rw [hvself, List.length_append, hend])
  refine ⟨w, ?_, ?_, ?_, ?_⟩
  · rw [copyTurn_eq hread hgot, hfirst]
    dsimp only
    rw [hsecond]
    dsimp only
    rw [if_neg]
    intro hor
    rcases hor with hne | hne <;> exact hne rfl
  · rw [hwcalls, hvcalls]
    rfl
  · rw [hwnames, hvnames]
    rfl
  · rw [hwdata, hvself, hvdata, Function.update_idem, List.append_assoc]
    rfl

end turns

/-! ## §3. Whole runs. -/

/-- How much of a source of `len` bytes the first `j` reads deliver.  `start`
calls were made before `main`, three open the files, and each turn makes
three. -/
def position (k : Kernel) (start N len : Nat) : Nat → Nat
  | 0 => 0
  | j + 1 => position k start N len j
      + min (min N (k.piece (start + 3 + 3 * j))) (len - position k start N len j)

section positions
variable (k : Kernel) (start N len : Nat)

theorem position_le (j : Nat) : position k start N len j ≤ len := by
  induction j with
  | zero => exact Nat.zero_le _
  | succ j ih =>
      unfold position
      omega

/-- The end of the source is not left again. -/
theorem position_stays {i j : Nat} (hij : i ≤ j) (h : position k start N len i = len) :
    position k start N len j = len := by
  induction hij with
  | refl => exact h
  | step _ ih =>
      unfold position
      rw [ih]
      omega

/-- Without room in the buffer nothing is read. -/
theorem position_zero (j : Nat) : position k start 0 len j = 0 := by
  induction j with
  | zero => rfl
  | succ j ih =>
      unfold position
      rw [ih]
      omega

end positions

/-- The name of the copy. -/
def copyPath : CString := inDirectory copyDir copyName

section runs
variable {k : Kernel} {start N : Nat} {STR source : List UInt8} {i o : Ino}

/-- **THE LOOP INVARIANT**, after `j` turns. -/
structure Copying (k : Kernel) (start N : Nat) (STR source : List UInt8) (i o : Ino)
    (j : Nat) (s : CopyState) : Prop where
  calls : s.world.calls = start + 3 + 3 * j
  faultless : ∀ c, start ≤ c → c < start + 3 + 3 * j → k.fault c = none
  from_fd : s.from_fd = ⟨i, position k start N source.length j⟩
  to_fd : s.to_fd = ⟨o, (joinAfter STR s.reads).length⟩
  names : s.world.fs.names copyPath = some o
  source_eq : s.world.fs.data i = source
  out_eq : s.world.fs.data o = joinAfter STR s.reads
  cut : Cut N (source.take (position k start N source.length j)) s.reads

namespace Copying
variable {j : Nat} {s : CopyState}

/-- What the next read delivers. -/
theorem next_eq (h : Copying k start N STR source i o j s) :
    s.next k N = (source.drop (position k start N source.length j)).take
      (min N (k.piece (start + 3 + 3 * j))) := by
  unfold CopyState.next
  rw [h.from_fd, h.source_eq, h.calls]

theorem length_next (h : Copying k start N STR source i o j s) :
    position k start N source.length (j + 1)
      = position k start N source.length j + (s.next k N).length := by
  rw [h.next_eq, List.length_take, List.length_drop, position]

/-- Nothing is delivered at the end of the source, and into no room. -/
theorem next_eq_nil_iff (h : Copying k start N STR source i o j s) :
    s.next k N = [] ↔ N = 0 ∨ position k start N source.length j = source.length := by
  have hpiece := k.piece_pos (start + 3 + 3 * j)
  have hle := position_le k start N source.length j
  rw [h.next_eq, List.take_eq_nil_iff, List.drop_eq_nil_iff]
  omega

/-- **One turn that goes round.** -/
theorem turn (h : Copying k start N STR source i o j s) (hio : i ≠ o)
    (hread : k.fault (start + 3 + 3 * j) = none) (hgot : s.next k N ≠ [])
    (hdata : k.fault (start + 3 + 3 * j + 1) = none)
    (hmark : k.fault (start + 3 + 3 * j + 2) = none) :
    ∃ t, copyTurn k N STR s = .inl t ∧ Copying k start N STR source i o (j + 1) t := by
  rw [← h.calls] at hread hdata hmark
  have hend : s.to_fd.pos = (s.world.fs.data s.to_fd.ino).length := by
    rw [h.to_fd, h.out_eq]
  obtain ⟨w, hturn, hcalls, hnames, hout⟩ :=
    @copyTurn_goes_on k N STR s hread hgot hdata hmark hend
  have hino : s.to_fd.ino = o := by rw [h.to_fd]
  rw [hino] at hout
  refine ⟨_, hturn, ?_, ?_, ?_, ?_, ?_, ?_, ?_, ?_⟩
  · show w.calls = _
    rw [hcalls, h.calls]
    omega
  · intro c hstart hc
    rcases Nat.lt_or_ge c (start + 3 + 3 * j) with hlt | hge
    · exact h.faultless c hstart hlt
    · -- the three calls of this turn
      rw [h.calls] at hread hdata hmark
      have hthree : c = start + 3 + 3 * j ∨ c = start + 3 + 3 * j + 1 ∨
          c = start + 3 + 3 * j + 2 := by omega
      rcases hthree with hc | hc | hc <;> rw [hc] <;> assumption
  · dsimp only
    rw [h.length_next, h.from_fd]
  · dsimp only
    rw [h.to_fd, joinAfter_concat, List.length_append, List.length_append, Nat.add_assoc]
  · show w.fs.names copyPath = _
    rw [hnames, h.names]
  · -- the source is another file, so it is as it was
    show w.fs.data i = _
    rw [hout, Function.update_of_ne hio, h.source_eq]
  · show w.fs.data o = _
    rw [hout, Function.update_self, h.out_eq, joinAfter_concat]
  · show Cut N _ (s.reads ++ [s.next k N])
    have htake : source.take (position k start N source.length (j + 1))
        = source.take (position k start N source.length j) ++ s.next k N := by
      rw [h.length_next, List.take_add]
      congr 1
      rw [h.next_eq, List.length_take]
      exact List.take_eq_take_min.symm
    rw [htake]
    refine h.cut.concat hgot ?_
    rw [h.next_eq, List.length_take]
    omega

end Copying

/-- How the loop is left: after `j` turns, with EXIT_SUCCESS by a read that
failed or delivered nothing, or with 4 by a write. -/
structure Left (k : Kernel) (start N : Nat) (STR source : List UInt8) (o : Ino) (j : Nat)
    (r : Result) : Prop where
  faultless : ∀ c, start ≤ c → c < start + 3 + 3 * j → k.fault c = none
  left : (r.status = 0 ∧ r.world.fs.names copyPath = some o ∧
      r.world.fs.data o = joinAfter STR r.reads ∧
      Cut N (source.take (position k start N source.length j)) r.reads ∧
      (k.fault (start + 3 + 3 * j) ≠ none ∨ N = 0 ∨
        position k start N source.length j = source.length)) ∨
    (r.status = 4 ∧ k.fault (start + 3 + 3 * j) = none ∧ N ≠ 0 ∧
      (k.fault (start + 3 + 3 * j + 1) ≠ none ∨ k.fault (start + 3 + 3 * j + 2) ≠ none))

/-- **One turn**: a piece more of the source is copied, or the loop is left. -/
theorem Copying.turn_cases {j : Nat} {s : CopyState} (h : Copying k start N STR source i o j s)
    (hio : i ≠ o) :
    (∃ t, copyTurn k N STR s = .inl t ∧ Copying k start N STR source i o (j + 1) t ∧
        position k start N source.length j < position k start N source.length (j + 1)) ∨
      ∃ r, copyTurn k N STR s = .inr r ∧ Left k start N STR source o j r := by
  by_cases hends : k.fault (start + 3 + 3 * j) = none → s.next k N = []
  · -- the read fails or delivers nothing
    right
    rw [← h.calls] at hends
    obtain ⟨w, hturn, hfs⟩ := @copyTurn_ends k N STR s hends
    refine ⟨_, hturn, h.faultless, Or.inl ⟨rfl, ?_, ?_, h.cut, ?_⟩⟩
    · show w.fs.names copyPath = _
      rw [hfs, h.names]
    · show w.fs.data o = _
      rw [hfs, h.out_eq]
      rfl
    · rw [h.calls] at hends
      by_cases hread : k.fault (start + 3 + 3 * j) = none
      · exact Or.inr (h.next_eq_nil_iff.mp (hends hread))
      · exact Or.inl hread
  · rw [Classical.not_imp] at hends
    obtain ⟨hread, hgot⟩ := hends
    by_cases hwrite : k.fault (start + 3 + 3 * j + 1) ≠ none ∨
        k.fault (start + 3 + 3 * j + 2) ≠ none
    · -- one of the two writes fails
      right
      obtain ⟨r, hturn, hstatus⟩ := @copyTurn_write_fails k N STR s
        (by rw [h.calls]; exact hread) hgot (by rw [h.calls]; exact hwrite)
      refine ⟨r, hturn, h.faultless, Or.inr ⟨hstatus, hread, ?_, hwrite⟩⟩
      intro hN
      exact hgot (h.next_eq_nil_iff.mpr (Or.inl hN))
    · left
      rw [not_or, not_not, not_not] at hwrite
      obtain ⟨t, hturn, ht⟩ := h.turn hio hread hgot hwrite.1 hwrite.2
      have hpos := List.length_pos_iff.mpr hgot
      refine ⟨t, hturn, ht, ?_⟩
      rw [h.length_next]
      omega

/-- **The loop is left.** -/
theorem copy_loop_ends {s : CopyState} (h : Copying k start N STR source i o 0 s)
    (hio : i ≠ o) :
    ∃ fuel r j, iterate (copyTurn k N STR) fuel s = some r ∧
      Left k start N STR source o j r := by
  obtain ⟨r, hrun, j, hleft⟩ := iterate_of_measure
    (fun s => ∃ j, Copying k start N STR source i o j s)
    (fun s => source.length - s.from_fd.pos)
    (fun r => ∃ j, Left k start N STR source o j r) (by
      intro s hs
      obtain ⟨j, hs⟩ := hs
      rcases hs.turn_cases hio with ⟨t, hturn, ht, hlt⟩ | ⟨r, hturn, hleft⟩
      · left
        refine ⟨t, hturn, ⟨j + 1, ht⟩, ?_⟩
        have hle := position_le k start N source.length (j + 1)
        rw [hs.from_fd, ht.from_fd]
        dsimp only
        omega
      · exact Or.inr ⟨r, hturn, j, hleft⟩) ⟨0, h⟩
  exact ⟨_, r, j, hrun, hleft⟩

end runs

/-! ## §4. The program. -/

section programs
variable {k : Kernel} {t : Tree} {prog path size : CString}

/-- The source can be opened and the directory can be made, as far as their
names go. -/
structure Startable (t : Tree) (path : CString) (i : Ino) : Prop where
  names : t.world.fs.names path = some i
  dir_new : copyDir ∉ t.dirs
  name_new : t.world.fs.names copyDir = none

/-- Enough arguments, and a size: `main` by its calls. -/
theorem main_eq (STR : CString) (hN : 0 ≤ atoi size) (fuel : Nat) :
    main k fuel [prog, path, size, STR] t =
      match openFile k path t.world with
      | (none, w) => some ⟨2, [], perror k "Error opening file for reading" w, []⟩
      | (some from_fd, _) =>
        match t.tick.mkdir k copyDir with
        | (made, t) =>
          if made = -1 then
            some ⟨1, [], closeFile (perror k "Error creating directory" t.world), []⟩
          else
            match t.create k copyDir copyName slash_not_mem_copyName with
            | (none, t) =>
                some ⟨3, [], closeFile (perror k "Error opening file for writing" t.world), []⟩
            | (some to_fd, t) =>
                iterate (copyTurn k (atoi size).toNat STR) fuel
                  ⟨from_fd, to_fd, t.world, []⟩ := by
  unfold main
  dsimp only
  rw [if_neg (Int.not_lt.mpr hN)]

/-- The three calls in front of the loop succeed. -/
def Opens (k : Kernel) (t : Tree) (path : CString) (i : Ino) : Prop :=
  Startable t path i ∧ ∀ c, t.world.calls ≤ c → c < t.world.calls + 3 → k.fault c = none

/-- **They succeed: the run is its loop.** -/
theorem main_opens {i : Ino} (STR : CString) (hN : 0 ≤ atoi size) (h : Opens k t path i) :
    ∃ s, (∀ fuel, main k fuel [prog, path, size, STR] t
        = iterate (copyTurn k (atoi size).toNat STR) fuel s) ∧
      Copying k t.world.calls (atoi size).toNat STR (t.world.fs.data i) i t.world.fs.next 0 s := by
  obtain ⟨⟨hpath, hdir, hname⟩, hcalls⟩ := h
  -- the copy is a new file, and so not the source
  have hino : i ≠ t.world.fs.next := Nat.ne_of_lt (t.world.fs.names_lt path i hpath)
  obtain ⟨made, hmkdir, hworld, hdirs⟩ := @Tree.mkdir_new k t.tick copyDir
    (hcalls (t.world.calls + 1) (by omega) (by omega)) hdir hname
  have hnew : made.world.fs.names copyPath = none := by
    rw [hworld]
    exact Tree.names_eq_none hdir slash_not_mem_copyName
  obtain ⟨created, hcreate, hcreatedCalls, hcreatedNames, hcreatedData⟩ :=
    @Tree.create_new k made copyDir copyName slash_not_mem_copyName
      (by rw [hworld]; exact hcalls (t.world.calls + 2) (by omega) (by omega))
      (by rw [hdirs]; exact List.mem_cons_self) hnew
  have hnext : made.world.fs.next = t.world.fs.next := by
    rw [hworld]
    rfl
  rw [hnext] at hcreate hcreatedNames hcreatedData
  refine ⟨⟨⟨i, 0⟩, ⟨t.world.fs.next, 0⟩, created.world, []⟩, ?_, ?_⟩
  · intro fuel
    rw [main_eq STR hN, openFile_of_none (hcalls _ (Nat.le_refl _) (by omega)) hpath]
    dsimp only
    rw [hmkdir]
    dsimp only
    rw [if_neg (by decide), hcreate]
  · refine ⟨?_, hcalls, rfl, rfl, hcreatedNames, ?_, ?_, Cut.nil _⟩
    · show created.world.calls = _
      rw [hcreatedCalls, hworld]
      rfl
    · show created.world.fs.data i = _
      rw [hcreatedData, Function.update_of_ne hino, hworld]
      rfl
    · show created.world.fs.data t.world.fs.next = _
      rw [hcreatedData, Function.update_self]
      rfl

/-- **One of them fails: no success.** -/
theorem main_stops (STR : CString) (hN : 0 ≤ atoi size) (h : ∀ i, ¬ Opens k t path i) :
    ∃ r, r.status ≠ 0 ∧ ∀ fuel, main k fuel [prog, path, size, STR] t = some r := by
  by_cases hopen : k.fault t.world.calls = none → t.world.fs.names path = none
  · refine ⟨⟨2, [], perror k "Error opening file for reading" t.world.tick, []⟩,
      (by show (2 : Int) ≠ 0; decide), ?_⟩
    intro fuel
    rw [main_eq STR hN, openFile_fails hopen]
  rw [Classical.not_imp] at hopen
  obtain ⟨hfault, hpath⟩ := hopen
  obtain ⟨i, hpath⟩ := Option.ne_none_iff_exists'.mp hpath
  by_cases hmake : k.fault t.tick.world.calls = none → copyDir ∉ t.tick.dirs →
      t.tick.world.fs.names copyDir ≠ none
  · refine ⟨⟨1, [], closeFile (perror k "Error creating directory" t.tick.tick.world), []⟩,
      (by show (1 : Int) ≠ 0; decide), ?_⟩
    intro fuel
    rw [main_eq STR hN, openFile_of_none hfault hpath]
    dsimp only
    rw [Tree.mkdir_fails hmake]
    dsimp only
    rw [if_pos rfl]
  rw [Classical.not_imp, Classical.not_imp, ne_eq, not_not] at hmake
  obtain ⟨hfault', hdir, hname⟩ := hmake
  obtain ⟨made, hmkdir, hworld, -⟩ := @Tree.mkdir_new k t.tick copyDir hfault' hdir hname
  -- what is left to fail is the third call
  have hcreate : k.fault made.world.calls ≠ none := by
    intro hfault''
    refine h i ⟨⟨hpath, hdir, hname⟩, ?_⟩
    intro c hstart hc
    rw [hworld] at hfault''
    have hthree : c = t.world.calls ∨ c = t.world.calls + 1 ∨ c = t.world.calls + 2 := by omega
    rcases hthree with rfl | rfl | rfl
    · exact hfault
    · exact hfault'
    · exact hfault''
  refine ⟨⟨3, [], closeFile (perror k "Error opening file for writing" made.tick.world), []⟩,
    (by show (3 : Int) ≠ 0; decide), ?_⟩
  intro fuel
  rw [main_eq STR hN, openFile_of_none hfault hpath]
  dsimp only
  rw [hmkdir]
  dsimp only
  rw [if_neg (by decide), Tree.create_fails slash_not_mem_copyName hcreate]

/-- **THE PROGRAM ENDS**, whatever its calls do. -/
theorem main_returns (STR : CString) (hN : 0 ≤ atoi size) :
    ∃ fuel r, main k fuel [prog, path, size, STR] t = some r := by
  by_cases hopens : ∃ i, Opens k t path i
  · obtain ⟨i, hopens⟩ := hopens
    obtain ⟨s, hmain, hs⟩ := @main_opens k t prog path size i STR hN hopens
    obtain ⟨fuel, r, j, hrun, -⟩ :=
      copy_loop_ends hs (Nat.ne_of_lt (t.world.fs.names_lt path i hopens.1.names))
    exact ⟨fuel, r, (hmain fuel).trans hrun⟩
  · rw [not_exists] at hopens
    obtain ⟨r, -, hmain⟩ := @main_stops k t prog path size STR hN hopens
    exact ⟨0, r, hmain 0⟩

end programs

/-! ## §5. What success means. -/

/-- `encrypted/a.txt` is a complete copy of `source`: its consecutive pieces,
each with `STR` behind it; and if all reads but the last filled the buffer,
the source can be computed from the copy, `N` and `STR`. -/
structure CompleteCopy (N : Nat) (STR source : List UInt8) (r : Result) : Prop where
  pieces : ∃ pieces, Cut N source pieces ∧
    r.world.fs.read copyPath = some (joinAfter STR pieces)
  recoverable : AllButLastFull N r.reads →
    (r.world.fs.read copyPath).map (unjoin N STR.length) = some source

/-- Whatever `STR` is: a run that exits with EXIT_SUCCESS leaves a complete
copy. -/
def SuccessMeansComplete (k : Kernel) (t : Tree) (prog path size : CString) : Prop :=
  ∀ STR fuel r, main k fuel [prog, path, size, STR] t = some r → r.status = 0 →
    ∃ source, t.world.fs.read path = some source ∧
      CompleteCopy (atoi size).toNat STR source r

/-- Behind calls that all succeeded, a read that fails and a read into no
room come at the end of the source only. -/
def NoEarlyEnd (k : Kernel) (start N len : Nat) : Prop :=
  ∀ j, (∀ c, start ≤ c → c < start + 3 + 3 * j → k.fault c = none) →
    k.fault (start + 3 + 3 * j) ≠ none ∨ N = 0 → position k start N len j = len

section success
variable {k : Kernel} {start N : Nat} {STR source : List UInt8} {o : Ino}

/-- The loop left at the end of the source leaves a complete copy. -/
theorem Left.complete {j : Nat} {r : Result} (h : Left k start N STR source o j r)
    (hends : NoEarlyEnd k start N source.length) (hstatus : r.status = 0) :
    CompleteCopy N STR source r := by
  rcases h.left with ⟨-, hnames, hout, hcut, hwhy⟩ | ⟨hfour, -⟩
  · have hend : position k start N source.length j = source.length := by
      rcases hwhy with hread | hN | hend
      · exact hends j h.faultless (Or.inl hread)
      · exact hends j h.faultless (Or.inr hN)
      · exact hend
    rw [hend, List.take_length] at hcut
    have hread : r.world.fs.read copyPath = some (joinAfter STR r.reads) := by
      rw [FileSystem.read_of_names hnames, hout]
    refine ⟨⟨r.reads, hcut, hread⟩, ?_⟩
    intro hfull
    rw [hread, Option.map_some, unjoin_joinAfter STR hcut hfull]
  · rw [hfour] at hstatus
    cases hstatus

/-- With nothing as `STR`, a complete copy is the source. -/
theorem CompleteCopy.read_eq {r : Result} (h : CompleteCopy N [] source r) :
    r.world.fs.read copyPath = some source := by
  obtain ⟨pieces, hcut, hread⟩ := h.pieces
  rw [hread, joinAfter_empty, hcut.flatten]

/-- An empty file is a complete copy of an empty source only. -/
theorem CompleteCopy.source_eq_nil {r : Result} (h : CompleteCopy N STR source r)
    (hread : r.world.fs.read copyPath = some []) : source = [] := by
  obtain ⟨pieces, hcut, hpieces⟩ := h.pieces
  rw [hread] at hpieces
  injection hpieces with hpieces
  cases pieces with
  | nil => exact hcut.flatten.symm
  | cons piece pieces =>
      rw [joinAfter_cons] at hpieces
      exact absurd (List.append_eq_nil_iff.mp hpieces.symm).1
        (hcut.ne_nil piece List.mem_cons_self)

/-- **And one left with success behind `j` turns shows where read number `j`
was.** -/
theorem Left.position_eq {j : Nat} {r : Result} (h : Left k start N [] source o j r)
    (hcomplete : r.status = 0 → CompleteCopy N [] source r) {i : Nat}
    (hcalls : ∀ c, start ≤ c → c < start + 3 + 3 * i → k.fault c = none)
    (hread : k.fault (start + 3 + 3 * i) ≠ none ∨ N = 0) :
    position k start N source.length i = source.length := by
  rcases h.left with ⟨hstatus, hnames, hout, hcut, hwhy⟩ | ⟨-, hread', hN, hwrite⟩
  · have hsource := (hcomplete hstatus).read_eq
    rw [FileSystem.read_of_names hnames, hout, joinAfter_empty, hcut.flatten] at hsource
    injection hsource with hsource
    have hend : position k start N source.length j = source.length := by
      have hlen := congrArg List.length hsource
      have hle := position_le k start N source.length j
      rw [List.length_take] at hlen
      omega
    rcases Nat.lt_or_ge i j with hlt | hge
    · -- that read did not fail, so there was no room
      rcases hread with hfault | rfl
      · exact absurd (h.faultless _ (by omega) (by omega)) hfault
      · rw [position_zero] at hend ⊢
        exact hend
    · exact position_stays k start N source.length hge hend
  · -- a write failed in turn `j`, so turn `i` was before it
    have hlt : i ≤ j := by
      by_contra hnot
      rcases hwrite with hdata | hmark
      · exact hdata (hcalls _ (by omega) (by omega))
      · exact hmark (hcalls _ (by omega) (by omega))
    rcases hread with hfault | hzero
    · rcases Nat.eq_or_lt_of_le hlt with rfl | hlt
      · exact absurd hread' hfault
      · exact absurd (h.faultless _ (by omega) (by omega)) hfault
    · exact absurd hzero hN

end success

/-- **WHEN SUCCESS MEANS A COMPLETE COPY**: exactly if no read fails before
the end of the source, and there is room in the buffer unless the source is
empty. -/
theorem success_means_complete_iff (k : Kernel) (t : Tree) (prog path size : CString)
    (hN : 0 ≤ atoi size) :
    SuccessMeansComplete k t prog path size ↔
      ∀ source, t.world.fs.read path = some source → copyDir ∉ t.dirs →
        t.world.fs.names copyDir = none →
        NoEarlyEnd k t.world.calls (atoi size).toNat source.length := by
  constructor
  · intro hsuccess source hsource hdir hname j hcalls hread
    obtain ⟨i, hpath, rfl⟩ := Option.map_eq_some_iff.mp hsource
    have hopens : Opens k t path i :=
      ⟨⟨hpath, hdir, hname⟩, fun c hc hlt => hcalls c hc (by omega)⟩
    obtain ⟨s, hmain, hs⟩ := @main_opens k t prog path size i [] hN hopens
    obtain ⟨fuel, r, j', hrun, hleft⟩ :=
      copy_loop_ends hs (Nat.ne_of_lt (t.world.fs.names_lt path i hpath))
    -- one text `STR` is enough to see how far the source was read: the empty one
    refine hleft.position_eq ?_ hcalls hread
    intro hstatus
    obtain ⟨source, hsource', hcopy⟩ := hsuccess [] fuel r ((hmain fuel).trans hrun) hstatus
    rw [hsource] at hsource'
    injection hsource' with hsource'
    rw [hsource']
    exact hcopy
  · intro hends STR fuel r hrun hstatus
    by_cases hopens : ∃ i, Opens k t path i
    · obtain ⟨i, hopens⟩ := hopens
      have hread := FileSystem.read_of_names hopens.1.names
      obtain ⟨s, hmain, hs⟩ := @main_opens k t prog path size i STR hN hopens
      obtain ⟨fuel', r', j, hrun', hleft⟩ :=
        copy_loop_ends hs (Nat.ne_of_lt (t.world.fs.names_lt path i hopens.1.names))
      rw [hmain] at hrun
      obtain rfl := iterate_unique hrun' hrun
      exact ⟨_, hread, hleft.complete (hends _ hread hopens.1.dir_new hopens.1.name_new) hstatus⟩
    · rw [not_exists] at hopens
      obtain ⟨r', hstatus', hmain⟩ := @main_stops k t prog path size STR hN hopens
      rw [hmain] at hrun
      injection hrun with hrun
      rw [hrun] at hstatus'
      exact absurd hstatus hstatus'

theorem slash_not_mem_a : 47 ∉ str "a.txt" := by decide +kernel

/-- Two bytes at a time, as in the usage example. -/
theorem success_means_complete_iff_two :
    SuccessMeansComplete (Kernel.plain 1) (Tree.single (str "a.txt") slash_not_mem_a [97, 98, 99])
        (str "./createEncryptedCopy") (str "a.txt") (str "2") ↔
      ∀ source, (Tree.single (str "a.txt") slash_not_mem_a [97, 98, 99]).world.fs.read
          (str "a.txt") = some source →
        copyDir ∉ (Tree.single (str "a.txt") slash_not_mem_a [97, 98, 99]).dirs →
        (Tree.single (str "a.txt") slash_not_mem_a [97, 98, 99]).world.fs.names copyDir = none →
        NoEarlyEnd (Kernel.plain 1) 0 (atoi (str "2")).toNat source.length :=
  success_means_complete_iff (Kernel.plain 1)
    (Tree.single (str "a.txt") slash_not_mem_a [97, 98, 99]) (str "./createEncryptedCopy")
    (str "a.txt") (str "2") (by decide +kernel)

/-- Call number 3, the first read, fails. -/
def firstReadFails : Kernel :=
  ⟨fun _ => 1, fun _ => Nat.zero_lt_one, fun c => if c = 3 then some 0 else none, fun _ => []⟩

/-- **SUCCESS WITHOUT A COPY**: the source is one byte, the copy is empty, and
the status is EXIT_SUCCESS, when the first read fails, and also when the
buffer has no room. -/
theorem success_without_copy :
    (∃ r, main firstReadFails 1 [str "./createEncryptedCopy", str "a.txt", str "1", str "x"]
        (Tree.single (str "a.txt") slash_not_mem_a [97]) = some r ∧ r.status = 0 ∧
      r.world.fs.read copyPath = some [] ∧ ¬ CompleteCopy 1 (str "x") [97] r) ∧
    ∃ r, main (Kernel.plain 0) 1 [str "./createEncryptedCopy", str "a.txt", str "0", str "x"]
        (Tree.single (str "a.txt") slash_not_mem_a [97]) = some r ∧ r.status = 0 ∧
      r.world.fs.read copyPath = some [] ∧ ¬ CompleteCopy 0 (str "x") [97] r := by
  constructor
  · refine ⟨_, rfl, rfl, rfl, ?_⟩
    intro hcopy
    exact List.cons_ne_nil _ _ (hcopy.source_eq_nil rfl)
  · refine ⟨_, rfl, rfl, rfl, ?_⟩
    intro hcopy
    exact List.cons_ne_nil _ _ (hcopy.source_eq_nil rfl)

end ConcurrencyCrypto.Encryptor
