/-
  ConcurrencyCrypto.Shells.Merge
  ──────────────────────────────
  The child process that `archive_shell.c` forks for `merge <src> <dst>`.

  The loop reads up to 1024 bytes of `src` and appends them to `dst` until a
  read delivers nothing.

    • `merge_appends_iff` — without I/O errors the child ends with `dst`
      holding its old contents followed by those of `src`, and every other
      file as it was, unless the two names stand for one non-empty file;
    • `merge_same_file`   — then the end of the file recedes as fast as the
      loop reads, and the loop is never left.
-/
import ConcurrencyCrypto.Library.Descriptors
import ConcurrencyCrypto.Library.Iteration

namespace ConcurrencyCrypto.Shells

open ConcurrencyCrypto.Library

/-! ## §1. The child process. -/

/-- `src_fd` at its offset, and the world. -/
structure MergeState where
  src_fd : Descriptor
  world : World

/-- One turn of `while ((bytesRead = read(src_fd, buffer, sizeof(buffer))) > 0)`;
the result is the exit status. -/
def mergeTurn (k : Kernel) (dst_fd : Descriptor) (s : MergeState) :
    MergeState ⊕ (Int × World) :=
  match readFile k 1024 s.src_fd s.world with
  | (none, _, w) => .inr (1, perror k "Failed to read from source file" w)
  | (some [], _, w) => .inr (0, closeFile (closeFile w))
  | (some (b :: bytes), src_fd, w) =>
      match appendFile k (b :: bytes) dst_fd w with
      | (written, w) =>
          if written ≠ ((b :: bytes).length : Int) then
            .inr (1, perror k "Failed to write to destination file" w)
          else .inl ⟨src_fd, w⟩

/-- The child: its exit status, and the world it leaves. -/
def mergeChild (k : Kernel) (fuel : Nat) (src dst : CString) (w : World) :
    Option (Int × World) :=
  -- both files are opened before either result is looked at
  match openFile k src w with
  | (src_fd, w) =>
    match openFile k dst w with
    | (dst_fd, w) =>
      match src_fd, dst_fd with
      | none, _ => some (1, perror k "File not found" w)
      | some _, none => some (1, perror k "File not found" (closeFile w))
      | some src_fd, some dst_fd => iterate (mergeTurn k dst_fd) fuel ⟨src_fd, w⟩

/-! ## §2. One turn without I/O errors. -/

section turns
variable {k : Kernel} (hk : k.Faultless)
include hk

/-- At the end of the source the loop is left. -/
theorem mergeTurn_end (dst_fd : Descriptor) (s : MergeState)
    (h : (s.world.fs.data s.src_fd.ino).length ≤ s.src_fd.pos) :
    ∃ w, mergeTurn k dst_fd s = .inr (0, w) ∧ w.fs = s.world.fs := by
  obtain ⟨got, hread, -, hend⟩ := readFile_spec hk (n := 1024) (by omega) s.src_fd s.world
  obtain rfl := hend.mpr h
  refine ⟨closeFile (closeFile s.world.tick), ?_, rfl⟩
  simp only [mergeTurn, hread]

/-- **Before it, some bytes of the source are appended to the destination.** -/
theorem mergeTurn_chunk (dst_fd : Descriptor) (s : MergeState)
    (h : s.src_fd.pos < (s.world.fs.data s.src_fd.ino).length) :
    ∃ chunk w, chunk ≠ [] ∧
      mergeTurn k dst_fd s
        = .inl ⟨{ s.src_fd with pos := s.src_fd.pos + chunk.length }, w⟩ ∧
      (s.world.fs.data s.src_fd.ino).drop s.src_fd.pos
        = chunk ++ (s.world.fs.data s.src_fd.ino).drop (s.src_fd.pos + chunk.length) ∧
      w.fs = s.world.fs.write dst_fd.ino (s.world.fs.data dst_fd.ino ++ chunk) := by
  obtain ⟨got, hread, hdrop, hend⟩ := readFile_spec hk (n := 1024) (by omega) s.src_fd s.world
  have hgot : got ≠ [] := fun hnil => Nat.not_le_of_lt h (hend.mp hnil)
  obtain ⟨b, bytes, rfl⟩ := List.exists_cons_of_ne_nil hgot
  refine ⟨b :: bytes, (appendFile k (b :: bytes) dst_fd s.world.tick).2, hgot, ?_, hdrop, ?_⟩
  · simp only [mergeTurn, hread, appendFile_eq hk, ne_eq, not_true_eq_false, if_false]
  · rw [appendFile_eq hk]
    rfl

end turns

/-! ## §3. Whole runs. -/

section runs
variable {k : Kernel} {w : World} {src dst : CString} {i j : Ino}

/-- Two existing files: the child is its loop. -/
theorem mergeChild_eq (hk : k.Faultless) (hsrc : w.fs.names src = some i)
    (hdst : w.fs.names dst = some j) (fuel : Nat) :
    mergeChild k fuel src dst w
      = iterate (mergeTurn k ⟨j, 0⟩) fuel ⟨⟨i, 0⟩, w.tick.tick⟩ := by
  have hdst' : w.tick.fs.names dst = some j := hdst
  simp only [mergeChild, openFile_of_names hk hsrc, openFile_of_names hk hdst']

/-- `dst` was extended by the contents `src` had, and nothing else changed. -/
structure Appended (fs fs' : FileSystem) (i j : Ino) : Prop where
  names : fs'.names = fs.names
  data : fs'.data = Function.update fs.data j (fs.data j ++ fs.data i)

/-- The loop invariant: `dst` was extended by what has been read. -/
structure Merging (fs : FileSystem) (i j : Ino) (s : MergeState) : Prop where
  names : s.world.fs.names = fs.names
  ino : s.src_fd.ino = i
  pos_le : s.src_fd.pos ≤ (fs.data i).length
  data : s.world.fs.data
    = Function.update fs.data j (fs.data j ++ (fs.data i).take s.src_fd.pos)

/-- The source is not touched, unless it is the destination. -/
theorem Merging.source {fs : FileSystem} {s : MergeState} (h : Merging fs i j s)
    (hij : i = j → fs.data i = []) : s.world.fs.data i = fs.data i := by
  rw [h.data]
  by_cases heq : i = j
  · have hempty := hij heq
    subst heq
    rw [Function.update_self, hempty, List.take_nil, List.append_nil]
  · exact Function.update_of_ne heq _ _

/-- **One turn**: a piece of the source is appended, or the loop is left. -/
theorem Merging.turn {fs : FileSystem} {s : MergeState} (h : Merging fs i j s)
    (hk : k.Faultless) (hij : i = j → fs.data i = []) :
    (∃ t, mergeTurn k ⟨j, 0⟩ s = .inl t ∧ Merging fs i j t ∧
        (fs.data i).length - t.src_fd.pos < (fs.data i).length - s.src_fd.pos) ∨
      ∃ r, mergeTurn k ⟨j, 0⟩ s = .inr r ∧ r.1 = 0 ∧ Appended fs r.2.fs i j := by
  have hsource := h.source hij
  rw [← h.ino] at hsource
  rcases Nat.lt_or_ge s.src_fd.pos (fs.data i).length with hlt | hge
  · left
    obtain ⟨chunk, v, hne, hturn, hdrop, hfs⟩ := mergeTurn_chunk hk ⟨j, 0⟩ s
      (by rw [hsource, h.ino]; exact hlt)
    rw [hsource, h.ino] at hdrop
    have hlen := congrArg List.length hdrop
    rw [List.length_append, List.length_drop, List.length_drop] at hlen
    have hpos : 0 < chunk.length := List.length_pos_iff.mpr hne
    refine ⟨_, hturn, ⟨?_, h.ino, by dsimp only; omega, ?_⟩, by dsimp only; omega⟩
    · rw [hfs]
      exact h.names
    · -- what was read before, and the new piece
      have htake : (fs.data i).take (s.src_fd.pos + chunk.length)
          = (fs.data i).take s.src_fd.pos ++ chunk := by
        rw [List.take_add, hdrop, List.take_left]
      dsimp only
      rw [hfs, htake]
      simp only [FileSystem.write, h.data, Function.update_self, Function.update_idem,
        List.append_assoc]
  · right
    obtain ⟨v, hturn, hfs⟩ := mergeTurn_end hk ⟨j, 0⟩ s (by rw [hsource, h.ino]; exact hge)
    refine ⟨_, hturn, rfl, ?_, ?_⟩
    · rw [hfs]
      exact h.names
    · rw [hfs, h.data, List.take_of_length_le hge]

/-- **It ends**, with the invariant at the end of the source. -/
theorem merge_ends (hk : k.Faultless) (hsrc : w.fs.names src = some i)
    (hdst : w.fs.names dst = some j) (hij : i = j → w.fs.data i = []) :
    ∃ fuel w', mergeChild k fuel src dst w = some (0, w') ∧ Appended w.fs w'.fs i j := by
  have hstart : Merging w.fs i j ⟨⟨i, 0⟩, w.tick.tick⟩ := by
    refine ⟨rfl, rfl, Nat.zero_le _, ?_⟩
    rw [List.take_zero, List.append_nil, Function.update_eq_self]
    rfl
  obtain ⟨⟨status, w'⟩, hrun, hstatus, happended⟩ := iterate_of_measure
    (Merging w.fs i j) (fun s => (w.fs.data i).length - s.src_fd.pos)
    (fun r : Int × World => r.1 = 0 ∧ Appended w.fs r.2.fs i j) (fun s hs => hs.turn hk hij) hstart
  obtain rfl : status = 0 := hstatus
  exact ⟨_, w', (mergeChild_eq hk hsrc hdst _).trans hrun, happended⟩

/-- **ONE NON-EMPTY FILE: the loop is never left.** -/
theorem merge_same_file (hk : k.Faultless) (hsrc : w.fs.names src = some i)
    (hdst : w.fs.names dst = some i) (hne : w.fs.data i ≠ []) (fuel : Nat) :
    mergeChild k fuel src dst w = none := by
  rw [mergeChild_eq hk hsrc hdst]
  refine iterate_diverges
    (fun s => s.src_fd.ino = i ∧ s.src_fd.pos < (s.world.fs.data i).length) ?_ fuel
    ⟨rfl, List.length_pos_iff.mpr hne⟩
  rintro s ⟨hino, hlt⟩
  obtain ⟨chunk, v, -, hturn, hdrop, hfs⟩ := mergeTurn_chunk hk ⟨i, 0⟩ s (by rwa [hino])
  refine ⟨_, hturn, hino, ?_⟩
  -- the file grew by as much as was read
  rw [hfs, FileSystem.write_data_self, List.length_append]
  dsimp only
  omega

end runs

/-- **WHEN `merge` APPENDS.**  Two existing files, no I/O errors, and any
sizes of the pieces that `read` delivers: the child ends with `dst` extended
by the old contents of `src` and nothing else changed, if and only if `src`
and `dst` are not one non-empty file. -/
theorem merge_appends_iff (k : Kernel) (hk : k.Faultless) (w : World) (src dst : CString)
    (i j : Ino) (hsrc : w.fs.names src = some i) (hdst : w.fs.names dst = some j) :
    (∃ fuel w', mergeChild k fuel src dst w = some (0, w') ∧
        w'.fs.names = w.fs.names ∧ w'.fs.data j = w.fs.data j ++ w.fs.data i ∧
        ∀ f, f ≠ j → w'.fs.data f = w.fs.data f) ↔
      ¬ (w.fs.SameFile src dst ∧ w.fs.read src ≠ some []) := by
  have hread : w.fs.read src ≠ some [] ↔ w.fs.data i ≠ [] := by
    rw [FileSystem.read_of_names hsrc, ne_eq, Option.some.injEq]
  constructor
  · rintro ⟨fuel, w', hrun, -⟩ ⟨⟨f, hf, hf'⟩, hne⟩
    rw [hsrc] at hf
    injection hf with hf
    subst hf
    rw [merge_same_file hk hsrc hf' (hread.mp hne) fuel] at hrun
    cases hrun
  · intro hnot
    have hij : i = j → w.fs.data i = [] := by
      rintro rfl
      by_contra hne
      exact hnot ⟨⟨i, hsrc, hdst⟩, hread.mpr hne⟩
    obtain ⟨fuel, w', hrun, hnames, hdata⟩ := merge_ends hk hsrc hdst hij
    refine ⟨fuel, w', hrun, hnames, ?_, ?_⟩
    · rw [hdata, Function.update_self]
    · intro f hf
      rw [hdata, Function.update_of_ne hf]

/-- The files `a` and `b`. -/
def twoFiles (xs ys : List UInt8) : FileSystem where
  names p := if p = str "a" then some 0 else if p = str "b" then some 1 else none
  data i := if i = 0 then xs else ys
  next := 2
  names_lt := by
    intro p i h
    split at h
    · injection h with h
      rw [← h]
      exact Nat.zero_lt_two
    · split at h
      · injection h with h
        rw [← h]
        exact Nat.one_lt_two
      · cases h

theorem twoFiles_a (xs ys : List UInt8) : (twoFiles xs ys).names (str "a") = some 0 := by
  unfold twoFiles
  dsimp only
  rw [if_pos rfl]

theorem twoFiles_b (xs ys : List UInt8) : (twoFiles xs ys).names (str "b") = some 1 := by
  have hne : str "b" ≠ str "a" := by decide
  unfold twoFiles
  dsimp only
  rw [if_neg hne, if_pos rfl]

/-- `merge a b`, with three bytes in `a` and two in `b`, read byte for byte. -/
theorem merge_appends_iff_two_files :
    (∃ fuel w', mergeChild (Kernel.plain 0) fuel (str "a") (str "b")
        (World.start (twoFiles [1, 2, 3] [4, 5])) = some (0, w') ∧
        w'.fs.names = (twoFiles [1, 2, 3] [4, 5]).names ∧ w'.fs.data 1 = [4, 5] ++ [1, 2, 3] ∧
        ∀ f, f ≠ 1 → w'.fs.data f = (twoFiles [1, 2, 3] [4, 5]).data f) ↔
      ¬ ((twoFiles [1, 2, 3] [4, 5]).SameFile (str "a") (str "b") ∧
        (twoFiles [1, 2, 3] [4, 5]).read (str "a") ≠ some []) :=
  merge_appends_iff (Kernel.plain 0) (Kernel.plain_faultless 0)
    (World.start (twoFiles [1, 2, 3] [4, 5])) (str "a") (str "b") 0 1
    (twoFiles_a _ _) (twoFiles_b _ _)

/-- **`merge a a` on a file of one byte does not end.** -/
theorem merge_never_ends :
    ¬ ∃ fuel r, mergeChild (Kernel.plain 1023) fuel (str "a") (str "a")
      (World.start (FileSystem.single (str "a") [120])) = some r := by
  rintro ⟨fuel, r, hrun⟩
  rw [merge_same_file (Kernel.plain_faultless 1023) (FileSystem.single_names _ _)
    (FileSystem.single_names _ _) (List.cons_ne_nil _ _)] at hrun
  cases hrun

end ConcurrencyCrypto.Shells
