/-
  ConcurrencyCrypto.Library.Descriptors
  ─────────────────────────────────────
  **UNBUFFERED READS AND WRITES, AND DIRECTORIES,** on the file systems of
  `Library.Stdio`.

  A descriptor is a file and an offset.  How many bytes a `read` delivers is
  the kernel's choice: at least one while there are any, and no more than
  asked for.  A write through `O_APPEND` goes to what is the end of the file
  at that moment.  Faults are a schedule over the calls of the run, as for
  the streams.  A `Tree` also has directories, and no file without the
  directory it is in.
-/
import ConcurrencyCrypto.Library.Stdio

namespace ConcurrencyCrypto.Library

/-! ## §1. The calls. -/

/-- What the kernel decides: how many bytes `read` call number `c` delivers
at most, what goes wrong at call `c`, and the error text. -/
structure Kernel where
  piece : Nat → Nat
  piece_pos : ∀ c, 0 < piece c
  fault : Nat → Option Nat
  strerror : Nat → CString

/-- No call ever fails. -/
def Kernel.Faultless (k : Kernel) : Prop := ∀ c, k.fault c = none

/-- A kernel that always delivers as much as is asked for up to `n + 1`
bytes, and never fails. -/
def Kernel.plain (n : Nat) : Kernel :=
  ⟨fun _ => n + 1, fun _ => Nat.succ_pos n, fun _ => none, fun _ => []⟩

theorem Kernel.plain_faultless (n : Nat) : (Kernel.plain n).Faultless := fun _ => rfl

structure Descriptor where
  ino : Ino
  pos : Nat

/-- `open` of a regular file, without `O_CREAT` and `O_TRUNC`. -/
def openFile (k : Kernel) (p : CString) (w : World) : Option Descriptor × World :=
  match k.fault w.calls, w.fs.names p with
  | none, some i => (some ⟨i, 0⟩, w.tick)
  | _, _ => (none, w.tick)

/-- `read(fd, buf, n)`: the bytes delivered, or `none` for -1. -/
def readFile (k : Kernel) (n : Nat) (fd : Descriptor) (w : World) :
    Option (List UInt8) × Descriptor × World :=
  match k.fault w.calls with
  | none =>
      let got := ((w.fs.data fd.ino).drop fd.pos).take (min n (k.piece w.calls))
      (some got, { fd with pos := fd.pos + got.length }, w.tick)
  | some _ => (none, fd, w.tick)

/-- `write(fd, xs, xs.length)` with `O_APPEND`: the number of bytes written,
or -1. -/
def appendFile (k : Kernel) (xs : List UInt8) (fd : Descriptor) (w : World) : Int × World :=
  match k.fault w.calls with
  | none => (xs.length, { w.tick with fs := w.fs.write fd.ino (w.fs.data fd.ino ++ xs) })
  -- at least one byte is not written
  | some m =>
      let part := xs.take (min m (xs.length - 1))
      (if part.length = 0 then -1 else part.length,
        { w.tick with fs := w.fs.write fd.ino (w.fs.data fd.ino ++ part) })

/-- `close`. -/
def closeFile (w : World) : World := w.tick

/-- `perror(msg)`. -/
def perror (k : Kernel) (msg : String) (w : World) : World :=
  w.print (str msg ++ str ": " ++ k.strerror w.calls ++ str "\n")

/-- `write(fd, xs, xs.length)` at the descriptor's offset: the number of bytes
written, or -1. -/
def writeFile (k : Kernel) (xs : List UInt8) (fd : Descriptor) (w : World) :
    Int × Descriptor × World :=
  match k.fault w.calls with
  | none =>
      (xs.length, { fd with pos := fd.pos + xs.length },
        { w.tick with fs := w.fs.write fd.ino (patch (w.fs.data fd.ino) fd.pos xs) })
  -- at least one byte is not written
  | some m =>
      let part := xs.take (min m (xs.length - 1))
      (if part.length = 0 then -1 else part.length, { fd with pos := fd.pos + part.length },
        { w.tick with fs := w.fs.write fd.ino (patch (w.fs.data fd.ino) fd.pos part) })

/-! ## §2. Directories. -/

/-- The file `name` of the directory `dir`. -/
def inDirectory (dir name : CString) : CString := dir ++ 47 :: name

/-- Files and directories: a file that is in a directory has its directory. -/
structure Tree where
  world : World
  dirs : List CString
  parent_mem : ∀ dir name i, 47 ∉ name →
    world.fs.names (inDirectory dir name) = some i → dir ∈ dirs

/-- What stands behind the last slash determines what stands before it. -/
theorem inDirectory_inj {dir dir' name name' : CString} (h : 47 ∉ name) (h' : 47 ∉ name')
    (heq : inDirectory dir name = inDirectory dir' name') : dir = dir' ∧ name = name' := by
  unfold inDirectory at heq
  rcases List.append_eq_append_iff.mp heq with ⟨more, hdir, hrest⟩ | ⟨more, hdir, hrest⟩
  · cases more with
    | nil =>
        injection hrest with _ hname
        rw [hdir, List.append_nil]
        exact ⟨rfl, hname⟩
    | cons b more =>
        injection hrest with _ hname
        exact absurd (hname ▸ List.mem_append_right more List.mem_cons_self) h
  · cases more with
    | nil =>
        injection hrest with _ hname
        rw [hdir, List.append_nil]
        exact ⟨rfl, hname.symm⟩
    | cons b more =>
        injection hrest with _ hname
        exact absurd (hname ▸ List.mem_append_right more List.mem_cons_self) h'

/-- One file, in no directory. -/
def Tree.single (p : CString) (hslash : 47 ∉ p) (xs : List UInt8) : Tree where
  world := World.start (FileSystem.single p xs)
  dirs := []
  parent_mem := by
    intro dir name i _ h
    by_cases heq : inDirectory dir name = p
    · rw [← heq] at hslash
      exact absurd (List.mem_append_right dir List.mem_cons_self) hslash
    · rw [show (World.start (FileSystem.single p xs)).fs.names (inDirectory dir name) = none from
        if_neg heq] at h
      cases h

/-- One more call was made. -/
def Tree.tick (t : Tree) : Tree := { t with world := t.world.tick }

/-- `mkdir(dir, mode)`: 0, or -1 if the name is taken. -/
def Tree.mkdir (k : Kernel) (dir : CString) (t : Tree) : Int × Tree :=
  if k.fault t.world.calls = none ∧ dir ∉ t.dirs ∧ t.world.fs.names dir = none then
    (0, { world := t.world.tick
          dirs := dir :: t.dirs
          parent_mem := fun d name i hname h =>
            List.mem_cons_of_mem dir (t.parent_mem d name i hname h) })
  else (-1, t.tick)

/-- The names after a file was created. -/
theorem FileSystem.truncate_names_cases {fs : FileSystem} {p q : CString} {i : Ino}
    (hp : fs.names p = none) (h : (fs.truncate p).2.names q = some i) :
    q = p ∨ fs.names q = some i := by
  obtain ⟨-, hnames, -⟩ := FileSystem.truncate_of_none hp
  rw [hnames] at h
  by_cases hq : q = p
  · exact Or.inl hq
  · rw [Function.update_of_ne hq] at h
    exact Or.inr h

/-- `open("dir/name", O_WRONLY | O_CREAT, mode)`, without `O_TRUNC`: a file
of that name keeps its contents. -/
def Tree.create (k : Kernel) (dir name : CString) (hslash : 47 ∉ name) (t : Tree) :
    Option Descriptor × Tree :=
  if hopen : k.fault t.world.calls = none ∧ dir ∈ t.dirs then
    match hnames : t.world.fs.names (inDirectory dir name) with
    | some i => (some ⟨i, 0⟩, t.tick)
    | none =>
        (some ⟨(t.world.fs.truncate (inDirectory dir name)).1, 0⟩,
          { world := { t.world.tick with fs := (t.world.fs.truncate (inDirectory dir name)).2 }
            dirs := t.dirs
            parent_mem := by
              intro d n i hn h
              rcases FileSystem.truncate_names_cases hnames h with heq | hold
              · rw [(inDirectory_inj hn hslash heq).1]
                exact hopen.2
              · exact t.parent_mem d n i hn hold })
  else (none, t.tick)

/-- A directory that does not exist has no files. -/
theorem Tree.names_eq_none {t : Tree} {dir name : CString} (hdir : dir ∉ t.dirs)
    (hslash : 47 ∉ name) : t.world.fs.names (inDirectory dir name) = none := by
  cases hnames : t.world.fs.names (inDirectory dir name) with
  | none => rfl
  | some i => exact absurd (t.parent_mem dir name i hslash hnames) hdir

section trees
variable {k : Kernel} {t : Tree} {dir name : CString}

theorem Tree.mkdir_new (hfault : k.fault t.world.calls = none) (hdir : dir ∉ t.dirs)
    (hnames : t.world.fs.names dir = none) :
    ∃ t', t.mkdir k dir = (0, t') ∧ t'.world = t.world.tick ∧ t'.dirs = dir :: t.dirs := by
  unfold Tree.mkdir
  rw [if_pos ⟨hfault, hdir, hnames⟩]
  exact ⟨_, rfl, rfl, rfl⟩

theorem Tree.mkdir_fails (h : k.fault t.world.calls = none → dir ∉ t.dirs →
    t.world.fs.names dir ≠ none) : t.mkdir k dir = (-1, t.tick) := by
  unfold Tree.mkdir
  rw [if_neg]
  intro hall
  exact h hall.1 hall.2.1 hall.2.2

theorem Tree.create_fails (hslash : 47 ∉ name) (h : k.fault t.world.calls ≠ none) :
    t.create k dir name hslash = (none, t.tick) := by
  unfold Tree.create
  rw [dif_neg]
  intro hall
  exact h hall.1

/-- **A file that was not there** is empty, and is no other file. -/
theorem Tree.create_new (hslash : 47 ∉ name) (hfault : k.fault t.world.calls = none)
    (hdir : dir ∈ t.dirs) (hnames : t.world.fs.names (inDirectory dir name) = none) :
    ∃ t', t.create k dir name hslash = (some ⟨t.world.fs.next, 0⟩, t') ∧
      t'.world.calls = t.world.calls + 1 ∧
      t'.world.fs.names (inDirectory dir name) = some t.world.fs.next ∧
      t'.world.fs.data = Function.update t.world.fs.data t.world.fs.next [] := by
  obtain ⟨hfst, htnames, hdata⟩ := FileSystem.truncate_of_none hnames
  unfold Tree.create
  rw [dif_pos ⟨hfault, hdir⟩]
  split
  next i hi =>
    rw [hnames] at hi
    cases hi
  next =>
    refine ⟨_, by rw [hfst], rfl, ?_, hdata⟩
    show (t.world.fs.truncate (inDirectory dir name)).2.names (inDirectory dir name) = _
    rw [htnames, Function.update_self]

end trees

/-! ## §3. One call. -/

section calls
variable {k : Kernel} {w : World}

theorem openFile_of_none {p : CString} {i : Ino} (h : k.fault w.calls = none)
    (hp : w.fs.names p = some i) : openFile k p w = (some ⟨i, 0⟩, w.tick) := by
  simp only [openFile, h, hp]

theorem openFile_fails {p : CString} (h : k.fault w.calls = none → w.fs.names p = none) :
    openFile k p w = (none, w.tick) := by
  unfold openFile
  cases hfault : k.fault w.calls with
  | none => rw [h hfault]
  | some m => rfl

theorem readFile_of_none (h : k.fault w.calls = none) (n : Nat) (fd : Descriptor) :
    readFile k n fd w
      = (some (((w.fs.data fd.ino).drop fd.pos).take (min n (k.piece w.calls))),
          { fd with
            pos := fd.pos
              + (((w.fs.data fd.ino).drop fd.pos).take (min n (k.piece w.calls))).length },
          w.tick) := by
  simp only [readFile, h]

theorem readFile_of_fault (h : k.fault w.calls ≠ none) (n : Nat) (fd : Descriptor) :
    readFile k n fd w = (none, fd, w.tick) := by
  obtain ⟨m, hm⟩ := Option.ne_none_iff_exists'.mp h
  simp only [readFile, hm]

/-- **At the end of the file a write appends.** -/
theorem writeFile_of_none (h : k.fault w.calls = none) (xs : List UInt8) {fd : Descriptor}
    (hend : fd.pos = (w.fs.data fd.ino).length) :
    ∃ w', writeFile k xs fd w = ((xs.length : Int), { fd with pos := fd.pos + xs.length }, w') ∧
      w'.calls = w.calls + 1 ∧ w'.fs.names = w.fs.names ∧
      w'.fs.data = Function.update w.fs.data fd.ino (w.fs.data fd.ino ++ xs) := by
  have hpatch : patch (w.fs.data fd.ino) fd.pos xs = w.fs.data fd.ino ++ xs := by
    rw [hend]
    exact patch_at_end _ _
  refine ⟨{ w.tick with fs := w.fs.write fd.ino (w.fs.data fd.ino ++ xs) }, ?_, rfl, rfl, rfl⟩
  simp only [writeFile, h, hpatch]

/-- A faulty write is a short one, and its result shows it. -/
theorem writeFile_of_fault (h : k.fault w.calls ≠ none) (xs : List UInt8) (fd : Descriptor) :
    (writeFile k xs fd w).1 ≠ (xs.length : Int) := by
  obtain ⟨m, hm⟩ := Option.ne_none_iff_exists'.mp h
  have hshort : (xs.take (min m (xs.length - 1))).length ≤ xs.length - 1 := by
    rw [List.length_take]
    omega
  simp only [writeFile, hm]
  split
  next => omega
  next hpos => omega

/-- **At the end of the file every write appends**, if only a beginning. -/
theorem writeFile_takes (xs : List UInt8) {fd : Descriptor}
    (hend : fd.pos = (w.fs.data fd.ino).length) :
    ∃ result a w', writeFile k xs fd w = (result, ⟨fd.ino, fd.pos + (xs.take a).length⟩, w') ∧
      w'.fs.names = w.fs.names ∧
      w'.fs.data = Function.update w.fs.data fd.ino (w.fs.data fd.ino ++ xs.take a) := by
  have hpatch : ∀ a, patch (w.fs.data fd.ino) fd.pos (xs.take a)
      = w.fs.data fd.ino ++ xs.take a := by
    intro a
    rw [hend]
    exact patch_at_end _ _
  cases hfault : k.fault w.calls with
  | none =>
      have hall : xs.take xs.length = xs := List.take_length
      obtain ⟨w', hwrite, -, hnames, hdata⟩ := @writeFile_of_none k w hfault xs fd hend
      refine ⟨(xs.length : Int), xs.length, w', ?_, hnames, ?_⟩
      · rw [hwrite, hall]
      · rw [hdata, hall]
  | some m =>
      refine ⟨(writeFile k xs fd w).1, min m (xs.length - 1), { w.tick with
        fs := w.fs.write fd.ino (w.fs.data fd.ino ++ xs.take (min m (xs.length - 1))) },
        ?_, rfl, rfl⟩
      rw [← hpatch]
      simp only [writeFile, hfault]

@[simp] theorem writeFile_calls (xs : List UInt8) (fd : Descriptor) :
    (writeFile k xs fd w).2.2.calls = w.calls + 1 := by
  unfold writeFile
  cases k.fault w.calls <;> rfl

end calls

/-! ## §4. Without faults. -/

section faultless
variable {k : Kernel} (hk : k.Faultless)
include hk

theorem openFile_of_names {p : CString} {i : Ino} {w : World} (h : w.fs.names p = some i) :
    openFile k p w = (some ⟨i, 0⟩, w.tick) :=
  openFile_of_none (hk w.calls) h

/-- **What a read delivers**: nothing exactly at the end of the file. -/
theorem readFile_spec {n : Nat} (hn : 0 < n) (fd : Descriptor) (w : World) :
    ∃ got, readFile k n fd w = (some got, { fd with pos := fd.pos + got.length }, w.tick) ∧
      (w.fs.data fd.ino).drop fd.pos = got ++ (w.fs.data fd.ino).drop (fd.pos + got.length) ∧
      (got = [] ↔ (w.fs.data fd.ino).length ≤ fd.pos) := by
  have hpiece := k.piece_pos w.calls
  refine ⟨((w.fs.data fd.ino).drop fd.pos).take (min n (k.piece w.calls)), ?_, ?_, ?_⟩
  · simp only [readFile, hk w.calls]
  · rw [← List.drop_drop]
    generalize (w.fs.data fd.ino).drop fd.pos = rest
    rw [List.length_take]
    rcases Nat.le_total (min n (k.piece w.calls)) rest.length with hle | hle
    · rw [Nat.min_eq_left hle, List.take_append_drop]
    · rw [Nat.min_eq_right hle, List.take_of_length_le hle, List.drop_length, List.append_nil]
  · rw [List.take_eq_nil_iff, List.drop_eq_nil_iff]
    constructor
    · rintro (hzero | hle)
      · omega
      · exact hle
    · exact Or.inr

theorem appendFile_eq (xs : List UInt8) (fd : Descriptor) (w : World) :
    appendFile k xs fd w
      = ((xs.length : Int),
          { w.tick with fs := w.fs.write fd.ino (w.fs.data fd.ino ++ xs) }) := by
  simp only [appendFile, hk w.calls]

end faultless

end ConcurrencyCrypto.Library
