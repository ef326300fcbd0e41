/-
  ConcurrencyCrypto.Library.Stdio
  ───────────────────────────────
  **THE BUFFERED STREAMS OF THE C LIBRARY OVER A SHARED FILE SYSTEM.**

  A file system maps names to files, and several names (or several streams)
  may mean one file.  A stream is what `FILE *` is: a descriptor offset and a
  user-space buffer of `bufsiz` bytes.

    • `fread` fills its buffer by whole `bufsiz` requests and delivers from
      it, so a reader may hold bytes the file no longer has;
    • `fwrite` keeps what it accepts in the buffer and writes full buffers
      out only when more arrives; `fclose` flushes the rest;
    • `fopen(…, "wb")` truncates the named file at once.

  Faults are a schedule: `fault c` says what goes wrong at call number `c`
  of the run.  A faulty `fread` ends early and sets the sticky error flag, a
  faulty `fwrite` accepts too little, and a faulty `fclose` loses the last
  bytes it should flush.
-/
import Mathlib

namespace ConcurrencyCrypto.Library

/-! ## §1. File systems. -/

/-- A C string: its bytes before the NUL. -/
abbrev CString := List UInt8

/-- An ASCII literal. -/
def str (s : String) : CString := s.toList.map fun c => UInt8.ofNat c.toNat

/-- A file, apart from its names. -/
abbrev Ino := Nat

/-- Names and file contents.  Numbers from `next` on are unused, so a new
file never shares its contents with an old one. -/
structure FileSystem where
  names : CString → Option Ino
  data : Ino → List UInt8
  next : Ino
  names_lt : ∀ p i, names p = some i → i < next

namespace FileSystem

/-- The contents a name stands for. -/
def read (fs : FileSystem) (p : CString) : Option (List UInt8) :=
  (fs.names p).map fs.data

/-- Replace the contents of a file. -/
def write (fs : FileSystem) (i : Ino) (xs : List UInt8) : FileSystem :=
  { fs with data := Function.update fs.data i xs }

@[simp] theorem write_data_self (fs : FileSystem) (i : Ino) (xs : List UInt8) :
    (fs.write i xs).data i = xs := by
  simp [write]

theorem write_data_of_ne (fs : FileSystem) {i j : Ino} (h : j ≠ i) (xs : List UInt8) :
    (fs.write i xs).data j = fs.data j := by
  simp [write, h]

/-- `open(p, O_WRONLY | O_CREAT | O_TRUNC)`: the file and the file system. -/
def truncate (fs : FileSystem) (p : CString) : Ino × FileSystem :=
  match fs.names p with
  | some i => (i, fs.write i [])
  -- a new file gets a number no name has
  | none => (fs.next,
      { names := Function.update fs.names p (some fs.next)
        data := Function.update fs.data fs.next []
        next := fs.next + 1
        names_lt := by
          intro q i hq
          by_cases hqp : q = p
          · subst hqp
            rw [Function.update_self] at hq
            injection hq with hq
            rw [← hq]
            exact Nat.lt_succ_self fs.next
          · rw [Function.update_of_ne hqp] at hq
            exact Nat.lt_succ_of_lt (fs.names_lt q i hq) })

/-- Two names stand for one existing file. -/
def SameFile (fs : FileSystem) (p q : CString) : Prop :=
  ∃ i, fs.names p = some i ∧ fs.names q = some i

/-- The file system of one file. -/
def single (p : CString) (xs : List UInt8) : FileSystem where
  names q := if q = p then some 0 else none
  data _ := xs
  next := 1
  names_lt := by
    intro q i h
    split at h
    · injection h with h
      rw [← h]
      exact Nat.zero_lt_one
    · cases h

@[simp] theorem single_names (p : CString) (xs : List UInt8) :
    (single p xs).names p = some 0 :=
  if_pos rfl

@[simp] theorem single_read (p : CString) (xs : List UInt8) :
    (single p xs).read p = some xs := by
  unfold read single
  dsimp only
  rw [if_pos rfl]
  rfl

/-- In it, no other name means the file. -/
theorem single_not_sameFile {p q r : CString} (xs : List UInt8) (h : q ≠ p) :
    ¬ (single p xs).SameFile r q := by
  rintro ⟨i, -, hq⟩
  unfold single at hq
  dsimp only at hq
  rw [if_neg h] at hq
  cases hq

theorem single_sameFile (p : CString) (xs : List UInt8) : (single p xs).SameFile p p :=
  ⟨0, single_names p xs, single_names p xs⟩

theorem read_of_names {fs : FileSystem} {p : CString} {i : Ino}
    (h : fs.names p = some i) : fs.read p = some (fs.data i) := by
  unfold read
  rw [h]
  rfl

/-- Truncation by the name's two cases. -/
theorem truncate_of_some {fs : FileSystem} {p : CString} {i : Ino}
    (h : fs.names p = some i) : fs.truncate p = (i, fs.write i []) := by
  unfold truncate
  split
  next j hj =>
    rw [h] at hj
    injection hj with hj
    rw [hj]
  next hj => rw [h] at hj; cases hj

theorem truncate_of_none {fs : FileSystem} {p : CString} (h : fs.names p = none) :
    (fs.truncate p).1 = fs.next ∧
      (fs.truncate p).2.names = Function.update fs.names p (some fs.next) ∧
      (fs.truncate p).2.data = Function.update fs.data fs.next [] := by
  unfold truncate
  split
  next j hj => rw [h] at hj; cases hj
  next hj => exact ⟨rfl, rfl, rfl⟩

@[simp] theorem truncate_names_self (fs : FileSystem) (p : CString) :
    (fs.truncate p).2.names p = some (fs.truncate p).1 := by
  cases h : fs.names p with
  | some i =>
      rw [truncate_of_some h]
      exact h
  | none =>
      obtain ⟨hfst, hnames, -⟩ := truncate_of_none h
      rw [hnames, hfst, Function.update_self]

@[simp] theorem truncate_data_self (fs : FileSystem) (p : CString) :
    (fs.truncate p).2.data (fs.truncate p).1 = [] := by
  cases h : fs.names p with
  | some i =>
      rw [truncate_of_some h]
      exact fs.write_data_self i []
  | none =>
      obtain ⟨hfst, -, hdata⟩ := truncate_of_none h
      rw [hdata, hfst, Function.update_self]

theorem truncate_data_of_ne (fs : FileSystem) (p : CString) {i : Ino}
    (hi : i ≠ (fs.truncate p).1) : (fs.truncate p).2.data i = fs.data i := by
  cases h : fs.names p with
  | some j =>
      rw [truncate_of_some h] at hi ⊢
      exact fs.write_data_of_ne hi []
  | none =>
      obtain ⟨hfst, -, hdata⟩ := truncate_of_none h
      rw [hfst] at hi
      rw [hdata, Function.update_of_ne hi]

theorem truncate_names_of_ne (fs : FileSystem) {p q : CString} (hq : q ≠ p) :
    (fs.truncate p).2.names q = fs.names q := by
  cases h : fs.names p with
  | some i =>
      rw [truncate_of_some h]
      rfl
  | none =>
      obtain ⟨-, hnames, -⟩ := truncate_of_none h
      rw [hnames, Function.update_of_ne hq]

/-- Truncating `p` hits the file named `q` only if the two are one file. -/
theorem eq_truncate_iff {fs : FileSystem} {p q : CString} {i : Ino}
    (hq : fs.names q = some i) : i = (fs.truncate p).1 ↔ fs.SameFile q p := by
  cases h : fs.names p with
  | some j =>
      rw [truncate_of_some h]
      unfold SameFile
      rw [hq, h]
      simp [eq_comm]
  | none =>
      obtain ⟨hfst, -, -⟩ := truncate_of_none h
      have hlt := fs.names_lt q i hq
      unfold SameFile
      rw [hfst, hq, h]
      simp only [Option.some.injEq, reduceCtorEq, and_false, exists_false, iff_false]
      exact Nat.ne_of_lt hlt

/-- From `fs` to `fs'` only the file that `p` names, or comes to name, has
changed. -/
structure Confined (p : CString) (fs fs' : FileSystem) : Prop where
  names_eq : ∀ q, q ≠ p → fs'.names q = fs.names q
  names_self : fs'.names p = fs.names p ∨ fs'.names p = some (fs.truncate p).1
  data_eq : ∀ i, i ≠ (fs.truncate p).1 → fs'.data i = fs.data i

theorem Confined.refl (p : CString) (fs : FileSystem) : Confined p fs fs :=
  ⟨fun _ _ => rfl, Or.inl rfl, fun _ _ => rfl⟩

/-- Opening `p` for writing and then writing the opened file is confined to it. -/
theorem Confined.of_opened {p : CString} {fs fs' : FileSystem}
    (hnames : fs'.names = (fs.truncate p).2.names)
    (hdata : ∀ i, i ≠ (fs.truncate p).1 → fs'.data i = (fs.truncate p).2.data i) :
    Confined p fs fs' where
  names_eq := by
    intro q hq
    rw [hnames, fs.truncate_names_of_ne hq]
  names_self := by
    right
    rw [hnames, fs.truncate_names_self]
  data_eq := by
    intro i hi
    rw [hdata i hi, fs.truncate_data_of_ne p hi]

/-- Every other file reads as before. -/
theorem Confined.read_eq {p q : CString} {fs fs' : FileSystem} (h : Confined p fs fs')
    (hq : q ≠ p) (hne : ¬ fs.SameFile q p) : fs'.read q = fs.read q := by
  unfold read
  rw [h.names_eq q hq]
  cases hname : fs.names q with
  | none => rfl
  | some i =>
      have hi : i ≠ (fs.truncate p).1 := fun hi => hne ((eq_truncate_iff hname).mp hi)
      exact congrArg some (h.data_eq i hi)

/-- No other name comes to mean the file. -/
theorem Confined.not_sameFile {p q : CString} {fs fs' : FileSystem} (h : Confined p fs fs')
    (hq : q ≠ p) (hne : ¬ fs.SameFile q p) : ¬ fs'.SameFile q p := by
  rintro ⟨i, hqi, hpi⟩
  rw [h.names_eq q hq] at hqi
  rcases h.names_self with hself | hself
  · rw [hself] at hpi
    exact hne ⟨i, hqi, hpi⟩
  · rw [hself] at hpi
    injection hpi with hpi
    exact hne ((eq_truncate_iff hqi).mp hpi.symm)

/-- Two other names mean one file as before. -/
theorem Confined.sameFile_iff {p q r : CString} {fs fs' : FileSystem} (h : Confined p fs fs')
    (hq : q ≠ p) (hr : r ≠ p) : fs'.SameFile q r ↔ fs.SameFile q r := by
  unfold SameFile
  rw [h.names_eq q hq, h.names_eq r hr]

end FileSystem

/-! ## §2. Streams. -/

/-- What the run of a program depends on outside it: the library's buffer
size (ISO C guarantees 256), the bytes `/dev/urandom` gives to each call, the
error texts, and the faults. -/
structure Libc where
  bufsiz : Nat
  le_bufsiz : 256 ≤ bufsiz
  urandom : Nat → Nat → UInt8
  strerror : Nat → CString
  fault : Nat → Option Nat

/-- No call ever fails. -/
def Libc.Faultless (L : Libc) : Prop := ∀ c, L.fault c = none

/-- A library that draws zeros and fails as told. -/
def Libc.plain (fault : Nat → Option Nat) : Libc :=
  ⟨4096, by omega, fun _ _ => 0, fun _ => [], fault⟩

theorem Libc.plain_faultless : (Libc.plain fun _ => none).Faultless := fun _ => rfl

/-- The state a run changes: files, how many library calls were made, and
what was printed on the error stream. -/
structure World where
  fs : FileSystem
  calls : Nat
  stderr : List CString

/-- A stream opened for reading. -/
structure RStream where
  ino : Ino
  /-- Offset of the descriptor. -/
  pos : Nat
  /-- Bytes read from the file and not yet delivered. -/
  ahead : List UInt8
  eof : Bool
  err : Bool

/-- A stream opened for writing. -/
structure WStream where
  ino : Ino
  /-- Offset of the descriptor. -/
  pos : Nat
  /-- Bytes accepted and not yet written to the file. -/
  pending : List UInt8

/-- A run begins. -/
def World.start (fs : FileSystem) : World := ⟨fs, 0, []⟩

/-- One more library call was made. -/
def World.tick (w : World) : World := { w with calls := w.calls + 1 }

/-- `fprintf(stderr, …)`; its own failure would change nothing here. -/
def World.print (w : World) (msg : CString) : World :=
  { w with stderr := w.stderr ++ [msg] }

/-- `fopen(p, "rb")`. -/
def fopenRead (L : Libc) (p : CString) (w : World) : Option RStream × World :=
  match L.fault w.calls, w.fs.names p with
  | none, some i => (some ⟨i, 0, [], false, false⟩, w.tick)
  -- a fault, or no such file
  | _, _ => (none, w.tick)

/-- `fopen(p, "wb")`. -/
def fopenWrite (L : Libc) (p : CString) (w : World) : Option WStream × World :=
  match L.fault w.calls with
  | none =>
      let (i, fs) := w.fs.truncate p
      (some ⟨i, 0, []⟩, { w.tick with fs := fs })
  | some _ => (none, w.tick)

/-- How much a stream that lacks `need` bytes asks the kernel for. -/
def Libc.request (L : Libc) (need : Nat) : Nat :=
  (need + L.bufsiz - 1) / L.bufsiz * L.bufsiz

/-- `fread(buf, 1, n, f)`: the bytes delivered.  At end of file the indicator
is set and stays set. -/
def fread (L : Libc) (n : Nat) (f : RStream) (w : World) :
    List UInt8 × RStream × World :=
  -- behind the end of file nothing more is asked for
  let got := if f.eof then []
    else ((w.fs.data f.ino).drop f.pos).take (L.request (n - f.ahead.length))
  let all := f.ahead ++ got
  match L.fault w.calls with
  | none =>
      (all.take n,
        { f with
          pos := f.pos + got.length
          ahead := all.drop n
          eof := f.eof || decide (all.length < n) }, w.tick)
  -- short of `n`, with the error flag up
  | some k =>
      (all.take (min k (n - 1)),
        { f with
          pos := f.pos + got.length
          ahead := all.drop (min k (n - 1))
          err := true }, w.tick)

/-- `pwrite`: the bytes `xs` at offset `pos` (a gap is filled with zeros). -/
def patch (old : List UInt8) (pos : Nat) (xs : List UInt8) : List UInt8 :=
  old.take pos ++ List.replicate (pos - old.length) 0 ++ xs
    ++ old.drop (pos + xs.length)

/-- The first `k` buffered bytes go to the file. -/
def WStream.flush (g : WStream) (k : Nat) (fs : FileSystem) : WStream × FileSystem :=
  ({ g with pos := g.pos + (g.pending.take k).length, pending := g.pending.drop k },
    fs.write g.ino (patch (fs.data g.ino) g.pos (g.pending.take k)))

/-- How much of a buffer holding `n` bytes is written out: nothing while it
fits, else all full buffers. -/
def Libc.spill (L : Libc) (n : Nat) : Nat :=
  if n ≤ L.bufsiz then 0 else n / L.bufsiz * L.bufsiz

/-- `fwrite(xs, 1, xs.length, g)`: the number of bytes accepted. -/
def fwrite (L : Libc) (xs : List UInt8) (g : WStream) (w : World) :
    Nat × WStream × World :=
  let taken := match L.fault w.calls with
    | none => xs
    -- at least one byte is not accepted
    | some k => xs.take (min k (xs.length - 1))
  let g := { g with pending := g.pending ++ taken }
  let (g, fs) := g.flush (L.spill g.pending.length) w.fs
  (taken.length, g, { w.tick with fs := fs })

/-- `fclose` of a reader. -/
def fcloseRead (w : World) : World := w.tick

/-- `fclose` of a writer: 0, or EOF (-1) if not all buffered bytes reached
the file. -/
def fcloseWrite (L : Libc) (g : WStream) (w : World) : Int × World :=
  match L.fault w.calls with
  | none => (0, { w.tick with fs := (g.flush g.pending.length w.fs).2 })
  -- at least one pending byte is lost
  | some k =>
      (-1, { w.tick with fs := (g.flush (min k (g.pending.length - 1)) w.fs).2 })

/-! ## §3. Opening. -/

section fopen
variable {L : Libc} {p : CString} {w : World}

theorem fopenRead_of_none {i : Ino} (h : L.fault w.calls = none)
    (hp : w.fs.names p = some i) :
    fopenRead L p w = (some ⟨i, 0, [], false, false⟩, w.tick) := by
  unfold fopenRead
  rw [h, hp]

/-- Opening for reading fails on a fault or when there is no such file. -/
theorem fopenRead_of_fails (h : L.fault w.calls = none → w.fs.names p = none) :
    fopenRead L p w = (none, w.tick) := by
  unfold fopenRead
  cases hf : L.fault w.calls with
  | none => rw [h hf]
  | some k => rfl

theorem fopenWrite_of_none (h : L.fault w.calls = none) :
    fopenWrite L p w
      = (some ⟨(w.fs.truncate p).1, 0, []⟩, { w.tick with fs := (w.fs.truncate p).2 }) := by
  unfold fopenWrite
  rw [h]

theorem fopenWrite_of_fails (h : L.fault w.calls ≠ none) :
    fopenWrite L p w = (none, w.tick) := by
  unfold fopenWrite
  cases hf : L.fault w.calls with
  | none => exact absurd hf h
  | some k => rfl

end fopen

/-! ## §4. Reading. -/

theorem le_request (L : Libc) (need : Nat) : need ≤ L.request need := by
  have hB := L.le_bufsiz
  have hdiv := Nat.div_add_mod (need + L.bufsiz - 1) L.bufsiz
  have hmod := Nat.mod_lt (need + L.bufsiz - 1) (show 0 < L.bufsiz by omega)
  rw [Nat.mul_comm] at hdiv
  unfold Libc.request
  omega

/-- A stream that fits one buffer into its need asks for one buffer. -/
theorem request_eq_bufsiz (L : Libc) (need : Nat) (h0 : 0 < need)
    (h : need ≤ L.bufsiz) : L.request need = L.bufsiz := by
  have hdiv : (need + L.bufsiz - 1) / L.bufsiz = 1 := by
    rw [Nat.div_eq_iff (by omega)]
    omega
  unfold Libc.request
  rw [hdiv, Nat.one_mul]

/-- The bytes a reader can still deliver. -/
def RStream.left (f : RStream) (fs : FileSystem) : List UInt8 :=
  f.ahead ++ (fs.data f.ino).drop f.pos

/-- The end-of-file indicator is set only when nothing is left. -/
def RStream.EofOk (f : RStream) (fs : FileSystem) : Prop :=
  f.eof = true → f.left fs = []

/-- How many bytes the `fread` of `n` that is call `c` delivers at most. -/
def Libc.limit (L : Libc) (n c : Nat) : Nat :=
  match L.fault c with
  | none => n
  | some k => min k (n - 1)

section fread
variable (L : Libc) (n : Nat) (f : RStream) (w : World)

/-- What one `fread` pulls from the file. -/
def freadGot : List UInt8 :=
  if f.eof then []
  else ((w.fs.data f.ino).drop f.pos).take (L.request (n - f.ahead.length))

@[simp] theorem fread_world : (fread L n f w).2.2 = w.tick := by
  unfold fread
  dsimp only
  cases L.fault w.calls <;> rfl

@[simp] theorem fread_ino : (fread L n f w).2.1.ino = f.ino := by
  unfold fread
  dsimp only
  cases L.fault w.calls <;> rfl

theorem fread_pos_le : f.pos ≤ (fread L n f w).2.1.pos := by
  unfold fread
  dsimp only
  cases L.fault w.calls <;> exact Nat.le_add_right _ _

/-- Pulling bytes ahead changes nothing in what is left. -/
theorem ahead_append_got :
    f.ahead ++ freadGot L n f w
        ++ (w.fs.data f.ino).drop (f.pos + (freadGot L n f w).length)
      = f.left w.fs := by
  have hdrop : ∀ (l : List UInt8) (k : Nat), l.take k ++ l.drop (l.take k).length = l := by
    intro l k
    rw [List.length_take]
    rcases Nat.le_total k l.length with h | h
    · rw [Nat.min_eq_left h, List.take_append_drop]
    · rw [Nat.min_eq_right h, List.take_of_length_le h, List.drop_length, List.append_nil]
  unfold freadGot RStream.left
  cases f.eof
  · rw [if_neg (by simp), List.append_assoc, ← List.drop_drop, hdrop]
  · rw [if_pos rfl, List.append_nil]
    rfl

/-- **`fread` delivers a prefix of what is left**, and leaves the rest. -/
theorem fread_append_left :
    (fread L n f w).1 ++ (fread L n f w).2.1.left w.fs = f.left w.fs := by
  have h := ahead_append_got L n f w
  unfold fread RStream.left
  dsimp only
  cases L.fault w.calls <;>
    · dsimp only
      rw [← List.append_assoc, List.take_append_drop]
      exact h

/-- What the stream has pulled covers the demand. -/
theorem take_ahead_append_got (hok : f.EofOk w.fs) :
    (f.ahead ++ freadGot L n f w).take n = (f.left w.fs).take n := by
  unfold freadGot
  cases heof : f.eof
  · -- the request covers what the buffer lacks
    rw [if_neg (by simp)]
    unfold RStream.left
    rw [List.take_append, List.take_append, List.take_take,
        Nat.min_eq_left (le_request L _)]
  · -- the indicator is up: there is nothing left to deliver
    have hleft := hok heof
    unfold RStream.left at hleft ⊢
    obtain ⟨hahead, hdrop⟩ := List.append_eq_nil_iff.mp hleft
    rw [if_pos rfl, hahead, hdrop]

/-- **`fread` delivers what is left, as far as its fault lets it.** -/
theorem fread_eq_take_limit (hok : f.EofOk w.fs) :
    (fread L n f w).1 = (f.left w.fs).take (L.limit n w.calls) := by
  have hgot := take_ahead_append_got L n f w hok
  unfold fread Libc.limit
  dsimp only
  cases L.fault w.calls with
  | none => exact hgot
  | some k =>
      show (f.ahead ++ freadGot L n f w).take (min k (n - 1)) = _
      have hle : min k (n - 1) ≤ n := by omega
      calc (f.ahead ++ freadGot L n f w).take (min k (n - 1))
          = ((f.ahead ++ freadGot L n f w).take n).take (min k (n - 1)) := by
            rw [List.take_take, Nat.min_eq_left hle]
        _ = (f.left w.fs).take (min k (n - 1)) := by
            rw [hgot, List.take_take, Nat.min_eq_left hle]

/-- A clean `fread` delivers all it was asked for, if so much is left. -/
theorem fread_eq_take (hok : f.EofOk w.fs) (h : L.fault w.calls = none) :
    (fread L n f w).1 = (f.left w.fs).take n := by
  rw [fread_eq_take_limit L n f w hok]
  unfold Libc.limit
  rw [h]

/-- The count is full exactly when the call is not faulty and enough is left. -/
theorem fread_length_eq_iff (hok : f.EofOk w.fs) (hn : 0 < n) :
    (fread L n f w).1.length = n
      ↔ L.fault w.calls = none ∧ n ≤ (f.left w.fs).length := by
  cases hfault : L.fault w.calls with
  | none =>
      rw [fread_eq_take L n f w hok hfault, List.length_take]
      simp
  | some k =>
      have hlt : (fread L n f w).1.length < n := by
        unfold fread
        dsimp only
        rw [hfault]
        exact Nat.lt_of_le_of_lt (List.length_take_le _ _) (by omega)
      simp only [reduceCtorEq, false_and, iff_false]
      omega

theorem fread_length_le : (fread L n f w).1.length ≤ n := by
  unfold fread
  dsimp only
  cases L.fault w.calls with
  | none => exact List.length_take_le n _
  | some k => exact Nat.le_trans (List.length_take_le _ _) (by omega)

theorem fread_eofOk (hok : f.EofOk w.fs) : (fread L n f w).2.1.EofOk w.fs := by
  intro heof
  have happ := fread_append_left L n f w
  cases hfault : L.fault w.calls with
  | some k =>
      -- a fault does not set the indicator
      have h0 : f.eof = true := by
        unfold fread at heof
        rw [hfault] at heof
        exact heof
      rw [hok h0] at happ
      exact (List.append_eq_nil_iff.mp happ).2
  | none =>
      have htake := fread_eq_take L n f w hok hfault
      by_cases hshort : (f.left w.fs).length < n
      · -- everything was delivered
        rw [htake, List.take_of_length_le (Nat.le_of_lt hshort)] at happ
        exact List.append_right_eq_self.mp happ
      · -- a full count does not set it either
        have h0 : f.eof = true := by
          unfold fread at heof htake
          rw [hfault] at heof htake
          dsimp only at heof htake
          rcases Bool.or_eq_true_iff.mp heof with h | h
          · exact h
          · exfalso
            have hlen := congrArg List.length htake
            rw [List.length_take, List.length_take] at hlen
            have := of_decide_eq_true h
            omega
        rw [hok h0] at happ
        exact (List.append_eq_nil_iff.mp happ).2

/-- Without a fault the error flag stays what it was. -/
theorem fread_err_of_none (h : L.fault w.calls = none) :
    (fread L n f w).2.1.err = f.err := by
  unfold fread
  dsimp only
  rw [h]

/-- A fault sets it. -/
theorem fread_err_of_some {k : Nat} (h : L.fault w.calls = some k) :
    (fread L n f w).2.1.err = true := by
  unfold fread
  dsimp only
  rw [h]

/-- It is sticky. -/
theorem fread_err_sticky (h : f.err = true) : (fread L n f w).2.1.err = true := by
  cases hfault : L.fault w.calls with
  | none => rw [fread_err_of_none L n f w hfault, h]
  | some k => exact fread_err_of_some L n f w hfault

end fread

/-- A change to file `i` does not reach a reader of another file, nor one
whose offset is behind the end of that file before and after. -/
theorem left_eq_of_apart (f : RStream) {fs fs' : FileSystem} {i : Ino}
    (hdata : ∀ k, k ≠ i → fs'.data k = fs.data k)
    (h : f.ino ≠ i ∨ ((fs.data i).length ≤ f.pos ∧ (fs'.data i).length ≤ f.pos)) :
    f.left fs' = f.left fs := by
  unfold RStream.left
  by_cases hi : f.ino = i
  · obtain ⟨hold, hnew⟩ := h.resolve_left (fun hne => hne hi)
    rw [hi, List.drop_eq_nil_of_le hold, List.drop_eq_nil_of_le hnew]
  · rw [hdata f.ino hi]

/-! ## §5. Writing. -/

/-- The writer's offset is the end of its file. -/
def WStream.AtEnd (g : WStream) (fs : FileSystem) : Prop :=
  (fs.data g.ino).length = g.pos

/-- Everything the writer has accepted: what is in the file and what is
still in its buffer. -/
def WStream.accepted (g : WStream) (fs : FileSystem) : List UInt8 :=
  fs.data g.ino ++ g.pending

theorem patch_at_end (old xs : List UInt8) : patch old old.length xs = old ++ xs := by
  unfold patch
  rw [List.take_length, Nat.sub_self, List.replicate_zero, List.append_nil,
      List.drop_eq_nil_of_le (by omega), List.append_nil]

section flush
variable (g : WStream) (k : Nat) (fs : FileSystem)

@[simp] theorem flush_ino : (g.flush k fs).1.ino = g.ino := rfl

theorem flush_data_of_ne {i : Ino} (h : i ≠ g.ino) :
    (g.flush k fs).2.data i = fs.data i :=
  fs.write_data_of_ne h _

theorem flush_data (hend : g.AtEnd fs) :
    (g.flush k fs).2.data g.ino = fs.data g.ino ++ g.pending.take k := by
  unfold WStream.flush
  dsimp only
  rw [FileSystem.write_data_self, ← hend, patch_at_end]

/-- Flushing moves bytes from the buffer to the file. -/
theorem flush_accepted (hend : g.AtEnd fs) :
    (g.flush k fs).1.accepted (g.flush k fs).2 = g.accepted fs := by
  unfold WStream.accepted
  rw [flush_ino, flush_data g k fs hend, List.append_assoc]
  show fs.data g.ino ++ (g.pending.take k ++ g.pending.drop k) = _
  rw [List.take_append_drop]

theorem flush_atEnd (hend : g.AtEnd fs) :
    (g.flush k fs).1.AtEnd (g.flush k fs).2 := by
  unfold WStream.AtEnd at hend ⊢
  rw [flush_ino, flush_data g k fs hend, List.length_append, hend]
  rfl

end flush

/-- What `fwrite` takes of `xs`. -/
def fwriteTaken (L : Libc) (xs : List UInt8) (w : World) : List UInt8 :=
  match L.fault w.calls with
  | none => xs
  | some k => xs.take (min k (xs.length - 1))

section fwrite
variable (L : Libc) (xs : List UInt8) (g : WStream) (w : World)

theorem fwrite_count : (fwrite L xs g w).1 = (fwriteTaken L xs w).length := rfl

theorem fwriteTaken_of_none (h : L.fault w.calls = none) : fwriteTaken L xs w = xs := by
  unfold fwriteTaken
  rw [h]

/-- It takes a beginning. -/
theorem fwriteTaken_le : fwriteTaken L xs w <+: xs := by
  unfold fwriteTaken
  cases L.fault w.calls with
  | none => exact List.prefix_rfl
  | some k => exact List.take_prefix _ _

/-- The count is full exactly when the call is not faulty. -/
theorem fwrite_count_eq_iff (hne : xs ≠ []) :
    (fwrite L xs g w).1 = xs.length ↔ L.fault w.calls = none := by
  have hpos : 0 < xs.length := List.length_pos_iff.mpr hne
  rw [fwrite_count]
  cases hfault : L.fault w.calls with
  | none => simp [fwriteTaken_of_none L xs w hfault]
  | some k =>
      unfold fwriteTaken
      rw [hfault]
      simp only [List.length_take]
      constructor
      · intro h
        omega
      · intro h
        exact absurd h (by simp)

@[simp] theorem fwrite_ino : (fwrite L xs g w).2.1.ino = g.ino := rfl

theorem fwrite_data_of_ne {i : Ino} (h : i ≠ g.ino) :
    (fwrite L xs g w).2.2.fs.data i = w.fs.data i :=
  flush_data_of_ne { g with pending := g.pending ++ fwriteTaken L xs w } _ w.fs h

/-- **`fwrite` appends what it takes.** -/
theorem fwrite_accepted (hend : g.AtEnd w.fs) :
    (fwrite L xs g w).2.1.accepted (fwrite L xs g w).2.2.fs
      = g.accepted w.fs ++ fwriteTaken L xs w := by
  have hflush := flush_accepted { g with pending := g.pending ++ fwriteTaken L xs w }
    (L.spill (g.pending ++ fwriteTaken L xs w).length) w.fs hend
  refine hflush.trans ?_
  unfold WStream.accepted
  rw [List.append_assoc]

theorem fwrite_atEnd (hend : g.AtEnd w.fs) :
    (fwrite L xs g w).2.1.AtEnd (fwrite L xs g w).2.2.fs :=
  flush_atEnd { g with pending := g.pending ++ fwriteTaken L xs w } _ w.fs hend

theorem fwrite_pending : (fwrite L xs g w).2.1.pending
    = (g.pending ++ fwriteTaken L xs w).drop
        (L.spill (g.pending ++ fwriteTaken L xs w).length) := rfl

/-- While a small write still fits into the buffer, nothing reaches the file. -/
theorem fwrite_data_of_fits (h : (g.pending ++ fwriteTaken L xs w).length ≤ L.bufsiz)
    (hend : g.AtEnd w.fs) :
    (fwrite L xs g w).2.2.fs.data g.ino = w.fs.data g.ino := by
  have hdata := flush_data { g with pending := g.pending ++ fwriteTaken L xs w }
    (L.spill (g.pending ++ fwriteTaken L xs w).length) w.fs hend
  refine hdata.trans ?_
  unfold Libc.spill
  rw [if_pos h, List.take_zero, List.append_nil]

/-- Writes below a buffer leave some bytes, and at most a buffer, pending. -/
theorem fwrite_pending_bounds (hsmall : xs.length < L.bufsiz)
    (hpend : g.pending.length ≤ L.bufsiz) :
    (fwrite L xs g w).2.1.pending.length ≤ L.bufsiz ∧
      (0 < (g.pending ++ fwriteTaken L xs w).length →
        0 < (fwrite L xs g w).2.1.pending.length) := by
  have htaken : (fwriteTaken L xs w).length ≤ xs.length := by
    unfold fwriteTaken
    cases L.fault w.calls with
    | none => exact Nat.le_refl _
    | some k => exact List.length_take_le' _ _
  rw [fwrite_pending, List.length_drop]
  simp only [List.length_append]
  unfold Libc.spill
  by_cases hfit : g.pending.length + (fwriteTaken L xs w).length ≤ L.bufsiz
  · rw [if_pos hfit]
    omega
  · -- one full buffer goes out, and less than a buffer stays
    have hone : (g.pending.length + (fwriteTaken L xs w).length) / L.bufsiz = 1 := by
      rw [Nat.div_eq_iff (by omega)]
      omega
    rw [if_neg hfit, hone]
    omega

end fwrite

/-! ## §6. Closing. -/

section fclose
variable (L : Libc) (g : WStream) (w : World)

@[simp] theorem fcloseWrite_names : (fcloseWrite L g w).2.fs.names = w.fs.names := by
  unfold fcloseWrite
  cases L.fault w.calls <;> rfl

theorem fcloseWrite_data_of_ne {i : Ino} (h : i ≠ g.ino) :
    (fcloseWrite L g w).2.fs.data i = w.fs.data i := by
  unfold fcloseWrite
  cases L.fault w.calls <;> exact flush_data_of_ne g _ w.fs h

/-- Whatever `fclose` loses, it loses at the end. -/
theorem fcloseWrite_data_le (hend : g.AtEnd w.fs) :
    (fcloseWrite L g w).2.fs.data g.ino <+: g.accepted w.fs := by
  have hflush : ∀ k, (g.flush k w.fs).2.data g.ino <+: g.accepted w.fs := by
    intro k
    rw [flush_data g k w.fs hend]
    exact (List.prefix_append_right_inj _).mpr (List.take_prefix k g.pending)
  unfold fcloseWrite
  cases L.fault w.calls with
  | none => exact hflush _
  | some k => exact hflush _

/-- A clean `fclose` leaves everything accepted in the file. -/
theorem fcloseWrite_data (hend : g.AtEnd w.fs) (h : L.fault w.calls = none) :
    (fcloseWrite L g w).2.fs.data g.ino = g.accepted w.fs := by
  unfold fcloseWrite
  rw [h]
  show (g.flush g.pending.length w.fs).2.data g.ino = _
  rw [flush_data g _ w.fs hend, List.take_length]
  rfl

/-- A faulty one loses something, if anything was pending. -/
theorem fcloseWrite_data_length (hend : g.AtEnd w.fs) {k : Nat}
    (h : L.fault w.calls = some k) (hpend : 0 < g.pending.length) :
    ((fcloseWrite L g w).2.fs.data g.ino).length < (g.accepted w.fs).length := by
  unfold fcloseWrite
  rw [h]
  show ((g.flush (min k (g.pending.length - 1)) w.fs).2.data g.ino).length < _
  rw [flush_data g _ w.fs hend]
  unfold WStream.accepted
  rw [List.length_append, List.length_append, List.length_take]
  omega

/-- **`fclose` completes the file** unless it loses something. -/
theorem fcloseWrite_data_eq_iff (hend : g.AtEnd w.fs) :
    (fcloseWrite L g w).2.fs.data g.ino = g.accepted w.fs
      ↔ L.fault w.calls = none ∨ g.pending = [] := by
  cases hfault : L.fault w.calls with
  | none =>
      simp only [true_or, iff_true]
      exact fcloseWrite_data L g w hend hfault
  | some k =>
      simp only [reduceCtorEq, false_or]
      constructor
      · intro h
        by_contra hne
        have hlt := fcloseWrite_data_length L g w hend hfault (List.length_pos_iff.mpr hne)
        rw [h] at hlt
        exact Nat.lt_irrefl _ hlt
      · intro hnil
        unfold fcloseWrite
        rw [hfault]
        show (g.flush _ w.fs).2.data g.ino = _
        unfold WStream.accepted
        rw [flush_data g _ w.fs hend, hnil, List.take_nil]

end fclose

end ConcurrencyCrypto.Library
