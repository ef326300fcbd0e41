/-
  ConcurrencyCrypto.Library.Streams
  ─────────────────────────────────
  **STANDARD INPUT AND OUTPUT OF PROCESSES THAT FORK.**

  A child shares with its parent the open file behind `stdin`, with the offset
  in it, and has a copy of what the parent's `stdin` and `stdout` have in
  their buffers.  When it returns, `exit` writes its output buffer out, and
  puts the offset back over the bytes it has not taken from its input buffer:
  POSIX asks for that where the file can be repositioned.  A program that is
  executed loses both buffers and may read the file itself.

  What surrounds a process is a `Surroundings`: the kind of its input, the
  sizes of the blocks, and what other programs do.  Texts are written whole,
  and not by a `read` from a terminal, which lets prompts out.  `Undisturbed`
  says that nobody else moves the input and that no line waits in the output
  buffer:

    • `Input.ahead_upTo`       — whatever the blocks, the text is read in its
                                 order,
    • `Output.Delivers.put`    — every line that is printed arrives once.
-/
import ConcurrencyCrypto.Library.Lines

namespace ConcurrencyCrypto.Library

/-! ## §1. The open file. -/

/-- What the descriptor 0 of several processes refers to. -/
structure OpenFile where
  /-- A regular file can be repositioned; a pipe and a terminal cannot. -/
  seekable : Bool
  data : List UInt8
  /-- The number of bytes that have been read. -/
  offset : Nat
  deriving DecidableEq

/-- What is still to be read. -/
def OpenFile.rest (f : OpenFile) : List UInt8 := f.data.drop f.offset

/-- `lseek(0, -n, SEEK_CUR)`, which fails in front of the beginning. -/
def OpenFile.seekBack (n : Nat) (f : OpenFile) : OpenFile :=
  if f.seekable && n ≤ f.offset then { f with offset := f.offset - n } else f

/-- What a process finds around it. -/
structure Surroundings where
  /-- Whether the standard input can be repositioned. -/
  seekable : Bool
  /-- A `read` at the offset `n` delivers `block n + 1` bytes, if there are
  that many. -/
  block : Nat → Nat
  /-- What executed program number `n` leaves of the input. -/
  leaves : Nat → OpenFile → OpenFile
  /-- Whether `printf` writes the buffer out, by the texts that are in it. -/
  writesOut : List CString → Bool

/-! ## §2. `stdin`. -/

/-- The `stdin` of a process. -/
structure Input where
  /-- What is in the buffer and has not been taken. -/
  unread : List UInt8
  file : OpenFile
  deriving DecidableEq

namespace Input
variable (E : Surroundings)

def start (stdin : List UInt8) : Input := ⟨[], E.seekable, stdin, 0⟩

/-- The text in front of the process. -/
def ahead (s : Input) : List UInt8 := s.unread ++ s.file.rest

/-- `read` into the buffer, if nothing is left in it. -/
def fill (s : Input) : Input :=
  if s.unread = [] then
    -- at the end of the file this is the empty block
    let n := min (E.block s.file.offset + 1) s.file.rest.length
    ⟨s.file.rest.take n, { s.file with offset := s.file.offset + n }⟩
  else s

/-- `n` times `getc`. -/
def advance : Nat → Input → Input
  | 0, s => s
  | n + 1, s => advance n { s.fill E with unread := (s.fill E).unread.tail }

/-- Reading up to where `rest` is in front of the process. -/
def upTo (rest : List UInt8) (s : Input) : Input := s.advance E (s.ahead.length - rest.length)

/-- What `exit` does to the file: what the process has read ahead is there
again for the others. -/
def giveBack (s : Input) : Input := { s with file := s.file.seekBack s.unread.length }

end Input

/-! ## §3. `stdout`. -/

/-- The `stdout` of a process, text by text. -/
structure Output where
  /-- What is in the buffer. -/
  pending : List CString
  /-- What has been written, by the process and its children. -/
  written : List CString
  deriving DecidableEq

/-- The text ends with a newline. -/
def endsLine (text : CString) : Bool := text.getLast? == some 10

/-- The texts that end a line. -/
def linesOf (texts : List CString) : List CString := texts.filter endsLine

namespace Output

/-- `printf(text)`. -/
def put (E : Surroundings) (text : CString) (o : Output) : Output :=
  if E.writesOut (o.pending ++ [text]) then ⟨[], o.written ++ (o.pending ++ [text])⟩
  else { o with pending := o.pending ++ [text] }

/-- `fflush(stdout)`, as `exit` does it. -/
def flush (o : Output) : Output := ⟨[], o.written ++ o.pending⟩

end Output

/-! ## §4. Undisturbed surroundings. -/

/-- Nobody else reads or moves the input, and a newline is written at once:
the input is a pipe or a terminal, the output a terminal or not buffered. -/
structure Surroundings.Undisturbed (E : Surroundings) : Prop where
  notSeekable : E.seekable = false
  left : ∀ n f, E.leaves n f = f
  lineByLine : ∀ texts text, endsLine text = true → E.writesOut (texts ++ [text]) = true

/-- A terminal, of which the executed programs do not read. -/
def Surroundings.terminal : Surroundings where
  seekable := false
  block := fun _ => 1023
  leaves := fun _ f => f
  writesOut := fun texts => (texts.getLast?.map endsLine).getD false

/-- The same with a regular file for the input. -/
def Surroundings.regularFile : Surroundings :=
  { Surroundings.terminal with seekable := true, block := fun _ => 4095 }

theorem Surroundings.terminal_undisturbed : Surroundings.terminal.Undisturbed where
  notSeekable := rfl
  left := fun _ _ => rfl
  lineByLine := by
    intro texts text htext
    show ((texts ++ [text]).getLast?.map endsLine).getD false = true
    rw [List.getLast?_concat]
    exact htext

section rules
variable {E : Surroundings} {s : Input} {f : OpenFile} {o : Output} {texts : List CString}

theorem OpenFile.seekBack_eq (h : f.seekable = false) (n : Nat) : f.seekBack n = f := by
  rw [OpenFile.seekBack, h]
  rfl

/-- A block is a piece of the text. -/
@[simp] theorem Input.ahead_fill : (s.fill E).ahead = s.ahead := by
  unfold Input.fill
  by_cases h : s.unread = []
  · rw [if_pos h]
    simp only [Input.ahead, OpenFile.rest, h, List.nil_append]
    rw [← List.drop_drop, List.take_append_drop]
  · rw [if_neg h]

@[simp] theorem Input.seekable_fill : (s.fill E).file.seekable = s.file.seekable := by
  unfold Input.fill
  by_cases h : s.unread = []
  · rw [if_pos h]
  · rw [if_neg h]

/-- Only at the end of the text a `read` delivers nothing. -/
theorem Input.fill_ne_nil (h : s.ahead ≠ []) : (s.fill E).unread ≠ [] := by
  unfold Input.fill
  by_cases hnil : s.unread = []
  · rw [if_pos hnil]
    have hrest : s.file.rest ≠ [] := by
      intro hrest
      exact h (by rw [Input.ahead, hnil, hrest]; rfl)
    have hpos := List.length_pos_iff.mpr hrest
    intro htake
    rw [List.take_eq_nil_iff] at htake
    rcases htake with hzero | hrest'
    · omega
    · exact hrest hrest'
  · rw [if_neg hnil]
    exact hnil

/-- **THE BLOCKS DO NOT SHOW**: `n` bytes are taken from the front. -/
theorem Input.ahead_advance (n : Nat) : ∀ {s : Input},
    (s.advance E n).ahead = s.ahead.drop n ∧
      (s.advance E n).file.seekable = s.file.seekable := by
  induction n with
  | zero => exact ⟨rfl, rfl⟩
  | succ n ih =>
      intro s
      obtain ⟨hahead, hseek⟩ :=
        ih (s := { s.fill E with unread := (s.fill E).unread.tail })
      refine ⟨?_, hseek.trans Input.seekable_fill⟩
      rw [Input.advance, hahead, ← Input.ahead_fill (E := E) (s := s)]
      cases hunread : (s.fill E).unread with
      | nil =>
          -- the end of the text
          have hnil : (s.fill E).ahead = [] := by
            by_contra hne
            rw [Input.ahead_fill] at hne
            exact Input.fill_ne_nil hne hunread
          have hrest : (s.fill E).file.rest = [] := by
            rw [Input.ahead, hunread] at hnil
            exact hnil
          rw [hnil]
          simp only [Input.ahead, hrest, List.tail_nil, List.nil_append, List.drop_nil]
      | cons b unread =>
          simp only [Input.ahead, hunread, List.tail_cons, List.cons_append, List.drop_succ_cons]

theorem Input.ahead_upTo {rest : List UInt8} (h : rest <:+ s.ahead) :
    (s.upTo E rest).ahead = rest := by
  rw [Input.upTo, (Input.ahead_advance _).1]
  exact (List.suffix_iff_eq_drop.mp h).symm

theorem Input.seekable_upTo (rest : List UInt8) :
    (s.upTo E rest).file.seekable = s.file.seekable := (Input.ahead_advance _).2

/-- Where the file cannot be repositioned, `exit` leaves it alone. -/
theorem Input.giveBack_eq (h : s.file.seekable = false) : s.giveBack = s := by
  unfold Input.giveBack
  rw [OpenFile.seekBack_eq h]

/-! ## §5. The lines of the output. -/

@[simp] theorem linesOf_append (a b : List CString) :
    linesOf (a ++ b) = linesOf a ++ linesOf b := List.filter_append a b

/-- Of the texts printed so far, all lines are written, each once. -/
structure Output.Delivers (o : Output) (texts : List CString) : Prop where
  pending : linesOf o.pending = []
  written : linesOf o.written = linesOf texts

theorem Output.delivers_nil : (⟨[], []⟩ : Output).Delivers [] := ⟨rfl, rfl⟩

theorem Output.Delivers.put (hE : E.Undisturbed) (h : o.Delivers texts) (text : CString) :
    (o.put E text).Delivers (texts ++ [text]) := by
  unfold Output.put
  by_cases hout : E.writesOut (o.pending ++ [text]) = true
  · rw [if_pos hout]
    refine ⟨rfl, ?_⟩
    simp only [linesOf_append, h.pending, h.written, List.nil_append]
  · rw [if_neg hout]
    have hpart : endsLine text = false := by
      rw [Bool.eq_false_iff]
      exact fun htext => hout (hE.lineByLine _ text htext)
    have hnil : linesOf [text] = [] := by
      simp [linesOf, hpart]
    refine ⟨?_, ?_⟩
    · rw [linesOf_append, h.pending, hnil]
      rfl
    · rw [linesOf_append, h.written, hnil, List.append_nil]

/-- A part of a line is not counted. -/
theorem Output.Delivers.putPart (hE : E.Undisturbed) (h : o.Delivers texts) {text : CString}
    (htext : endsLine text = false) : (o.put E text).Delivers texts := by
  have hput := h.put hE text
  refine ⟨hput.pending, hput.written.trans ?_⟩
  rw [linesOf_append]
  simp [linesOf, htext]

theorem Output.Delivers.flush (h : o.Delivers texts) : o.flush.Delivers texts := by
  refine ⟨rfl, ?_⟩
  rw [Output.flush, linesOf_append, h.pending, h.written, List.append_nil]

/-- What a child has written, with the parent's own buffer. -/
theorem Output.Delivers.parent {child : Output} {texts' : List CString}
    (h : o.Delivers texts) (hchild : child.Delivers texts') :
    Output.Delivers ⟨o.pending, child.written⟩ texts' := ⟨h.pending, hchild.written⟩

/-- A program that is executed loses the buffer. -/
theorem Output.Delivers.lose (h : o.Delivers texts) :
    Output.Delivers ⟨[], o.written⟩ texts := ⟨rfl, h.written⟩

end rules

end ConcurrencyCrypto.Library
