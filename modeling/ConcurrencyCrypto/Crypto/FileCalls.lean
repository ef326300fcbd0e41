/-
  ConcurrencyCrypto.Crypto.FileCalls
  ──────────────────────────────────
  **WHOLE CALLS OF `encrypt_file` AND `decrypt_file`.**

  Each call is a straight line of library calls up to the loop, the loop, and
  the two `fclose` calls.  The first part either fails, and the call returns
  0, or it arrives at one definite state (`encryptStart`, `decryptStart`)
  from which the loop is `Streaming`:

    • a reader of the truncated output file itself finds nothing
      (encryption) or only what it had read ahead (decryption),
    • any other reader finds its whole text.
-/
import ConcurrencyCrypto.Crypto.FileStream

namespace ConcurrencyCrypto.Crypto

open ConcurrencyCrypto.Library

/-- `fclose(fin); fclose(fout);`. -/
def closeBoth (L : Libc) (s : XorState) : World :=
  (fcloseWrite L s.fout (fcloseRead s.world)).2

/-- What a call makes of the end of its loop. -/
def finish (L : Libc) : Int × XorState → FileResult
  | (ok, s) => ⟨ok, closeBoth L s, s.counters⟩

/-- A call returns what its loop returns, after the two `fclose` calls. -/
theorem finish_of_loop (L : Libc) (loop : Option (Int × XorState)) :
    (match loop with
      | none => none
      | some (ok, s) =>
          some ⟨ok, (fcloseWrite L s.fout (fcloseRead s.world)).2, s.counters⟩)
      = loop.map (finish L) := by
  cases loop <;> rfl

/-- The world with its first `n` further calls made. -/
def ticks (n : Nat) (w : World) : World := { w with calls := w.calls + n }

/-! ## §1. The way into the loop: `encrypt_file`. -/

section encrypt
variable (L : Libc) (st : Stack) (key : Vector UInt8 32) (in_path out_path : CString)
  (w : World)

/-- The nonce `encrypt_file` draws. -/
def drawnNonce : Vector UInt8 12 := Vector.ofFn fun i => L.urandom (w.calls + 1) i

theorem fill_random_of_none (h0 : L.fault w.calls = none)
    (h1 : L.fault (w.calls + 1) = none) :
    fill_random L w = (some (drawnNonce L w), ticks 3 w) := by
  unfold fill_random
  simp only [World.tick, h0, h1]
  rfl

theorem fill_random_of_fails
    (h : L.fault w.calls = none → L.fault (w.calls + 1) ≠ none) :
    ∃ w', fill_random L w = (none, w') := by
  unfold fill_random
  cases h0 : L.fault w.calls with
  | some k => exact ⟨_, rfl⟩
  | none =>
      cases h1 : L.fault (w.calls + 1) with
      | none => exact absurd h1 (h h0)
      | some k =>
          simp only [World.tick, h1]
          exact ⟨_, rfl⟩

/-- The world in which the nonce is written. -/
def encryptOpened : World := { ticks 5 w with fs := (w.fs.truncate out_path).2 }

/-- The nonce goes into the truncated output file. -/
def writeNonce : Nat × WStream × World :=
  fwrite L (drawnNonce L w).toList ⟨(w.fs.truncate out_path).1, 0, []⟩
    (encryptOpened out_path w)

/-- The state in which `encrypt_file` enters the loop, reading file `i`. -/
def encryptStart (i : Ino) : XorState where
  counter := 0
  keystream := st.keystream
  buffer := st.buffer
  fin := ⟨i, 0, [], false, false⟩
  fout := (writeNonce L out_path w).2.1
  world := (writeNonce L out_path w).2.2
  counters := []

theorem writeNonce_count_iff :
    (writeNonce L out_path w).1 = NONCE_SIZE ↔ L.fault (w.calls + 5) = none := by
  have hlen : (drawnNonce L w).toList.length = NONCE_SIZE := Vector.length_toList
  rw [← hlen]
  exact fwrite_count_eq_iff L _ _ (encryptOpened out_path w)
    (List.ne_nil_of_length_pos (hlen ▸ (by decide)))

/-- The calls before the loop that decide: all but the first `fclose`. -/
structure EncryptOpens : Prop where
  urandom_open : L.fault w.calls = none
  urandom_read : L.fault (w.calls + 1) = none
  input_open : L.fault (w.calls + 3) = none
  output_open : L.fault (w.calls + 4) = none
  nonce_write : L.fault (w.calls + 5) = none

/-- If they succeed, the call is its loop. -/
theorem encrypt_file_of_opens {i : Ino} (hin : w.fs.names in_path = some i)
    (h : EncryptOpens L w) (fuel : Nat) :
    encrypt_file L fuel st key in_path out_path w
      = (xorLoop L key (drawnNonce L w) fuel (encryptStart L st out_path w i)).map
          (finish L) := by
  unfold encrypt_file
  simp only [fill_random_of_none L w h.urandom_open h.urandom_read]
  simp only [fopenRead_of_none (w := ticks 3 w) h.input_open hin]
  simp only [fopenWrite_of_none (w := (ticks 3 w).tick) h.output_open]
  refine (if_pos ((writeNonce_count_iff L out_path w).mpr h.nonce_write)).trans ?_
  exact finish_of_loop L (xorLoop L key (drawnNonce L w) fuel (encryptStart L st out_path w i))

/-- Otherwise the call returns 0. -/
theorem encrypt_file_of_not_opens
    (h : EncryptOpens L w → w.fs.names in_path = none) :
    ∃ w', ∀ fuel, encrypt_file L fuel st key in_path out_path w = some ⟨0, w', []⟩ := by
  unfold encrypt_file
  -- call by call, up to the first that fails
  by_cases hrand : L.fault w.calls = none ∧ L.fault (w.calls + 1) = none
  · obtain ⟨h0, h1⟩ := hrand
    simp only [fill_random_of_none L w h0 h1]
    cases hin : w.fs.names in_path with
    | none =>
        simp only [fopenRead_of_fails (w := ticks 3 w) (fun _ => hin)]
        exact ⟨_, fun _ => rfl⟩
    | some i =>
        by_cases h3 : L.fault (w.calls + 3) = none
        · simp only [fopenRead_of_none (w := ticks 3 w) h3 hin]
          by_cases h4 : L.fault (w.calls + 4) = none
          · simp only [fopenWrite_of_none (w := (ticks 3 w).tick) h4]
            have hshort : ¬ (writeNonce L out_path w).1 = NONCE_SIZE := by
              rw [writeNonce_count_iff]
              intro h5
              have := h ⟨h0, h1, h3, h4, h5⟩
              rw [hin] at this
              cases this
            exact ⟨_, fun _ => if_neg hshort⟩
          · simp only [fopenWrite_of_fails (w := (ticks 3 w).tick) h4]
            exact ⟨_, fun _ => rfl⟩
        · simp only [fopenRead_of_fails (w := ticks 3 w) (fun hc => absurd hc h3)]
          exact ⟨_, fun _ => rfl⟩
  · obtain ⟨w', hw'⟩ := fill_random_of_fails L w (fun h0 h1 => hrand ⟨h0, h1⟩)
    simp only [hw']
    exact ⟨_, fun _ => rfl⟩

end encrypt

/-! ## §2. The way into the loop: `decrypt_file`. -/

/-- The nonce at the head of an encrypted file. -/
def headerNonce (file : List UInt8) : Vector UInt8 12 :=
  blit (Vector.replicate 12 0) 0 (file.take NONCE_SIZE)

section decrypt
variable (L : Libc) (st : Stack) (key : Vector UInt8 32) (in_path out_path : CString)
  (w : World) {i : Ino}

/-- The read of the nonce from file `i`. -/
def readNonce (i : Ino) : List UInt8 × RStream × World :=
  fread L NONCE_SIZE ⟨i, 0, [], false, false⟩ w.tick

/-- The state in which `decrypt_file` enters the loop. -/
def decryptStart (i : Ino) : XorState where
  counter := 0
  keystream := st.keystream
  buffer := st.buffer
  fin := (readNonce L w i).2.1
  fout := ⟨(w.fs.truncate out_path).1, 0, []⟩
  world := { ticks 3 w with fs := (w.fs.truncate out_path).2 }
  counters := []

theorem readNonce_length_iff :
    (readNonce L w i).1.length = NONCE_SIZE
      ↔ L.fault (w.calls + 1) = none ∧ NONCE_SIZE ≤ (w.fs.data i).length :=
  fread_length_eq_iff L NONCE_SIZE ⟨i, 0, [], false, false⟩ w.tick nofun (Nat.succ_pos 11)

/-- The calls before the loop. -/
structure DecryptOpens : Prop where
  input_open : L.fault w.calls = none
  nonce_read : L.fault (w.calls + 1) = none
  output_open : L.fault (w.calls + 2) = none

/-- Behind a whole nonce the output file is opened. -/
theorem decrypt_file_of_nonce (h0 : L.fault w.calls = none) (hin : w.fs.names in_path = some i)
    (hcount : (readNonce L w i).1.length = NONCE_SIZE) (fuel : Nat) :
    decrypt_file L fuel st key in_path out_path w
      = match fopenWrite L out_path (readNonce L w i).2.2 with
        | (none, w) => some ⟨0, fcloseRead (w.print (openError L out_path w)), []⟩
        | (some fout, w') =>
          (chacha20_xor_stream L fuel key (blit (Vector.replicate 12 0) 0 (readNonce L w i).1)
            st (readNonce L w i).2.1 fout w').map (finish L) := by
  unfold decrypt_file
  simp only [fopenRead_of_none h0 hin]
  refine (if_neg (not_not.mpr hcount)).trans ?_
  unfold readNonce
  generalize fread L NONCE_SIZE ⟨i, 0, [], false, false⟩ w.tick = r
  rcases fopenWrite L out_path r.2.2 with ⟨_ | fout, w'⟩
  · rfl
  · exact finish_of_loop L _

/-- If they succeed on a file with a whole nonce, the call is its loop. -/
theorem decrypt_file_of_opens (hin : w.fs.names in_path = some i)
    (hlen : NONCE_SIZE ≤ (w.fs.data i).length) (h : DecryptOpens L w) (fuel : Nat) :
    decrypt_file L fuel st key in_path out_path w
      = (xorLoop L key (headerNonce (w.fs.data i)) fuel
          (decryptStart L st out_path w i)).map (finish L) := by
  have hcount := (readNonce_length_iff L w).mpr ⟨h.nonce_read, hlen⟩
  have hbytes : (readNonce L w i).1 = (w.fs.data i).take NONCE_SIZE :=
    fread_eq_take L NONCE_SIZE ⟨i, 0, [], false, false⟩ w.tick nofun h.nonce_read
  have hworld : (readNonce L w i).2.2 = ticks 2 w := fread_world L NONCE_SIZE _ w.tick
  rw [decrypt_file_of_nonce L st key in_path out_path w h.input_open hin hcount, hworld,
    hbytes, fopenWrite_of_none h.output_open]
  rfl

/-- On a file without a whole nonce the call returns 0 and changes no file. -/
theorem decrypt_file_of_short (hin : w.fs.names in_path = some i)
    (hlen : (w.fs.data i).length < NONCE_SIZE) :
    ∃ w', w'.fs = w.fs ∧
      ∀ fuel, decrypt_file L fuel st key in_path out_path w = some ⟨0, w', []⟩ := by
  unfold decrypt_file
  by_cases h0 : L.fault w.calls = none
  · simp only [fopenRead_of_none h0 hin]
    have hcount : (readNonce L w i).1.length ≠ NONCE_SIZE := by
      rw [Ne, readNonce_length_iff]
      omega
    have hworld : (readNonce L w i).2.2 = ticks 2 w := fread_world L NONCE_SIZE _ w.tick
    refine ⟨_, ?_, fun _ => if_pos hcount⟩
    show (readNonce L w i).2.2.fs = w.fs
    rw [hworld]
    rfl
  · simp only [fopenRead_of_fails (fun hc => absurd hc h0)]
    refine ⟨_, ?_, fun _ => rfl⟩
    rfl

/-- Otherwise, too, it returns 0. -/
theorem decrypt_file_of_not_opens
    (h : DecryptOpens L w → ∀ i, w.fs.names in_path = some i →
      (w.fs.data i).length < NONCE_SIZE) :
    ∃ w', ∀ fuel, decrypt_file L fuel st key in_path out_path w = some ⟨0, w', []⟩ := by
  cases hin : w.fs.names in_path with
  | none =>
      unfold decrypt_file
      simp only [fopenRead_of_fails (fun _ => hin)]
      exact ⟨_, fun _ => rfl⟩
  | some i =>
      by_cases hlen : (w.fs.data i).length < NONCE_SIZE
      · obtain ⟨w', -, hw'⟩ := decrypt_file_of_short L st key in_path out_path w hin hlen
        exact ⟨w', hw'⟩
      · -- the file is long enough, so some call failed
        by_cases h0 : L.fault w.calls = none
        · by_cases h1 : L.fault (w.calls + 1) = none
          · have hcount := (readNonce_length_iff L w).mpr ⟨h1, Nat.le_of_not_lt hlen⟩
            have hworld : (readNonce L w i).2.2 = ticks 2 w :=
              fread_world L NONCE_SIZE _ w.tick
            have h2 : L.fault (w.calls + 2) ≠ none :=
              fun h2 => hlen (h ⟨h0, h1, h2⟩ i hin)
            have hopen : fopenWrite L out_path (readNonce L w i).2.2
                = (none, (readNonce L w i).2.2.tick) := by
              rw [hworld]
              exact fopenWrite_of_fails h2
            apply Exists.intro
            intro fuel
            rw [decrypt_file_of_nonce L st key in_path out_path w h0 hin hcount, hopen]
          · have hcount : (readNonce L w i).1.length ≠ NONCE_SIZE :=
              fun hc => h1 ((readNonce_length_iff L w).mp hc).1
            unfold decrypt_file
            simp only [fopenRead_of_none h0 hin]
            exact ⟨_, fun _ => if_pos hcount⟩
        · unfold decrypt_file
          simp only [fopenRead_of_fails (fun hc => absurd hc h0)]
          exact ⟨_, fun _ => rfl⟩

end decrypt

/-! ## §3. What the reader finds behind the truncation. -/

/-- The loop is entered at `s` to copy the text `l` behind the header `t`,
which is still in the writer's buffer. -/
structure Entry (L : Libc) (out_path : CString) (s : XorState) (l t : List UInt8) :
    Prop where
  streaming : Streaming L s l t 0
  err_eq : s.fin.err = false
  counters_eq : s.counters = []
  names_eq : s.world.fs.names out_path = some s.fout.ino
  pending_eq : s.fout.pending = t

section entry
variable {L : Libc} (st : Stack) {in_path : CString} (out_path : CString)
  {w : World} {i : Ino} {l : List UInt8}

/-- The nonce fits into the writer's buffer. -/
theorem writeNonce_pending (h5 : L.fault (w.calls + 5) = none) :
    (writeNonce L out_path w).2.1.pending = (drawnNonce L w).toList := by
  have hB := L.le_bufsiz
  unfold writeNonce
  rw [fwrite_pending, fwriteTaken_of_none L _ _ h5, List.nil_append, Vector.length_toList]
  unfold Libc.spill
  rw [if_pos (by omega), List.drop_zero]

theorem writeNonce_data_self (h5 : L.fault (w.calls + 5) = none) :
    (writeNonce L out_path w).2.2.fs.data (w.fs.truncate out_path).1 = [] := by
  have hB := L.le_bufsiz
  refine (fwrite_data_of_fits L _ ⟨(w.fs.truncate out_path).1, 0, []⟩
    (encryptOpened out_path w) ?_ ?_).trans (w.fs.truncate_data_self out_path)
  · rw [fwriteTaken_of_none L _ _ h5, List.nil_append, Vector.length_toList]
    omega
  · exact congrArg List.length (w.fs.truncate_data_self out_path)

theorem encrypt_entry (h5 : L.fault (w.calls + 5) = none)
    (hleft : (encryptStart L st out_path w i).fin.left
      (encryptStart L st out_path w i).world.fs = l)
    (hapart : l = [] ∨ i ≠ (w.fs.truncate out_path).1) :
    Entry L out_path (encryptStart L st out_path w i) l (drawnNonce L w).toList where
  streaming := by
    have hpend := writeNonce_pending out_path h5
    have hdata := writeNonce_data_self out_path h5
    have hB := L.le_bufsiz
    refine ⟨hleft, nofun, ?_, ?_, rfl, ?_, hapart.imp id Or.inl⟩
    · exact fwrite_atEnd L _ ⟨_, 0, []⟩ (encryptOpened out_path w)
        (congrArg List.length (w.fs.truncate_data_self out_path))
    · show (writeNonce L out_path w).2.2.fs.data (w.fs.truncate out_path).1
        ++ (writeNonce L out_path w).2.1.pending = _
      rw [hdata, hpend, List.nil_append]
    · show (writeNonce L out_path w).2.1.pending.length ≤ L.bufsiz
      rw [hpend, Vector.length_toList]
      omega
  err_eq := rfl
  counters_eq := rfl
  names_eq := w.fs.truncate_names_self out_path
  pending_eq := writeNonce_pending out_path h5

/-- Encryption reads the whole input, if that is another file. -/
theorem encrypt_entry_apart (h5 : L.fault (w.calls + 5) = none)
    (hin : w.fs.names in_path = some i) (hne : ¬ w.fs.SameFile in_path out_path) :
    Entry L out_path (encryptStart L st out_path w i) (w.fs.data i)
      (drawnNonce L w).toList := by
  have hi : i ≠ (w.fs.truncate out_path).1 := fun h => hne ((FileSystem.eq_truncate_iff hin).mp h)
  refine encrypt_entry st out_path h5 ?_ (Or.inr hi)
  show [] ++ ((writeNonce L out_path w).2.2.fs.data i).drop 0 = w.fs.data i
  rw [List.nil_append, List.drop_zero, ← w.fs.truncate_data_of_ne out_path hi]
  exact fwrite_data_of_ne L _ _ (encryptOpened out_path w) hi

/-- It reads nothing, if the input is the file just truncated. -/
theorem encrypt_entry_same (h5 : L.fault (w.calls + 5) = none)
    (hin : w.fs.names in_path = some i) (hsame : w.fs.SameFile in_path out_path) :
    Entry L out_path (encryptStart L st out_path w i) [] (drawnNonce L w).toList := by
  have hi : i = (w.fs.truncate out_path).1 := (FileSystem.eq_truncate_iff hin).mpr hsame
  refine encrypt_entry st out_path h5 ?_ (Or.inl rfl)
  show [] ++ ((writeNonce L out_path w).2.2.fs.data i).drop 0 = []
  rw [List.nil_append, List.drop_zero, hi]
  exact writeNonce_data_self out_path h5

/-- The stream after a clean read of the nonce from a file that has one: a
buffer of the file was read ahead. -/
theorem readNonce_stream (h1 : L.fault (w.calls + 1) = none)
    (hlen : NONCE_SIZE ≤ (w.fs.data i).length) :
    (readNonce L w i).2.1
      = ⟨i, ((w.fs.data i).take L.bufsiz).length,
          ((w.fs.data i).take L.bufsiz).drop NONCE_SIZE, false, false⟩ := by
  have hB := L.le_bufsiz
  have h12 : NONCE_SIZE = 12 := rfl
  -- the library asks the kernel for a whole buffer
  have hreq : L.request NONCE_SIZE = L.bufsiz :=
    request_eq_bufsiz L NONCE_SIZE (by omega) (by omega)
  have hfault : L.fault w.tick.calls = none := h1
  unfold readNonce fread
  simp only [hfault, Bool.false_eq_true, if_false, List.drop_zero, List.length_nil,
    Nat.sub_zero, List.nil_append, Nat.zero_add, Bool.false_or]
  rw [hreq]
  congr 1
  rw [decide_eq_false_iff_not, List.length_take]
  show ¬ min L.bufsiz (w.fs.data i).length < NONCE_SIZE
  omega

theorem decrypt_entry
    (hleft : (readNonce L w i).2.1.left (w.fs.truncate out_path).2 = l)
    (h1 : L.fault (w.calls + 1) = none) (hlen : NONCE_SIZE ≤ (w.fs.data i).length)
    (hapart : i ≠ (w.fs.truncate out_path).1 ∨ l.length ≤ (readNonce L w i).2.1.pos) :
    Entry L out_path (decryptStart L st out_path w i) l [] where
  streaming := by
    have hstream := readNonce_stream h1 hlen
    refine ⟨hleft, ?_, congrArg List.length (w.fs.truncate_data_self out_path), ?_, rfl,
      Nat.zero_le _, Or.inr ?_⟩
    · intro heof
      have heof' : (readNonce L w i).2.1.eof = true := heof
      rw [hstream] at heof'
      cases heof'
    · show (w.fs.truncate out_path).2.data (w.fs.truncate out_path).1 ++ [] = []
      rw [w.fs.truncate_data_self, List.nil_append]
    · show (readNonce L w i).2.1.ino ≠ _ ∨ 0 + l.length ≤ (readNonce L w i).2.1.pos
      rw [Nat.zero_add]
      refine hapart.imp ?_ id
      intro hi
      rw [hstream]
      exact hi
  err_eq := by
    show (readNonce L w i).2.1.err = false
    rw [readNonce_stream h1 hlen]
  counters_eq := rfl
  names_eq := w.fs.truncate_names_self out_path
  pending_eq := rfl

/-- Decryption reads everything behind the nonce, if the input is another
file than the output. -/
theorem decrypt_entry_apart (h1 : L.fault (w.calls + 1) = none)
    (hin : w.fs.names in_path = some i) (hlen : NONCE_SIZE ≤ (w.fs.data i).length)
    (hne : ¬ w.fs.SameFile in_path out_path) :
    Entry L out_path (decryptStart L st out_path w i)
      ((w.fs.data i).drop NONCE_SIZE) [] := by
  have hi : i ≠ (w.fs.truncate out_path).1 := fun h => hne ((FileSystem.eq_truncate_iff hin).mp h)
  refine decrypt_entry st out_path ?_ h1 hlen (Or.inl hi)
  have happ : (readNonce L w i).1 ++ (readNonce L w i).2.1.left w.fs = w.fs.data i :=
    fread_append_left L NONCE_SIZE ⟨i, 0, [], false, false⟩ w.tick
  have hbytes : (readNonce L w i).1 = (w.fs.data i).take NONCE_SIZE :=
    fread_eq_take L NONCE_SIZE ⟨i, 0, [], false, false⟩ w.tick nofun h1
  have hother : ∀ k, k ≠ (w.fs.truncate out_path).1 →
      (w.fs.truncate out_path).2.data k = w.fs.data k :=
    fun k hk => w.fs.truncate_data_of_ne out_path hk
  -- the truncated file is not the one being read
  rw [left_eq_of_apart _ hother (Or.inl (by rw [readNonce_stream h1 hlen]; exact hi))]
  rw [hbytes] at happ
  exact List.append_cancel_left (happ.trans (List.take_append_drop _ _).symm)

/-- It reads the rest of the first buffer, if they are one file. -/
theorem decrypt_entry_same (h1 : L.fault (w.calls + 1) = none)
    (hin : w.fs.names in_path = some i) (hlen : NONCE_SIZE ≤ (w.fs.data i).length)
    (hsame : w.fs.SameFile in_path out_path) :
    Entry L out_path (decryptStart L st out_path w i)
      (((w.fs.data i).take L.bufsiz).drop NONCE_SIZE) [] := by
  have hi : i = (w.fs.truncate out_path).1 := (FileSystem.eq_truncate_iff hin).mpr hsame
  have hstream := readNonce_stream h1 hlen
  refine decrypt_entry st out_path ?_ h1 hlen (Or.inr ?_)
  · -- in the file nothing is left, in the buffer the rest of the first read
    rw [hstream]
    show _ ++ ((w.fs.truncate out_path).2.data i).drop _ = _
    rw [hi, w.fs.truncate_data_self, List.drop_nil, List.append_nil]
  · rw [hstream, List.length_drop]
    exact Nat.sub_le _ _

end entry

/-! ## §4. The end of a call. -/

section outcome
variable {L : Libc} (key : Vector UInt8 32) (nonce : Vector UInt8 12)
  {out_path : CString} {s : XorState} {l t : List UInt8}

/-- Call number of `fclose(fout)` when the loop was entered at `s`. -/
def closeCall (s : XorState) (l : List UInt8) : Nat :=
  s.world.calls + (2 * blockCount l.length + 2)

theorem blockCount_pos (h : l ≠ []) : 0 < blockCount l.length := by
  have := List.length_pos_iff.mpr h
  unfold blockCount
  omega

/-- Nothing is pending in the end only if there was nothing to write. -/
theorem Entry.pending_iff (e : Entry L out_path s l t) {s' : XorState}
    (htr : Transferred s s' t (crypt key nonce l) 0 (blockCount l.length)) :
    s'.fout.pending = [] ↔ t ++ l = [] := by
  constructor
  · intro hnil
    by_contra hne
    have hpos : 0 < s.fout.pending.length + blockCount l.length := by
      rw [e.pending_eq]
      by_cases hl : l = []
      · rw [hl, List.append_nil] at hne
        exact Nat.lt_of_lt_of_le (List.length_pos_iff.mpr hne) (Nat.le_add_right _ _)
      · exact Nat.lt_of_lt_of_le (blockCount_pos hl) (Nat.le_add_left _ _)
    have := htr.pending_pos hpos
    rw [hnil] at this
    exact Nat.lt_irrefl 0 this
  · intro hnil
    obtain ⟨rfl, rfl⟩ := List.append_eq_nil_iff.mp hnil
    exact (List.append_eq_nil_iff.mp htr.accepted_eq).2

/-- **A call whose loop meets no fault** returns 1, and its output is
complete unless `fclose(fout)` loses something. -/
theorem Entry.clean (e : Entry L out_path s l t)
    (hclean : Clean L s.world.calls (s.world.calls + (2 * blockCount l.length + 1))) :
    ∃ r : FileResult, r.ok = 1 ∧
      r.counters = (List.range (blockCount l.length)).map UInt32.ofNat ∧
      (r.world.fs.read out_path = some (t ++ crypt key nonce l)
        ↔ L.fault (closeCall s l) = none ∨ t ++ l = []) ∧
      ∀ fuel, blockCount l.length < fuel →
        (xorLoop L key nonce fuel s).map (finish L) = some r := by
  obtain ⟨s', hloop, htr⟩ := xorLoop_clean key nonce _ s l t 0 rfl
    e.streaming e.err_eq hclean
  have hino := htr.elsewhere.fout_ino
  have hnames : (closeBoth L s').fs.names out_path = some s'.fout.ino := by
    unfold closeBoth fcloseRead
    rw [fcloseWrite_names, hino, ← e.names_eq]
    exact congrFun htr.elsewhere.names out_path
  have hclose := fcloseWrite_data_eq_iff L s'.fout s'.world.tick htr.atEnd
  have haccepted : s'.fout.accepted s'.world.tick.fs = t ++ crypt key nonce l :=
    htr.accepted_eq
  have hcall : s'.world.tick.calls = closeCall s l := by
    show s'.world.calls + 1 = _
    rw [htr.calls_eq]
    rfl
  have hpending := e.pending_iff key nonce htr
  refine ⟨finish L (1, s'), rfl, ?_, ?_, ?_⟩
  · show s'.counters = _
    rw [htr.counters_eq, e.counters_eq, List.nil_append, List.range_eq_range']
  · show (closeBoth L s').fs.read out_path = _ ↔ _
    rw [FileSystem.read_of_names hnames, Option.some_inj, ← hpending, ← hcall, ← haccepted]
    exact hclose
  · intro fuel hfuel
    rw [hloop fuel hfuel]
    rfl

/-- **A call that returns 1** met no fault in its loop. -/
theorem Entry.one (e : Entry L out_path s l t) {fuel : Nat} {r : FileResult}
    (h : (xorLoop L key nonce fuel s).map (finish L) = some r) (hok : r.ok = 1) :
    Clean L s.world.calls (s.world.calls + (2 * blockCount l.length + 1)) := by
  cases hloop : xorLoop L key nonce fuel s with
  | none =>
      rw [hloop] at h
      cases h
  | some last =>
      obtain ⟨ok, s'⟩ := last
      rw [hloop] at h
      injection h with h
      have : ok = 1 := by rw [← hok, ← h]; rfl
      subst this
      exact xorLoop_one key nonce fuel s s' l t 0 e.streaming hloop

end outcome

/-! ## §5. Calls without I/O errors. -/

/-- A stack of zeros. -/
def Stack.clear : Stack := ⟨Vector.replicate 64 0, Vector.replicate 64 0⟩

/-- The call returns `r`: from some fuel on it ends there. -/
def Returns (call : Nat → Option FileResult) (r : FileResult) : Prop :=
  ∃ N, ∀ fuel, N < fuel → call fuel = some r

theorem Returns.unique {call : Nat → Option FileResult} {r r' : FileResult}
    (h : Returns call r) (h' : Returns call r') : r = r' := by
  obtain ⟨N, hN⟩ := h
  obtain ⟨N', hN'⟩ := h'
  have h₁ := hN (N + N' + 1) (by omega)
  rw [hN' (N + N' + 1) (by omega)] at h₁
  injection h₁ with h₁
  exact h₁.symm

/-- What holds of some result holds of the result. -/
theorem Returns.exists_iff {call : Nat → Option FileResult} {r : FileResult}
    (h : Returns call r) {Q : FileResult → Prop} : (∃ r', Returns call r' ∧ Q r') ↔ Q r := by
  constructor
  · rintro ⟨r', hr', hQ⟩
    rwa [h.unique hr']
  · exact fun hQ => ⟨r, h, hQ⟩

section faultless
variable {L : Libc} (st : Stack) (key : Vector UInt8 32) {in_path : CString}
  {out_path : CString} {w : World} {i : Ino} {l : List UInt8}

/-- Encryption of what the loop finds. -/
theorem encrypt_file_faultless (hL : L.Faultless) (hin : w.fs.names in_path = some i)
    (e : Entry L out_path (encryptStart L st out_path w i) l (drawnNonce L w).toList) :
    ∃ r : FileResult, r.ok = 1 ∧
      r.counters = (List.range (blockCount l.length)).map UInt32.ofNat ∧
      r.world.fs.read out_path
        = some ((drawnNonce L w).toList ++ crypt key (drawnNonce L w) l) ∧
      ∀ fuel, blockCount l.length < fuel →
        encrypt_file L fuel st key in_path out_path w = some r := by
  obtain ⟨r, hok, hcounters, hread, hrun⟩ := e.clean key (drawnNonce L w)
    (fun c _ _ => hL c)
  refine ⟨r, hok, hcounters, hread.mpr (Or.inl (hL _)), ?_⟩
  intro fuel hfuel
  rw [encrypt_file_of_opens L st key in_path out_path w hin ⟨hL _, hL _, hL _, hL _, hL _⟩]
  exact hrun fuel hfuel

/-- Decryption of what the loop finds. -/
theorem decrypt_file_faultless (hL : L.Faultless) (hin : w.fs.names in_path = some i)
    (hlen : NONCE_SIZE ≤ (w.fs.data i).length)
    (e : Entry L out_path (decryptStart L st out_path w i) l []) :
    ∃ r : FileResult, r.ok = 1 ∧
      r.world.fs.read out_path = some (crypt key (headerNonce (w.fs.data i)) l) ∧
      ∀ fuel, blockCount l.length < fuel →
        decrypt_file L fuel st key in_path out_path w = some r := by
  obtain ⟨r, hok, -, hread, hrun⟩ := e.clean key (headerNonce (w.fs.data i))
    (fun c _ _ => hL c)
  refine ⟨r, hok, hread.mpr (Or.inl (hL _)), ?_⟩
  intro fuel hfuel
  rw [decrypt_file_of_opens L st key in_path out_path w hin hlen ⟨hL _, hL _, hL _⟩]
  exact hrun fuel hfuel

/-- An existing name stands for a file. -/
theorem names_of_read {fs : FileSystem} {p : CString} {xs : List UInt8}
    (h : fs.read p = some xs) : ∃ i, fs.names p = some i ∧ fs.data i = xs :=
  Option.map_eq_some_iff.mp h

end faultless

end ConcurrencyCrypto.Crypto
