/-
  ConcurrencyCrypto.Crypto.FileEffects
  ────────────────────────────────────
  **WHAT A CALL OF `encrypt_file` OR `decrypt_file` DOES TO THE FILES**, under
  every fault schedule and with any two names, the same file included.

    • `encrypt_file_confined`, `decrypt_file_confined` — no file but the
      output changes,
    • `torn_output` — what the output is when a call returns,
    • `torn_encryption_decrypts` — what an encryption that met write errors
      leaves on the disk decrypts to the beginning of the plaintext.

  A fault of a read does not stop the loop when it delivers some bytes: the
  loop goes round with a short block, and the rest of the text is then
  encrypted at the wrong offsets of the keystream.  So the run lemma speaks of
  the pieces the reads delivered (`cryptPieces`), and only where no read fails
  are these the blocks of the text.
-/
import ConcurrencyCrypto.Crypto.FileFailures

namespace ConcurrencyCrypto.Crypto

open ConcurrencyCrypto.Library

/-! ## §1. Only the output changes. -/

theorem fill_random_fs (L : Libc) (w : World) : (fill_random L w).2.fs = w.fs := by
  unfold fill_random
  dsimp only
  cases L.fault w.calls with
  | some k => rfl
  | none =>
      dsimp only
      cases L.fault w.tick.calls <;> rfl

section loop
variable {L : Libc} {key : Vector UInt8 32} {nonce : Vector UInt8 12}

theorem sameElsewhere_afterRead (s : XorState) : SameElsewhere s (afterRead L s) :=
  ⟨rfl, rfl, fun _ _ => rfl⟩

theorem sameElsewhere_afterWrite (s : XorState) :
    SameElsewhere s (afterWrite L key nonce s) where
  names := rfl
  fout_ino := rfl
  data := fun _ hi => fwrite_data_of_ne L (stepOutput L key nonce s) s.fout s.world.tick hi

/-- **One iteration** writes to the output only, whatever goes wrong in it. -/
theorem xorStep_elsewhere {s s' : XorState} {flow : Flow}
    (h : xorStep L key nonce s = (flow, s')) : SameElsewhere s s' := by
  rw [xorStep_eq] at h
  split at h
  · split at h
    · cases h
      exact sameElsewhere_afterRead s
    · cases h
      exact sameElsewhere_afterRead s
  · split at h
    · cases h
      exact sameElsewhere_afterWrite s
    · cases h
      -- the counter is no file
      exact ⟨rfl, rfl, (sameElsewhere_afterWrite s).data⟩

/-- **And so does the loop**, by induction on the fuel. -/
theorem xorLoop_elsewhere (fuel : Nat) :
    ∀ (s s' : XorState) (ok : Int), xorLoop L key nonce fuel s = some (ok, s') →
      SameElsewhere s s' := by
  induction fuel with
  | zero =>
      intro s s' ok h
      cases h
  | succ fuel ih =>
      intro s s' ok h
      rw [xorLoop] at h
      cases hstep : xorStep L key nonce s with
      | mk flow s₁ =>
          have h₁ := xorStep_elsewhere hstep
          rw [hstep] at h
          cases flow with
          | next => exact h₁.trans (ih s₁ s' ok h)
          | leave =>
              cases h
              exact ⟨h₁.names, h₁.fout_ino, h₁.data⟩
          | return0 =>
              cases h
              exact h₁

end loop

/-! ## §2. The three ways of a call. -/

section ways
variable (L : Libc) (st : Stack) (key : Vector UInt8 32) (in_path out_path : CString)
  (w : World)

/-- The end of an encryption whose nonce could not be written. -/
def nonceFailed : FileResult :=
  ⟨0, (fcloseWrite L (writeNonce L out_path w).2.1
    (fcloseRead (writeNonce L out_path w).2.2)).2, []⟩

/-- `encrypt_file` ends before it opens the output, at the nonce, or by its loop. -/
theorem encrypt_file_cases :
    (∃ w', w'.fs = w.fs ∧
        ∀ fuel, encrypt_file L fuel st key in_path out_path w = some ⟨0, w', []⟩) ∨
      (∀ fuel, encrypt_file L fuel st key in_path out_path w
        = some (nonceFailed L out_path w)) ∨
      ∃ i, w.fs.names in_path = some i ∧ EncryptOpens L w := by
  unfold encrypt_file
  by_cases hrand : L.fault w.calls = none ∧ L.fault (w.calls + 1) = none
  · obtain ⟨h0, h1⟩ := hrand
    simp only [fill_random_of_none L w h0 h1]
    cases hin : w.fs.names in_path with
    | none =>
        simp only [fopenRead_of_fails (w := ticks 3 w) (fun _ => hin)]
        refine Or.inl ⟨_, ?_, fun _ => rfl⟩
        rfl
    | some i =>
        by_cases h3 : L.fault (w.calls + 3) = none
        · simp only [fopenRead_of_none (w := ticks 3 w) h3 hin]
          by_cases h4 : L.fault (w.calls + 4) = none
          · simp only [fopenWrite_of_none (w := (ticks 3 w).tick) h4]
            by_cases h5 : L.fault (w.calls + 5) = none
            · exact Or.inr (Or.inr ⟨i, rfl, ⟨h0, h1, h3, h4, h5⟩⟩)
            · -- the output is open and empty
              have hshort : ¬ (writeNonce L out_path w).1 = NONCE_SIZE := by
                rw [writeNonce_count_iff]
                exact h5
              exact Or.inr (Or.inl fun _ => if_neg hshort)
          · simp only [fopenWrite_of_fails (w := (ticks 3 w).tick) h4]
            refine Or.inl ⟨_, ?_, fun _ => rfl⟩
            rfl
        · simp only [fopenRead_of_fails (w := ticks 3 w) (fun hc => absurd hc h3)]
          refine Or.inl ⟨_, ?_, fun _ => rfl⟩
          rfl
  · obtain ⟨w', hw'⟩ := fill_random_of_fails L w (fun h0 h1 => hrand ⟨h0, h1⟩)
    have hfs := fill_random_fs L w
    rw [hw'] at hfs
    simp only [hw']
    refine Or.inl ⟨_, ?_, fun _ => rfl⟩
    exact hfs

/-- `decrypt_file` ends before it opens the output, or by its loop. -/
theorem decrypt_file_cases :
    (∃ w', w'.fs = w.fs ∧
        ∀ fuel, decrypt_file L fuel st key in_path out_path w = some ⟨0, w', []⟩) ∨
      ∃ i, w.fs.names in_path = some i ∧ NONCE_SIZE ≤ (w.fs.data i).length ∧
        DecryptOpens L w := by
  by_cases h0 : L.fault w.calls = none
  · cases hin : w.fs.names in_path with
    | none =>
        unfold decrypt_file
        simp only [fopenRead_of_fails (fun _ => hin)]
        refine Or.inl ⟨_, ?_, fun _ => rfl⟩
        rfl
    | some i =>
        have hworld : (readNonce L w i).2.2 = ticks 2 w := fread_world L NONCE_SIZE _ w.tick
        by_cases hcount : (readNonce L w i).1.length = NONCE_SIZE
        · obtain ⟨h1, hlen⟩ := (readNonce_length_iff L w).mp hcount
          by_cases h2 : L.fault (w.calls + 2) = none
          · exact Or.inr ⟨i, rfl, hlen, ⟨h0, h1, h2⟩⟩
          · have hopen : fopenWrite L out_path (readNonce L w i).2.2
                = (none, (readNonce L w i).2.2.tick) := by
              rw [hworld]
              exact fopenWrite_of_fails h2
            refine Or.inl ⟨fcloseRead ((readNonce L w i).2.2.tick.print
              (openError L out_path (readNonce L w i).2.2.tick)), ?_, ?_⟩
            · show (readNonce L w i).2.2.fs = w.fs
              rw [hworld]
              rfl
            · intro fuel
              rw [decrypt_file_of_nonce L st key in_path out_path w h0 hin hcount, hopen]
        · -- the header is short, or its read failed
          unfold decrypt_file
          simp only [fopenRead_of_none h0 hin]
          refine Or.inl ⟨_, ?_, fun _ => if_pos hcount⟩
          show (readNonce L w i).2.2.fs = w.fs
          rw [hworld]
          rfl
  · unfold decrypt_file
    simp only [fopenRead_of_fails (fun hc => absurd hc h0)]
    refine Or.inl ⟨_, ?_, fun _ => rfl⟩
    rfl

end ways

/-! ## §3. No other file changes. -/

section confined
variable {L : Libc} (st : Stack) (key : Vector UInt8 32) (in_path out_path : CString)
  {w : World} {fuel : Nat} {r : FileResult}

theorem closeBoth_names (s : XorState) : (closeBoth L s).fs.names = s.world.fs.names := by
  unfold closeBoth fcloseRead
  rw [fcloseWrite_names]
  rfl

theorem closeBoth_data_of_ne (s : XorState) {i : Ino} (hi : i ≠ s.fout.ino) :
    (closeBoth L s).fs.data i = s.world.fs.data i := by
  unfold closeBoth fcloseRead
  rw [fcloseWrite_data_of_ne L s.fout s.world.tick hi]
  rfl

/-- A loop entered with the output just opened is confined to it. -/
theorem confined_of_loop {s : XorState} {nonce : Vector UInt8 12} {fs : FileSystem}
    (hino : s.fout.ino = (fs.truncate out_path).1)
    (hnames : s.world.fs.names = (fs.truncate out_path).2.names)
    (hdata : ∀ i, i ≠ (fs.truncate out_path).1 →
      s.world.fs.data i = (fs.truncate out_path).2.data i)
    (h : (xorLoop L key nonce fuel s).map (finish L) = some r) :
    fs.Confined out_path r.world.fs := by
  obtain ⟨⟨ok, s'⟩, hloop, rfl⟩ := Option.map_eq_some_iff.mp h
  have hsame := xorLoop_elsewhere fuel s s' ok hloop
  have hino' : s'.fout.ino = (fs.truncate out_path).1 := hsame.fout_ino.trans hino
  apply FileSystem.Confined.of_opened
  · show (closeBoth L s').fs.names = _
    rw [closeBoth_names, hsame.names, hnames]
  · intro i hi
    show (closeBoth L s').fs.data i = _
    rw [closeBoth_data_of_ne s' (by rwa [hino']), hsame.data i (by rwa [hino]), hdata i hi]

theorem writeNonce_data_of_ne {i : Ino} (hi : i ≠ (w.fs.truncate out_path).1) :
    (writeNonce L out_path w).2.2.fs.data i = (w.fs.truncate out_path).2.data i :=
  fwrite_data_of_ne L (drawnNonce L w).toList ⟨(w.fs.truncate out_path).1, 0, []⟩
    (encryptOpened out_path w) hi

theorem encrypt_file_confined
    (h : encrypt_file L fuel st key in_path out_path w = some r) :
    w.fs.Confined out_path r.world.fs := by
  rcases encrypt_file_cases L st key in_path out_path w with
    ⟨w', hfs, hrun⟩ | hrun | ⟨i, hin, hopens⟩
  · rw [hrun fuel] at h
    cases h
    show w.fs.Confined out_path w'.fs
    rw [hfs]
    exact FileSystem.Confined.refl out_path w.fs
  · rw [hrun fuel] at h
    cases h
    apply FileSystem.Confined.of_opened
    · show (fcloseWrite L (writeNonce L out_path w).2.1 _).2.fs.names = _
      rw [fcloseWrite_names]
      rfl
    · intro j hj
      show (fcloseWrite L (writeNonce L out_path w).2.1 _).2.fs.data j = _
      rw [fcloseWrite_data_of_ne L _ _ hj]
      exact writeNonce_data_of_ne out_path hj
  · rw [encrypt_file_of_opens L st key in_path out_path w hin hopens] at h
    exact confined_of_loop key out_path rfl rfl (fun j hj => writeNonce_data_of_ne out_path hj) h

theorem decrypt_file_confined
    (h : decrypt_file L fuel st key in_path out_path w = some r) :
    w.fs.Confined out_path r.world.fs := by
  rcases decrypt_file_cases L st key in_path out_path w with
    ⟨w', hfs, hrun⟩ | ⟨i, hin, hlen, hopens⟩
  · rw [hrun fuel] at h
    cases h
    show w.fs.Confined out_path w'.fs
    rw [hfs]
    exact FileSystem.Confined.refl out_path w.fs
  · rw [decrypt_file_of_opens L st key in_path out_path w hin hlen hopens] at h
    exact confined_of_loop key out_path rfl rfl (fun _ _ => rfl) h

end confined

/-! ## §4. One iteration under any fault. -/

/-- Each piece under the keystream block of its number, from number `j` on. -/
def cryptPieces (key : Vector UInt8 32) (nonce : Vector UInt8 12) :
    Nat → List (List UInt8) → List UInt8
  | _, [] => []
  | j, piece :: rest =>
      cryptFrom key nonce (64 * j) piece ++ cryptPieces key nonce (j + 1) rest

/-- An iteration from `s`, with `l` to read and `t` written, has read `piece`
and written `taken` of its ciphertext. -/
structure Moved (key : Vector UInt8 32) (nonce : Vector UInt8 12) (L : Libc)
    (s s' : XorState) (l t piece rest taken : List UInt8) (j : Nat) : Prop where
  split : piece ++ rest = l
  piece_le : piece.length ≤ 64
  taken_le : taken <+: cryptFrom key nonce (64 * j) piece
  atEnd : s'.fout.AtEnd s'.world.fs
  accepted_eq : s'.fout.accepted s'.world.fs = t ++ taken
  /-- A read without a fault delivers a whole block, if there is one. -/
  clean : L.fault s.world.calls = none → piece = l.take 64

section pieces
variable {L : Libc} (key : Vector UInt8 32) (nonce : Vector UInt8 12)
  {s : XorState} {l t : List UInt8} {j : Nat}

/-- What an iteration hands to `fwrite` is the ciphertext of what it read. -/
theorem stepOutput_eq (h : Streaming L s l t j) :
    stepOutput L key nonce s
      = cryptFrom key nonce (64 * j) (fread L 64 s.fin s.world).1 := by
  unfold stepOutput afterRead
  dsimp only
  rw [h.counter_eq]
  exact xorBuffer_take key nonce j s.buffer _ (fread_length_le L 64 s.fin s.world)

/-- An iteration that read nothing leaves the loop. -/
theorem moved_nothing (h : Streaming L s l t j)
    (hnil : (fread L 64 s.fin s.world).1 = []) :
    Moved key nonce L s (afterRead L s) l t [] l [] j where
  split := rfl
  piece_le := Nat.zero_le 64
  taken_le := List.nil_prefix
  atEnd := by
    dsimp only [afterRead]
    exact h.atEnd
  accepted_eq := by
    dsimp only [afterRead]
    rw [List.append_nil]
    exact h.accepted_eq
  clean := by
    intro hr
    rw [← (read_streaming h hr).1, hnil]

/-- An iteration that read something writes a beginning of its ciphertext. -/
theorem moved_piece (h : Streaming L s l t j) :
    Moved key nonce L s (afterWrite L key nonce s) l t (fread L 64 s.fin s.world).1
      ((fread L 64 s.fin s.world).2.1.left s.world.fs)
      (fwriteTaken L (stepOutput L key nonce s) s.world.tick) j where
  split := by
    rw [fread_append_left]
    exact h.left_eq
  piece_le := fread_length_le L 64 s.fin s.world
  taken_le := by
    rw [← stepOutput_eq key nonce h]
    exact fwriteTaken_le L _ s.world.tick
  atEnd := fwrite_atEnd L _ s.fout s.world.tick h.atEnd
  accepted_eq := by
    refine (fwrite_accepted L (stepOutput L key nonce s) s.fout s.world.tick h.atEnd).trans ?_
    exact congrArg (· ++ _) h.accepted_eq
  clean := fun hr => (read_streaming h hr).1

/-- If the write took all of it, the loop goes round in the invariant. -/
theorem streaming_piece (h : Streaming L s l t j) (hne : s.fin.ino ≠ s.fout.ino) :
    Streaming L { afterWrite L key nonce s with counter := s.counter + 1 }
      ((fread L 64 s.fin s.world).2.1.left s.world.fs)
      (t ++ fwriteTaken L (stepOutput L key nonce s) s.world.tick) (j + 1) := by
  have hother : ∀ i, i ≠ s.fout.ino →
      (fwrite L (stepOutput L key nonce s) s.fout s.world.tick).2.2.fs.data i
        = s.world.fs.data i :=
    fun i hi => fwrite_data_of_ne L _ s.fout s.world.tick hi
  -- the reader does not see the write
  have hleft : (fread L 64 s.fin s.world).2.1.left
      (fwrite L (stepOutput L key nonce s) s.fout s.world.tick).2.2.fs
        = (fread L 64 s.fin s.world).2.1.left s.world.fs :=
    left_eq_of_apart _ hother (Or.inl (by rwa [fread_ino]))
  have hlen : (stepOutput L key nonce s).length < L.bufsiz := by
    have hle := fread_length_le L 64 s.fin s.world
    have hB := L.le_bufsiz
    rw [stepOutput_eq key nonce h, length_cryptFrom]
    omega
  refine ⟨hleft, ?_, (moved_piece key nonce h).atEnd, (moved_piece key nonce h).accepted_eq, ?_,
    (fwrite_pending_bounds L _ s.fout s.world.tick hlen h.pending_le).1, ?_⟩
  · intro heof
    refine Eq.trans hleft ?_
    exact fread_eofOk L 64 s.fin s.world h.eofOk heof
  · show s.counter + 1 = UInt32.ofNat (j + 1)
    rw [h.counter_eq, UInt32.ofNat_add]
    rfl
  · right
    left
    show (fread L 64 s.fin s.world).2.1.ino ≠ s.fout.ino
    rwa [fread_ino]

/-- **One iteration between different files, under any fault**: it moves a
piece, and if it goes round, it has moved the whole of it. -/
theorem step_moves (h : Streaming L s l t j) (hne : s.fin.ino ≠ s.fout.ino) :
    ∃ flow s' piece rest taken, xorStep L key nonce s = (flow, s') ∧
      Moved key nonce L s s' l t piece rest taken j ∧
      (flow = .next → taken = cryptFrom key nonce (64 * j) piece ∧
        Streaming L s' rest (t ++ taken) (j + 1) ∧ s'.fin.ino ≠ s'.fout.ino ∧
        s'.world.calls = s.world.calls + 2 ∧ piece ≠ []) := by
  rw [xorStep_eq]
  by_cases hzero : (fread L 64 s.fin s.world).1.length = 0
  · have hmoved := moved_nothing key nonce h (List.length_eq_zero_iff.mp hzero)
    rw [if_pos hzero]
    by_cases herr : (fread L 64 s.fin s.world).2.1.err = true
    · rw [if_pos herr]
      exact ⟨_, _, _, _, _, rfl, hmoved, nofun⟩
    · rw [if_neg herr]
      exact ⟨_, _, _, _, _, rfl, hmoved, nofun⟩
  · rw [if_neg hzero]
    have hmoved := moved_piece key nonce h
    by_cases hshort : (fwrite L (stepOutput L key nonce s) s.fout s.world.tick).1
        ≠ (fread L 64 s.fin s.world).1.length
    · rw [if_pos hshort]
      exact ⟨_, _, _, _, _, rfl, hmoved, nofun⟩
    · rw [if_neg hshort]
      refine ⟨_, _, _, _, _, rfl, ⟨hmoved.split, hmoved.piece_le, hmoved.taken_le,
        hmoved.atEnd, hmoved.accepted_eq, hmoved.clean⟩, ?_⟩
      intro _
      refine ⟨?_, streaming_piece key nonce h hne, ?_, rfl, ?_⟩
      · -- a beginning of the full length
        apply hmoved.taken_le.eq_of_length
        rw [length_cryptFrom, ← fwrite_count L _ s.fout]
        exact not_not.mp hshort
      · show (fread L 64 s.fin s.world).2.1.ino ≠ s.fout.ino
        rwa [fread_ino]
      · intro hnil
        exact hzero (by rw [hnil]; rfl)

end pieces

/-! ## §5. The whole loop under any faults. -/

/-- No fault hits the reads of a loop that is entered at call `c` with `n`
bytes to read. -/
def ReadsClean (L : Libc) (c n : Nat) : Prop :=
  ∀ k, k ≤ blockCount n → L.fault (c + 2 * k) = none

theorem cryptFrom_take_le (key : Vector UInt8 32) (nonce : Vector UInt8 12) (j : Nat)
    (l : List UInt8) :
    cryptFrom key nonce (64 * j) (l.take 64) <+: cryptFrom key nonce (64 * j) l := by
  rw [← crypt_take_append_drop key nonce j l]
  exact List.prefix_append _ _

/-- What a loop entered with `l` to read, at block number `j`, can have
written: the pieces its reads delivered, the last one perhaps in part. -/
structure Torn (key : Vector UInt8 32) (nonce : Vector UInt8 12) (L : Libc) (c : Nat)
    (l u : List UInt8) (j : Nat) : Prop where
  pieces : ∃ ps : List (List UInt8), ps.flatten <+: l ∧ (∀ p ∈ ps, p.length ≤ 64) ∧
    u <+: cryptPieces key nonce j ps
  clean : ReadsClean L c l.length → u <+: cryptFrom key nonce (64 * j) l

section torn
variable {L : Libc} {key : Vector UInt8 32} {nonce : Vector UInt8 12}
  {s s' : XorState} {l t piece rest taken u : List UInt8} {j : Nat}

/-- The last iteration. -/
theorem Moved.torn (h : Moved key nonce L s s' l t piece rest taken j) :
    Torn key nonce L s.world.calls l taken j where
  pieces := by
    refine ⟨[piece], ?_, ?_, ?_⟩
    · rw [List.flatten_singleton, ← h.split]
      exact List.prefix_append piece rest
    · intro p hp
      rw [List.mem_singleton.mp hp]
      exact h.piece_le
    · show taken <+: cryptFrom key nonce (64 * j) piece ++ []
      rw [List.append_nil]
      exact h.taken_le
  clean := by
    intro hclean
    refine h.taken_le.trans ?_
    rw [h.clean (hclean 0 (Nat.zero_le _))]
    exact cryptFrom_take_le key nonce j l

/-- An iteration that goes round, and then the rest. -/
theorem Moved.cons (h : Moved key nonce L s s' l t piece rest taken j)
    (hwhole : taken = cryptFrom key nonce (64 * j) piece) (hpiece : piece ≠ [])
    (hcalls : s'.world.calls = s.world.calls + 2)
    (hrest : Torn key nonce L s'.world.calls rest u (j + 1)) :
    Torn key nonce L s.world.calls l (taken ++ u) j where
  pieces := by
    obtain ⟨ps, hflat, hle, hu⟩ := hrest.pieces
    refine ⟨piece :: ps, ?_, ?_, ?_⟩
    · rw [List.flatten_cons, ← h.split]
      exact (List.prefix_append_right_inj piece).mpr hflat
    · intro p hp
      rcases List.mem_cons.mp hp with rfl | hp
      · exact h.piece_le
      · exact hle p hp
    · rw [hwhole]
      exact (List.prefix_append_right_inj _).mpr hu
  clean := by
    intro hclean
    have hblock := h.clean (hclean 0 (Nat.zero_le _))
    have hl : l ≠ [] := by
      rintro rfl
      exact hpiece (by rw [hblock]; rfl)
    have hdrop : rest = l.drop 64 := by
      have hsplit := h.split
      rw [hblock] at hsplit
      exact List.append_cancel_left (hsplit.trans (List.take_append_drop 64 l).symm)
    have hcount := blockCount_pos_of_ne hl
    -- the reads that follow are reads of this loop
    have hrest' : ReadsClean L s'.world.calls rest.length := by
      intro k hk
      rw [hcalls, Nat.add_assoc, show 2 + 2 * k = 2 * (k + 1) by omega]
      apply hclean
      rw [hdrop] at hk
      omega
    have hu := hrest.clean hrest'
    rw [hwhole, hblock, ← crypt_take_append_drop key nonce j l]
    rw [hdrop] at hu
    exact (List.prefix_append_right_inj _).mpr hu

/-- **What the loop has written when it ends**, by induction on the fuel. -/
theorem xorLoop_torn (fuel : Nat) :
    ∀ (s s' : XorState) (ok : Int) (l t : List UInt8) (j : Nat), Streaming L s l t j →
      s.fin.ino ≠ s.fout.ino → xorLoop L key nonce fuel s = some (ok, s') →
      ∃ u, s'.fout.AtEnd s'.world.fs ∧ s'.fout.accepted s'.world.fs = t ++ u ∧
        Torn key nonce L s.world.calls l u j := by
  induction fuel with
  | zero =>
      intro s s' ok l t j _ _ h
      cases h
  | succ fuel ih =>
      intro s s' ok l t j hs hne h
      obtain ⟨flow, s₁, piece, rest, taken, hstep, hmoved, hnext⟩ :=
        step_moves key nonce hs hne
      rw [xorLoop, hstep] at h
      cases flow with
      | next =>
          obtain ⟨hwhole, hs₁, hne₁, hcalls, hpiece⟩ := hnext rfl
          obtain ⟨u, hend, hacc, htorn⟩ := ih s₁ s' ok rest (t ++ taken) (j + 1) hs₁ hne₁ h
          refine ⟨taken ++ u, hend, ?_, hmoved.cons hwhole hpiece hcalls htorn⟩
          rw [hacc, List.append_assoc]
      | leave =>
          cases h
          exact ⟨taken, hmoved.atEnd, hmoved.accepted_eq, hmoved.torn⟩
      | return0 =>
          cases h
          exact ⟨taken, hmoved.atEnd, hmoved.accepted_eq, hmoved.torn⟩

end torn

/-! ## §6. The output file after a call. -/

/-- The file `F` is what a loop entered at call `c` to put `body` behind
`header` has left: the beginning of the header and the pieces it read, and of
the whole text if no read failed. -/
structure TornFile (key : Vector UInt8 32) (nonce : Vector UInt8 12) (L : Libc) (c : Nat)
    (header body F : List UInt8) : Prop where
  pieces : ∃ ps : List (List UInt8), ps.flatten <+: body ∧ (∀ p ∈ ps, p.length ≤ 64) ∧
    F <+: header ++ cryptPieces key nonce 0 ps
  clean : ReadsClean L c body.length → F <+: header ++ crypt key nonce body

/-- A beginning of the header is torn in front of every piece. -/
theorem TornFile.of_header {key : Vector UInt8 32} {nonce : Vector UInt8 12} {L : Libc}
    {c : Nat} {header body F : List UInt8} (h : F <+: header) :
    TornFile key nonce L c header body F where
  pieces := by
    refine ⟨[], List.nil_prefix, nofun, ?_⟩
    exact h.trans (List.prefix_append header _)
  clean := fun _ => h.trans (List.prefix_append header _)

section file
variable {L : Libc} (st : Stack) (key : Vector UInt8 32) {in_path out_path : CString}
  {w : World}

/-- A loop that is entered with a header leaves a torn file. -/
theorem Entry.torn (nonce : Vector UInt8 12) {s : XorState} {l t : List UInt8}
    (e : Entry L out_path s l t) (hne : s.fin.ino ≠ s.fout.ino) :
    ∃ r, Returns (fun fuel => (xorLoop L key nonce fuel s).map (finish L)) r ∧
      ∃ F, r.world.fs.read out_path = some F ∧
        TornFile key nonce L s.world.calls t l F := by
  obtain ⟨⟨ok, s'⟩, hloop⟩ := xorLoop_returns (L := L) key nonce _ s hne (Nat.lt_succ_self _)
  obtain ⟨u, hend, hacc, htorn⟩ := xorLoop_torn _ s s' ok l t 0 e.streaming hne hloop
  have hsame := xorLoop_elsewhere _ s s' ok hloop
  have hnames : (closeBoth L s').fs.names out_path = some s'.fout.ino := by
    rw [closeBoth_names, hsame.names, hsame.fout_ino]
    exact e.names_eq
  have hdata : (closeBoth L s').fs.data s'.fout.ino <+: t ++ u := by
    rw [← hacc]
    exact fcloseWrite_data_le L s'.fout s'.world.tick hend
  refine ⟨finish L (ok, s'), ⟨(s.fin.left s.world.fs).length + 1, ?_⟩, _,
    FileSystem.read_of_names hnames, ?_⟩
  · intro fuel hfuel
    show (xorLoop L key nonce fuel s).map (finish L) = _
    rw [xorLoop_mono key nonce _ s _ hloop fuel (Nat.le_of_lt hfuel)]
    rfl
  · constructor
    · obtain ⟨ps, hflat, hle, hu⟩ := htorn.pieces
      exact ⟨ps, hflat, hle, hdata.trans ((List.prefix_append_right_inj t).mpr hu)⟩
    · intro hclean
      exact hdata.trans ((List.prefix_append_right_inj t).mpr (htorn.clean hclean))

/-- The file in which the nonce could not be written. -/
theorem nonceFailed_read (L : Libc) (out_path : CString) (w : World) :
    ∃ F, (nonceFailed L out_path w).world.fs.read out_path = some F ∧
      F <+: (drawnNonce L w).toList := by
  have hend : (writeNonce L out_path w).2.1.AtEnd (writeNonce L out_path w).2.2.fs :=
    fwrite_atEnd L _ ⟨_, 0, []⟩ (encryptOpened out_path w)
      (congrArg List.length (w.fs.truncate_data_self out_path))
  have hacc : (writeNonce L out_path w).2.1.accepted (writeNonce L out_path w).2.2.fs
      = fwriteTaken L (drawnNonce L w).toList (encryptOpened out_path w) := by
    have hempty : (⟨(w.fs.truncate out_path).1, 0, []⟩ : WStream).accepted
        (w.fs.truncate out_path).2 = [] := by
      unfold WStream.accepted
      rw [w.fs.truncate_data_self out_path, List.nil_append]
    refine (fwrite_accepted L (drawnNonce L w).toList ⟨(w.fs.truncate out_path).1, 0, []⟩
      (encryptOpened out_path w) (congrArg List.length (w.fs.truncate_data_self out_path))).trans
      ?_
    exact (congrArg (· ++ _) hempty).trans (List.nil_append _)
  have hnames : (nonceFailed L out_path w).world.fs.names out_path
      = some (writeNonce L out_path w).2.1.ino := by
    show (fcloseWrite L (writeNonce L out_path w).2.1 _).2.fs.names out_path = _
    rw [fcloseWrite_names]
    exact w.fs.truncate_names_self out_path
  refine ⟨_, FileSystem.read_of_names hnames, ?_⟩
  refine (fcloseWrite_data_le L (writeNonce L out_path w).2.1
    (fcloseRead (writeNonce L out_path w).2.2) hend).trans ?_
  show (writeNonce L out_path w).2.1.accepted (writeNonce L out_path w).2.2.fs <+: _
  rw [hacc]
  exact fwriteTaken_le L _ _

/-- Encryption of `P`: the output is untouched or torn. -/
theorem encrypt_file_torn {P : List UInt8} (hP : w.fs.read in_path = some P)
    (hne : ¬ w.fs.SameFile in_path out_path) :
    ∃ r, Returns (fun fuel => encrypt_file L fuel st key in_path out_path w) r ∧
      (r.world.fs = w.fs ∨ ∃ F, r.world.fs.read out_path = some F ∧
        TornFile key (drawnNonce L w) L (w.calls + 6) (drawnNonce L w).toList P F) := by
  rcases encrypt_file_cases L st key in_path out_path w with
    ⟨w', hfs, hrun⟩ | hrun | ⟨i, hin, hopens⟩
  · exact ⟨_, ⟨0, fun fuel _ => hrun fuel⟩, Or.inl hfs⟩
  · obtain ⟨F, hF, hle⟩ := nonceFailed_read L out_path w
    exact ⟨_, ⟨0, fun fuel _ => hrun fuel⟩, Or.inr ⟨F, hF, TornFile.of_header hle⟩⟩
  · have hdata : w.fs.data i = P := by
      rw [FileSystem.read_of_names hin] at hP
      injection hP
    have e := encrypt_entry_apart st out_path hopens.nonce_write hin hne
    have hi : i ≠ (w.fs.truncate out_path).1 :=
      fun h => hne ((FileSystem.eq_truncate_iff hin).mp h)
    obtain ⟨r, hret, F, hF, htorn⟩ := e.torn key (drawnNonce L w) hi
    rw [← funext (encrypt_file_of_opens L st key in_path out_path w hin hopens)] at hret
    rw [hdata] at htorn
    exact ⟨r, hret, Or.inr ⟨F, hF, htorn⟩⟩

/-- Decryption of `P`. -/
theorem decrypt_file_torn {P : List UInt8} (hP : w.fs.read in_path = some P)
    (hne : ¬ w.fs.SameFile in_path out_path) :
    ∃ r, Returns (fun fuel => decrypt_file L fuel st key in_path out_path w) r ∧
      (r.world.fs = w.fs ∨ NONCE_SIZE ≤ P.length ∧ ∃ F, r.world.fs.read out_path = some F ∧
        TornFile key (headerNonce P) L (w.calls + 3) [] (P.drop NONCE_SIZE) F) := by
  rcases decrypt_file_cases L st key in_path out_path w with
    ⟨w', hfs, hrun⟩ | ⟨i, hin, hlen, hopens⟩
  · exact ⟨_, ⟨0, fun fuel _ => hrun fuel⟩, Or.inl hfs⟩
  · have hdata : w.fs.data i = P := by
      rw [FileSystem.read_of_names hin] at hP
      injection hP
    have e := decrypt_entry_apart st out_path hopens.nonce_read hin hlen hne
    have hi : (readNonce L w i).2.1.ino ≠ (w.fs.truncate out_path).1 := by
      rw [readNonce_stream hopens.nonce_read hlen]
      exact fun h => hne ((FileSystem.eq_truncate_iff hin).mp h)
    obtain ⟨r, hret, F, hF, htorn⟩ := e.torn key (headerNonce (w.fs.data i)) hi
    rw [← funext (decrypt_file_of_opens L st key in_path out_path w hin hlen hopens)] at hret
    rw [hdata] at hlen htorn
    exact ⟨r, hret, Or.inr ⟨hlen, F, hF, htorn⟩⟩

/-- **THE OUTPUT UNDER EVERY FAULT SCHEDULE.**  Both calls return, and the
output is untouched or what the loop's reads delivered, encrypted piece by
piece under fresh keystream blocks and cut off somewhere. -/
theorem torn_output {P : List UInt8} (hP : w.fs.read in_path = some P)
    (hne : ¬ w.fs.SameFile in_path out_path) :
    (∃ r, Returns (fun fuel => encrypt_file L fuel st key in_path out_path w) r ∧
      (r.world.fs = w.fs ∨ ∃ F, r.world.fs.read out_path = some F ∧
        TornFile key (drawnNonce L w) L (w.calls + 6) (drawnNonce L w).toList P F)) ∧
    (∃ r, Returns (fun fuel => decrypt_file L fuel st key in_path out_path w) r ∧
      (r.world.fs = w.fs ∨ NONCE_SIZE ≤ P.length ∧ ∃ F, r.world.fs.read out_path = some F ∧
        TornFile key (headerNonce P) L (w.calls + 3) [] (P.drop NONCE_SIZE) F)) :=
  ⟨encrypt_file_torn st key hP hne, decrypt_file_torn st key hP hne⟩

/-- What is left of a whole encrypted file still holds the nonce and the
encryption of a beginning of the text. -/
theorem eq_of_torn {nonce : Vector UInt8 12} {P F : List UInt8}
    (h : F <+: nonce.toList ++ crypt key nonce P) (hlen : NONCE_SIZE ≤ F.length) :
    F = nonce.toList ++ crypt key nonce (P.take (F.length - NONCE_SIZE)) := by
  have h12 : nonce.toList.length = NONCE_SIZE := Vector.length_toList
  have htake : crypt key nonce (P.take (F.length - NONCE_SIZE))
      = (crypt key nonce P).take (F.length - NONCE_SIZE) :=
    mask_take _ _ 0 P _
  rw [htake]
  conv_lhs => rw [List.prefix_iff_eq_take.mp h]
  rw [List.take_append, h12, List.take_of_length_le (by omega)]

/-- **A TORN ENCRYPTION DECRYPTS TO THE BEGINNING OF THE TEXT**: whatever
writes fail, if no read of the loop does and the nonce has reached the disk. -/
theorem torn_encryption_decrypts {P : List UInt8} (hP : w.fs.read in_path = some P)
    (hne : ¬ w.fs.SameFile in_path out_path) (hclean : ReadsClean L (w.calls + 6) P.length) :
    ∃ r, Returns (fun fuel => encrypt_file L fuel st key in_path out_path w) r ∧
      (r.world.fs = w.fs ∨ ∃ F, r.world.fs.read out_path = some F ∧
        ∀ (L' : Libc) (st' : Stack) (in_path' out_path' : CString) (w' : World),
          CleanCall L' w' in_path' out_path' F → NONCE_SIZE ≤ F.length →
          Succeeds (fun fuel => decrypt_file L' fuel st' key in_path' out_path' w')
            (blockCount (F.length - NONCE_SIZE)) out_path'
            (P.take (F.length - NONCE_SIZE))) := by
  obtain ⟨r, hret, hcase⟩ := encrypt_file_torn (L := L) st key hP hne
  refine ⟨r, hret, hcase.imp id ?_⟩
  rintro ⟨F, hF, htorn⟩
  refine ⟨F, hF, ?_⟩
  intro L' st' in_path' out_path' w' hcall hlen
  have heq := eq_of_torn key (htorn.clean hclean) hlen
  have hnonce : (drawnNonce L w).toList.length = NONCE_SIZE := Vector.length_toList
  -- the reader finds the nonce, and the rest is masked once more
  have hheader : headerNonce F = drawnNonce L w := by
    rw [heq]
    exact headerNonce_append _ _
  have hbody : F.drop NONCE_SIZE
      = crypt key (drawnNonce L w) (P.take (F.length - NONCE_SIZE)) := by
    conv_lhs => rw [heq]
    exact List.drop_left' hnonce
  have hdec := decrypt_succeeds st' key hcall hlen
  rw [hheader, hbody, crypt_crypt] at hdec
  exact hdec

end file

/-- The write of the first block fails: the nonce is all that is left. -/
theorem torn_output_first_write :
    (∃ r, Returns (fun fuel => encrypt_file
          (Libc.plain fun c => if c = 7 then some 0 else none) fuel Stack.clear
          (Vector.replicate 32 7) (str "plain.txt") (str "encrypted_output.dat")
          (World.start (FileSystem.single (str "plain.txt") [1, 2, 3]))) r ∧
      (r.world.fs = FileSystem.single (str "plain.txt") [1, 2, 3] ∨
        ∃ F, r.world.fs.read (str "encrypted_output.dat") = some F ∧
          TornFile (Vector.replicate 32 7)
            (drawnNonce (Libc.plain fun c => if c = 7 then some 0 else none)
              (World.start (FileSystem.single (str "plain.txt") [1, 2, 3])))
            (Libc.plain fun c => if c = 7 then some 0 else none) 6
            (drawnNonce (Libc.plain fun c => if c = 7 then some 0 else none)
              (World.start (FileSystem.single (str "plain.txt") [1, 2, 3]))).toList
            [1, 2, 3] F)) :=
  (torn_output Stack.clear (Vector.replicate 32 7) (FileSystem.single_read _ _)
    (FileSystem.single_not_sameFile _ (by decide))).1

theorem torn_encryption_first_write :
    ∃ r, Returns (fun fuel => encrypt_file
          (Libc.plain fun c => if c = 7 then some 0 else none) fuel Stack.clear
          (Vector.replicate 32 7) (str "plain.txt") (str "encrypted_output.dat")
          (World.start (FileSystem.single (str "plain.txt") [1, 2, 3]))) r ∧
      (r.world.fs = FileSystem.single (str "plain.txt") [1, 2, 3] ∨
        ∃ F, r.world.fs.read (str "encrypted_output.dat") = some F ∧
          ∀ (L' : Libc) (st' : Stack) (in_path' out_path' : CString) (w' : World),
            CleanCall L' w' in_path' out_path' F → NONCE_SIZE ≤ F.length →
            Succeeds (fun fuel => decrypt_file L' fuel st' (Vector.replicate 32 7) in_path'
                out_path' w')
              (blockCount (F.length - NONCE_SIZE)) out_path'
              ([1, 2, 3].take (F.length - NONCE_SIZE))) := by
  refine torn_encryption_decrypts Stack.clear (Vector.replicate 32 7)
    (FileSystem.single_read _ _) (FileSystem.single_not_sameFile _ (by decide)) ?_
  -- the reads are the even calls
  intro k _
  refine if_neg ?_
  show 0 + 6 + 2 * k ≠ 7
  omega

end ConcurrencyCrypto.Crypto
