/-
  ConcurrencyCrypto.Crypto.FileFailures
  ─────────────────────────────────────
  **WHERE A RESULT OF 1 DOES NOT MEAN SUCCESS.**

  Two ways in which `encrypt_file` and `decrypt_file` return 1 with an output
  that is not what was asked for, each with the exact condition:

    • the input is the output file: `fopen(out_path, "wb")` empties it before
      it is read (a decryption still sees what the read of the nonce fetched
      into the stream's buffer);
    • `fclose(fout)` cannot write the buffered rest: its result is not looked
      at.  Every other fault does make the call return 0.
-/
import ConcurrencyCrypto.Crypto.FileRoundTrip

namespace ConcurrencyCrypto.Crypto

open ConcurrencyCrypto.Library

theorem crypt_injective (key : Vector UInt8 32) (nonce : Vector UInt8 12) :
    Function.Injective (crypt key nonce) :=
  Function.LeftInverse.injective (crypt_crypt key nonce)

/-! ## §1. The input is the output file. -/

section aliasing
variable (L : Libc) (st : Stack) (key : Vector UInt8 32) (in_path out_path : CString)
  (w : World)

/-- If the call returns 1, the output holds the nonce and the encryption of
what `in_path` held before. -/
def EncryptKeepsData : Prop :=
  ∀ r P, w.fs.read in_path = some P →
    Returns (fun fuel => encrypt_file L fuel st key in_path out_path w) r → r.ok = 1 →
    r.world.fs.read out_path
      = some ((drawnNonce L w).toList ++ crypt key (drawnNonce L w) P)

/-- If the call returns 1, the output holds the decryption of what `in_path`
held before behind its nonce. -/
def DecryptKeepsData : Prop :=
  ∀ r P, w.fs.read in_path = some P →
    Returns (fun fuel => decrypt_file L fuel st key in_path out_path w) r → r.ok = 1 →
    r.world.fs.read out_path = some (crypt key (headerNonce P) (P.drop NONCE_SIZE))

variable {L in_path out_path w} {P : List UInt8}

/-- Into itself a file is encrypted only if it is empty. -/
theorem encryptKeepsData_same_iff (hL : L.Faultless) (hP : w.fs.read in_path = some P)
    (hsame : w.fs.SameFile in_path out_path) :
    EncryptKeepsData L st key in_path out_path w ↔ P = [] := by
  obtain ⟨i, hin, hdata⟩ := names_of_read hP
  obtain ⟨r, hok, -, hread, hrun⟩ := encrypt_file_faultless st key hL hin
    (encrypt_entry_same st out_path (hL _) hin hsame)
  have hret : Returns (fun fuel => encrypt_file L fuel st key in_path out_path w) r :=
    ⟨_, hrun⟩
  constructor
  · intro h
    have hout := h r P hP hret hok
    rw [hread, Option.some_inj] at hout
    exact (crypt_injective key _ (List.append_cancel_left hout)).symm
  · rintro rfl r' P' hP' hr' _
    rw [hP] at hP'
    injection hP' with hP'
    rw [← hret.unique hr', ← hP', hread]

/-- Into itself a file is decrypted only if one buffer holds all of it. -/
theorem decryptKeepsData_same_iff (hL : L.Faultless) (hP : w.fs.read in_path = some P)
    (hsame : w.fs.SameFile in_path out_path) :
    DecryptKeepsData L st key in_path out_path w ↔ P.length ≤ L.bufsiz := by
  have hB := L.le_bufsiz
  have h12 : NONCE_SIZE = 12 := rfl
  obtain ⟨i, hin, rfl⟩ := names_of_read hP
  by_cases hlen : NONCE_SIZE ≤ (w.fs.data i).length
  · -- what is decrypted is what the first buffer holds behind the nonce
    obtain ⟨r, hok, hread, hrun⟩ := decrypt_file_faultless st key hL hin hlen
      (decrypt_entry_same st out_path (hL _) hin hlen hsame)
    have hret : Returns (fun fuel => decrypt_file L fuel st key in_path out_path w) r :=
      ⟨_, hrun⟩
    constructor
    · intro h
      have hout := h r _ hP hret hok
      rw [hread, Option.some_inj] at hout
      -- the two plaintexts have one length only if the buffer held all
      have hlens := congrArg List.length (crypt_injective key _ hout)
      rw [List.length_drop, List.length_take, List.length_drop] at hlens
      omega
    · intro hfits r' P' hP' hr' _
      rw [hP] at hP'
      injection hP' with hP'
      rw [← hret.unique hr', ← hP', hread, List.take_of_length_le hfits]
  · -- a file without a nonce is refused
    obtain ⟨w', -, hrun⟩ := decrypt_file_of_short L st key in_path out_path w hin (by omega)
    refine ⟨fun _ => by omega, ?_⟩
    intro _ r' _ _ hr' hok
    have hret : Returns (fun fuel => decrypt_file L fuel st key in_path out_path w)
        ⟨0, w', []⟩ := ⟨0, fun fuel _ => hrun fuel⟩
    rw [← hret.unique hr'] at hok
    cases hok

theorem encryptKeepsData_of_apart (hL : L.Faultless)
    (hne : ¬ w.fs.SameFile in_path out_path) :
    EncryptKeepsData L st key in_path out_path w := by
  intro r P hP hr _
  obtain ⟨r', -, hread, hrun⟩ := encrypt_succeeds st key ⟨hL, hP, hne⟩
  rw [← Returns.unique ⟨_, hrun⟩ hr]
  exact hread

theorem decryptKeepsData_of_apart (hL : L.Faultless)
    (hne : ¬ w.fs.SameFile in_path out_path) :
    DecryptKeepsData L st key in_path out_path w := by
  intro r P hP hr hok
  by_cases hlen : NONCE_SIZE ≤ P.length
  · obtain ⟨r', -, hread, hrun⟩ := decrypt_succeeds st key ⟨hL, hP, hne⟩ hlen
    rw [← Returns.unique ⟨_, hrun⟩ hr]
    exact hread
  · obtain ⟨i, hin, rfl⟩ := names_of_read hP
    obtain ⟨w', -, hrun⟩ := decrypt_file_of_short L st key in_path out_path w hin (by omega)
    rw [← Returns.unique ⟨0, fun fuel _ => hrun fuel⟩ hr] at hok
    cases hok

/-- **A RESULT OF 1 KEEPS THE DATA** unless the input is the output file, and
there is more in it than the call can have read before it empties the file. -/
theorem keeps_data_iff (hL : L.Faultless) :
    (EncryptKeepsData L st key in_path out_path w
      ↔ ¬ w.fs.SameFile in_path out_path ∨ w.fs.read in_path = some []) ∧
    (DecryptKeepsData L st key in_path out_path w
      ↔ ¬ w.fs.SameFile in_path out_path ∨
        ∃ P, w.fs.read in_path = some P ∧ P.length ≤ L.bufsiz) := by
  by_cases hsame : w.fs.SameFile in_path out_path
  · obtain ⟨i, hin, -⟩ := id hsame
    have hP := FileSystem.read_of_names hin
    constructor
    · rw [encryptKeepsData_same_iff st key hL hP hsame, hP, Option.some_inj]
      exact ⟨Or.inr, fun h => h.resolve_left (not_not.mpr hsame)⟩
    · rw [decryptKeepsData_same_iff st key hL hP hsame]
      constructor
      · exact fun h => Or.inr ⟨_, hP, h⟩
      · intro h
        obtain ⟨P, hP', hlen⟩ := h.resolve_left (not_not.mpr hsame)
        rw [hP] at hP'
        injection hP' with hP'
        rwa [hP']
  · exact ⟨⟨fun _ => Or.inl hsame, fun _ => encryptKeepsData_of_apart st key hL hsame⟩,
      ⟨fun _ => Or.inl hsame, fun _ => decryptKeepsData_of_apart st key hL hsame⟩⟩

end aliasing

/-- Encryption of `plain.txt` into the output file of main. -/
theorem keeps_data_plain :
    EncryptKeepsData (Libc.plain fun _ => none) Stack.clear (Vector.replicate 32 7)
      (str "plain.txt") (str "encrypted_output.dat")
      (World.start (FileSystem.single (str "plain.txt") [1, 2, 3])) :=
  (keeps_data_iff _ _ Libc.plain_faultless).1.mpr
    (Or.inl (FileSystem.single_not_sameFile _ (by decide)))

/-- Encrypting `encrypted_output.dat` returns 1 and loses its one byte. -/
theorem loses_encrypted_output :
    ¬ EncryptKeepsData (Libc.plain fun _ => none) Stack.clear (Vector.replicate 32 7)
      (str "encrypted_output.dat") (str "encrypted_output.dat")
      (World.start (FileSystem.single (str "encrypted_output.dat") [1])) := by
  rw [encryptKeepsData_same_iff _ _ Libc.plain_faultless (FileSystem.single_read _ _)
    (FileSystem.single_sameFile _ _)]
  exact List.cons_ne_nil 1 []

/-! ## §2. Fault schedules. -/

section faults
variable (L : Libc) (st : Stack) (key : Vector UInt8 32) (in_path out_path : CString)
  (w : World)

/-- The call returns, and if it returns 1, the output is complete. -/
def EncryptComplete : Prop :=
  ∃ r, Returns (fun fuel => encrypt_file L fuel st key in_path out_path w) r ∧
    (r.ok = 1 → ∃ P, w.fs.read in_path = some P ∧
      r.world.fs.read out_path
        = some ((drawnNonce L w).toList ++ crypt key (drawnNonce L w) P))

/-- The call returns, and if it returns 1, the output is complete. -/
def DecryptComplete : Prop :=
  ∃ r, Returns (fun fuel => decrypt_file L fuel st key in_path out_path w) r ∧
    (r.ok = 1 → ∃ P, w.fs.read in_path = some P ∧ NONCE_SIZE ≤ P.length ∧
      r.world.fs.read out_path = some (crypt key (headerNonce P) (P.drop NONCE_SIZE)))

/-- No fault is scheduled for the calls of `encrypt_file` on `n` bytes before
the last two `fclose` calls (the `fclose` of `/dev/urandom` apart). -/
def EncryptCallsClean (n : Nat) : Prop :=
  EncryptOpens L w ∧ Clean L (w.calls + 6) (w.calls + 6 + (2 * blockCount n + 1))

/-- None is scheduled for those of `decrypt_file` on `n` bytes behind the nonce. -/
def DecryptCallsClean (n : Nat) : Prop :=
  DecryptOpens L w ∧ Clean L (w.calls + 3) (w.calls + 3 + (2 * blockCount n + 1))

/-- Call number of `fclose(fout)` in `encrypt_file`. -/
def encryptCloseCall (n : Nat) : Nat := w.calls + 6 + (2 * blockCount n + 2)

/-- Call number of `fclose(fout)` in `decrypt_file`. -/
def decryptCloseCall (n : Nat) : Nat := w.calls + 3 + (2 * blockCount n + 2)

end faults

/-- A call that returns 0 claims nothing. -/
theorem Returns.refused {call : Nat → Option FileResult} {Q : FileResult → Prop}
    (h : ∃ w', ∀ fuel, call fuel = some ⟨0, w', []⟩) :
    ∃ r, Returns call r ∧ (r.ok = 1 → Q r) := by
  obtain ⟨w', hrun⟩ := h
  refine ⟨_, ⟨0, fun fuel _ => hrun fuel⟩, ?_⟩
  intro hok
  cases hok

section loop
variable {L : Libc} (key : Vector UInt8 32) (nonce : Vector UInt8 12)
  {out_path : CString} {s : XorState} {l t : List UInt8}

/-- **A loop between different files, under any fault schedule**, ends, and it
ends in a 1 with incomplete output exactly if only `fclose(fout)` fails and
has something to write. -/
theorem Entry.one_complete_iff (e : Entry L out_path s l t) (hne : s.fin.ino ≠ s.fout.ino) :
    ∃ r, Returns (fun fuel => (xorLoop L key nonce fuel s).map (finish L)) r ∧
      ((r.ok = 1 → r.world.fs.read out_path = some (t ++ crypt key nonce l))
        ↔ (Clean L s.world.calls (s.world.calls + (2 * blockCount l.length + 1)) →
            L.fault (closeCall s l) = none ∨ t ++ l = [])) := by
  by_cases hclean : Clean L s.world.calls (s.world.calls + (2 * blockCount l.length + 1))
  · obtain ⟨r, hok, -, hread, hrun⟩ := e.clean key nonce hclean
    refine ⟨r, ⟨_, hrun⟩, ?_⟩
    rw [← hread]
    exact ⟨fun h _ => h hok, fun h _ => h hclean⟩
  · -- some call of the loop fails, so the loop ends with 0
    obtain ⟨last, hloop⟩ := xorLoop_returns (L := L) key nonce _ s hne (Nat.lt_succ_self _)
    refine ⟨finish L last, ⟨(s.fin.left s.world.fs).length + 1, ?_⟩, ?_⟩
    · intro fuel hfuel
      show (xorLoop L key nonce fuel s).map (finish L) = _
      rw [xorLoop_mono key nonce _ s last hloop fuel (Nat.le_of_lt hfuel)]
      rfl
    · have hzero : (finish L last).ok ≠ 1 := by
        intro hok
        exact hclean (e.one key nonce (by rw [hloop]; rfl) hok)
      exact ⟨fun _ hc => absurd hc hclean, fun _ hok => absurd hok hzero⟩

end loop

section faults
variable {L : Libc} (st : Stack) (key : Vector UInt8 32) {in_path out_path : CString}
  {w : World} {P : List UInt8}

/-- For an existing input in another file. -/
theorem encryptComplete_iff (hP : w.fs.read in_path = some P)
    (hne : ¬ w.fs.SameFile in_path out_path) :
    EncryptComplete L st key in_path out_path w
      ↔ (EncryptCallsClean L w P.length → L.fault (encryptCloseCall w P.length) = none) := by
  obtain ⟨i, hin, rfl⟩ := names_of_read hP
  unfold EncryptComplete EncryptCallsClean
  by_cases hopens : EncryptOpens L w
  · have e := encrypt_entry_apart st out_path hopens.nonce_write hin hne
    have hi : i ≠ (w.fs.truncate out_path).1 :=
      fun h => hne ((FileSystem.eq_truncate_iff hin).mp h)
    obtain ⟨r, hret, hiff⟩ := e.one_complete_iff key (drawnNonce L w) hi
    -- there is always the nonce to flush
    have hcons : ¬ (drawnNonce L w).toList ++ w.fs.data i = [] := by
      intro h
      have := congrArg List.length (List.append_eq_nil_iff.mp h).1
      rw [Vector.length_toList] at this
      cases this
    rw [← funext (encrypt_file_of_opens L st key in_path out_path w hin hopens)] at hret
    rw [hret.exists_iff, hP]
    simp only [Option.some.injEq, exists_eq_left']
    refine hiff.trans ?_
    rw [or_iff_left hcons, and_iff_right hopens]
    rfl
  · refine ⟨fun _ hclean => absurd hclean.1 hopens, ?_⟩
    intro _
    apply Returns.refused
    exact encrypt_file_of_not_opens L st key in_path out_path w (fun h => absurd h hopens)

/-- For an existing input in another file that has a nonce. -/
theorem decryptComplete_iff (hP : w.fs.read in_path = some P)
    (hlen : NONCE_SIZE ≤ P.length) (hne : ¬ w.fs.SameFile in_path out_path) :
    DecryptComplete L st key in_path out_path w
      ↔ (DecryptCallsClean L w (P.length - NONCE_SIZE) →
          L.fault (decryptCloseCall w (P.length - NONCE_SIZE)) = none ∨
            P.length = NONCE_SIZE) := by
  obtain ⟨i, hin, rfl⟩ := names_of_read hP
  unfold DecryptComplete DecryptCallsClean
  by_cases hopens : DecryptOpens L w
  · have e := decrypt_entry_apart st out_path hopens.nonce_read hin hlen hne
    have hi : (readNonce L w i).2.1.ino ≠ (w.fs.truncate out_path).1 := by
      rw [readNonce_stream hopens.nonce_read hlen]
      exact fun h => hne ((FileSystem.eq_truncate_iff hin).mp h)
    obtain ⟨r, hret, hiff⟩ := e.one_complete_iff key (headerNonce (w.fs.data i)) hi
    have hnil : (w.fs.data i).drop NONCE_SIZE = []
        ↔ (w.fs.data i).length = NONCE_SIZE := by
      rw [List.drop_eq_nil_iff]
      omega
    rw [← funext (decrypt_file_of_opens L st key in_path out_path w hin hlen hopens)] at hret
    rw [hret.exists_iff, hP]
    simp only [Option.some.injEq, exists_eq_left', hlen, true_and]
    refine hiff.trans ?_
    rw [List.nil_append, hnil, and_iff_right hopens]
    unfold closeCall decryptCloseCall
    rw [List.length_drop]
    rfl
  · refine ⟨fun _ hclean => absurd hclean.1 hopens, ?_⟩
    intro _
    apply Returns.refused
    exact decrypt_file_of_not_opens L st key in_path out_path w (fun h => absurd h hopens)

/-- **A RESULT OF 1 MEANS COMPLETE OUTPUT** under every fault schedule but
those in which nothing fails before `fclose(fout)` and that call does, with
bytes left to write. -/
theorem complete_iff (hne : ¬ w.fs.SameFile in_path out_path) :
    (EncryptComplete L st key in_path out_path w
      ↔ ∀ P, w.fs.read in_path = some P → EncryptCallsClean L w P.length →
          L.fault (encryptCloseCall w P.length) = none) ∧
    (DecryptComplete L st key in_path out_path w
      ↔ ∀ P, w.fs.read in_path = some P → NONCE_SIZE < P.length →
          DecryptCallsClean L w (P.length - NONCE_SIZE) →
          L.fault (decryptCloseCall w (P.length - NONCE_SIZE)) = none) := by
  cases hP : w.fs.read in_path with
  | none =>
      have hin : w.fs.names in_path = none := Option.map_eq_none_iff.mp hP
      constructor
      · refine ⟨fun _ P h => absurd h nofun, ?_⟩
        intro _
        apply Returns.refused
        exact encrypt_file_of_not_opens L st key in_path out_path w (fun _ => hin)
      · refine ⟨fun _ P h => absurd h nofun, ?_⟩
        intro _
        apply Returns.refused
        apply decrypt_file_of_not_opens
        intro _ i hi
        rw [hin] at hi
        cases hi
  | some P =>
      simp only [Option.some.injEq, forall_eq']
      refine ⟨encryptComplete_iff st key hP hne, ?_⟩
      by_cases hlen : NONCE_SIZE ≤ P.length
      · rw [decryptComplete_iff st key hP hlen hne]
        constructor
        · exact fun h hlt hclean => (h hclean).resolve_right (Nat.ne_of_gt hlt)
        · intro h hclean
          rcases Nat.eq_or_lt_of_le hlen with heq | hlt
          · exact Or.inr heq.symm
          · exact Or.inl (h hlt hclean)
      · obtain ⟨i, hin, rfl⟩ := names_of_read hP
        obtain ⟨w', -, hrun⟩ := decrypt_file_of_short L st key in_path out_path w hin
          (by omega)
        refine ⟨fun _ hlt => absurd (Nat.le_of_lt hlt) hlen, ?_⟩
        intro _
        exact Returns.refused ⟨w', hrun⟩

end faults

/-- A write error that `fwrite` reports is noticed. -/
theorem complete_short_write :
    EncryptComplete (Libc.plain fun c => if c = 7 then some 0 else none) Stack.clear
      (Vector.replicate 32 7) (str "plain.txt") (str "encrypted_output.dat")
      (World.start (FileSystem.single (str "plain.txt") [1])) := by
  refine (complete_iff _ _ (FileSystem.single_not_sameFile _ (by decide))).1.mpr ?_
  intro P hP hclean
  rw [World.start, FileSystem.single_read, Option.some_inj] at hP
  have h7 := hclean.2 7 (by decide) (by rw [← hP]; decide)
  cases h7

/-- If only the last flush fails, the file stays empty and the result is 1. -/
theorem incomplete_lost_flush :
    ¬ EncryptComplete (Libc.plain fun c => if c = 10 then some 0 else none) Stack.clear
      (Vector.replicate 32 7) (str "plain.txt") (str "encrypted_output.dat")
      (World.start (FileSystem.single (str "plain.txt") [1])) := by
  rw [encryptComplete_iff _ _ (FileSystem.single_read _ _)
    (FileSystem.single_not_sameFile _ (by decide))]
  intro h
  have hclean : EncryptCallsClean (Libc.plain fun c => if c = 10 then some 0 else none)
      (World.start (FileSystem.single (str "plain.txt") [1])) 1 := by
    refine ⟨⟨rfl, rfl, rfl, rfl, rfl⟩, fun c _ hlt => if_neg ?_⟩
    have hlt : c < 9 := hlt
    omega
  cases h hclean

end ConcurrencyCrypto.Crypto
