/-
  ConcurrencyCrypto.Crypto.FileRoundTrip
  ──────────────────────────────────────
  **THE FILE FORMAT: NONCE, THEN CIPHERTEXT.**

  Without I/O errors and with two different files, `encrypt_file` and
  `decrypt_file` invert each other, whichever of them comes first.  The
  second half is about the 32-bit block counter: it makes the keystream
  blocks of one file different exactly up to 2^38 bytes.
-/
import ConcurrencyCrypto.Crypto.FileCalls

namespace ConcurrencyCrypto.Crypto

open ConcurrencyCrypto.Library

/-! ## §1. Calls that succeed. -/

/-- A call without I/O errors that reads the contents `xs` of `in_path`, the
output being another file. -/
structure CleanCall (L : Libc) (w : World) (in_path out_path : CString)
    (xs : List UInt8) : Prop where
  faultless : L.Faultless
  contents : w.fs.read in_path = some xs
  apart : ¬ w.fs.SameFile in_path out_path

/-- The call returns 1 and leaves `out` in `out_path`; `n` is a bound on the
iterations it makes. -/
def Succeeds (call : Nat → Option FileResult) (n : Nat) (out_path : CString)
    (out : List UInt8) : Prop :=
  ∃ r : FileResult, r.ok = 1 ∧ r.world.fs.read out_path = some out ∧
    ∀ fuel, n < fuel → call fuel = some r

section calls
variable {L : Libc} (st : Stack) (key : Vector UInt8 32) {w : World}
  {in_path out_path : CString} {xs : List UInt8}

theorem encrypt_succeeds (h : CleanCall L w in_path out_path xs) :
    Succeeds (fun fuel => encrypt_file L fuel st key in_path out_path w)
      (blockCount xs.length) out_path
      ((drawnNonce L w).toList ++ crypt key (drawnNonce L w) xs) := by
  obtain ⟨i, hin, rfl⟩ := names_of_read h.contents
  obtain ⟨r, hok, -, hread, hrun⟩ := encrypt_file_faultless st key h.faultless hin
    (encrypt_entry_apart st out_path (h.faultless _) hin h.apart)
  exact ⟨r, hok, hread, hrun⟩

theorem decrypt_succeeds (h : CleanCall L w in_path out_path xs)
    (hlen : NONCE_SIZE ≤ xs.length) :
    Succeeds (fun fuel => decrypt_file L fuel st key in_path out_path w)
      (blockCount (xs.length - NONCE_SIZE)) out_path
      (crypt key (headerNonce xs) (xs.drop NONCE_SIZE)) := by
  obtain ⟨i, hin, rfl⟩ := names_of_read h.contents
  obtain ⟨r, hok, hread, hrun⟩ := decrypt_file_faultless st key h.faultless hin hlen
    (decrypt_entry_apart st out_path (h.faultless _) hin hlen h.apart)
  rw [List.length_drop] at hrun
  exact ⟨r, hok, hread, hrun⟩

end calls

/-! ## §2. The header. -/

theorem headerNonce_toList {file : List UInt8} (h : NONCE_SIZE ≤ file.length) :
    (headerNonce file).toList = file.take NONCE_SIZE := by
  have hlen : (file.take NONCE_SIZE).length = 12 := by
    rw [List.length_take]
    exact Nat.min_eq_left h
  have hblit := blit_take (Vector.replicate 12 (0 : UInt8)) 0 (file.take NONCE_SIZE)
    (by omega)
  rw [hlen, List.take_zero, List.nil_append] at hblit
  refine Eq.trans ?_ hblit
  exact (List.take_of_length_le (by rw [Vector.length_toList])).symm

/-- The reader of a file recovers the nonce its writer put in front. -/
theorem headerNonce_append (nonce : Vector UInt8 12) (body : List UInt8) :
    headerNonce (nonce.toList ++ body) = nonce := by
  have hlen : nonce.toList.length = NONCE_SIZE := Vector.length_toList
  apply Vector.toList_inj.mp
  rw [headerNonce_toList (by rw [List.length_append]; omega)]
  exact List.take_left' hlen

/-! ## §3. The round trips. -/

/-- **ENCRYPTION AND DECRYPTION INVERT EACH OTHER**, and a file too short for
a nonce is refused without touching any file. -/
theorem file_round_trip (key : Vector UInt8 32) :
    (∀ (L : Libc) (st : Stack) (in_path out_path : CString) (w : World) (P : List UInt8),
      CleanCall L w in_path out_path P →
      ∃ F : List UInt8,
        Succeeds (fun fuel => encrypt_file L fuel st key in_path out_path w)
          (blockCount P.length) out_path F ∧
        F.length = P.length + 12 ∧ F.take 12 = (drawnNonce L w).toList ∧
        ∀ (L' : Libc) (st' : Stack) (in_path' out_path' : CString) (w' : World),
          CleanCall L' w' in_path' out_path' F →
          Succeeds (fun fuel => decrypt_file L' fuel st' key in_path' out_path' w')
            (blockCount P.length) out_path' P) ∧
    (∀ (L : Libc) (st : Stack) (in_path out_path : CString) (w : World) (f : List UInt8),
      12 ≤ f.length → CleanCall L w in_path out_path f →
      ∃ Q : List UInt8,
        Succeeds (fun fuel => decrypt_file L fuel st key in_path out_path w)
          (blockCount (f.length - 12)) out_path Q ∧
        ∀ (L' : Libc) (st' : Stack) (in_path' out_path' : CString) (w' : World),
          CleanCall L' w' in_path' out_path' Q →
          (drawnNonce L' w').toList = f.take 12 →
          Succeeds (fun fuel => encrypt_file L' fuel st' key in_path' out_path' w')
            (blockCount (f.length - 12)) out_path' f) ∧
    (∀ (L : Libc) (st : Stack) (in_path out_path : CString) (w : World) (f : List UInt8),
      f.length < 12 → w.fs.read in_path = some f →
      ∃ w', w'.fs = w.fs ∧
        ∀ fuel, decrypt_file L fuel st key in_path out_path w = some ⟨0, w', []⟩) := by
  refine ⟨?_, ?_, ?_⟩
  · intro L st in_path out_path w P hcall
    have hlen : (drawnNonce L w).toList.length = 12 := Vector.length_toList
    refine ⟨_, encrypt_succeeds st key hcall, ?_, ?_, ?_⟩
    · rw [List.length_append, length_crypt, hlen, Nat.add_comm]
    · exact List.take_left' hlen
    · intro L' st' in_path' out_path' w' hcall'
      have hdec := decrypt_succeeds st' key hcall'
        (by rw [List.length_append, hlen]; exact Nat.le_add_right 12 _)
      have hdrop : ((drawnNonce L w).toList ++ crypt key (drawnNonce L w) P).drop NONCE_SIZE
          = crypt key (drawnNonce L w) P := List.drop_left' hlen
      have hcount : ((drawnNonce L w).toList ++ crypt key (drawnNonce L w) P).length
          - NONCE_SIZE = P.length := by
        rw [List.length_append, length_crypt, hlen]
        exact Nat.add_sub_cancel_left 12 _
      rw [headerNonce_append, hdrop, hcount, crypt_crypt] at hdec
      exact hdec
  · intro L st in_path out_path w f hlen hcall
    refine ⟨_, decrypt_succeeds st key hcall hlen, ?_⟩
    intro L' st' in_path' out_path' w' hcall' hnonce
    have hdrawn : drawnNonce L' w' = headerNonce f :=
      Vector.toList_inj.mp (hnonce.trans (headerNonce_toList hlen).symm)
    have henc := encrypt_succeeds st' key hcall'
    have hcount : (crypt key (headerNonce f) (f.drop NONCE_SIZE)).length = f.length - 12 := by
      rw [length_crypt, List.length_drop]
      rfl
    -- re-encrypting under the nonce of the header restores the body
    rw [hcount, hdrawn, crypt_crypt, headerNonce_toList hlen, List.take_append_drop] at henc
    exact henc
  · intro L st in_path out_path w f hlen hread
    obtain ⟨i, hin, rfl⟩ := names_of_read hread
    exact decrypt_file_of_short L st key in_path out_path w hin hlen

/-- A file system of one file allows a clean call on it. -/
theorem cleanCall_single {p q : CString} (xs : List UInt8) (h : q ≠ p) :
    CleanCall (Libc.plain fun _ => none) (World.start (FileSystem.single p xs)) p q xs :=
  ⟨Libc.plain_faultless, FileSystem.single_read p xs, FileSystem.single_not_sameFile xs h⟩

/-- What the `test` target of the Makefile tries, on three bytes. -/
theorem file_round_trip_three_bytes :
    ∃ F : List UInt8,
      Succeeds (fun fuel => encrypt_file (Libc.plain fun _ => none) fuel
          Stack.clear (Vector.replicate 32 7) (str "plain.txt") (str "encrypted_output.dat")
          (World.start (FileSystem.single (str "plain.txt") [1, 2, 3])))
        1 (str "encrypted_output.dat") F ∧
      Succeeds (fun fuel => decrypt_file (Libc.plain fun _ => none) fuel
          Stack.clear (Vector.replicate 32 7) (str "encrypted_output.dat")
          (str "decrypted_output.dat")
          (World.start (FileSystem.single (str "encrypted_output.dat") F)))
        1 (str "decrypted_output.dat") [1, 2, 3] := by
  obtain ⟨henc, -, -⟩ := file_round_trip (Vector.replicate 32 7)
  obtain ⟨F, hF, -, -, hdec⟩ := henc _ Stack.clear _ _ _ _
    (cleanCall_single (p := str "plain.txt") (q := str "encrypted_output.dat") [1, 2, 3]
      (by decide))
  have hcall := cleanCall_single (p := str "encrypted_output.dat")
    (q := str "decrypted_output.dat") F (by decide)
  exact ⟨F, hF, hdec _ _ _ _ _ hcall⟩

/-! ## §4. The block counter. -/

theorem blockCount_le_iff (n B : Nat) : blockCount n ≤ B ↔ n ≤ 64 * B := by
  unfold blockCount
  omega

/-- The 32-bit counters of `B` blocks are different exactly up to 2^32. -/
theorem counters_nodup_iff (B : Nat) :
    ((List.range B).map UInt32.ofNat).Nodup ↔ B ≤ 2 ^ 32 := by
  constructor
  · intro h
    by_contra hlt
    have h0 : (0 : Nat) ∈ List.range B := List.mem_range.mpr (by omega)
    have h1 : 2 ^ 32 ∈ List.range B := List.mem_range.mpr (by omega)
    -- block number 2^32 has the counter of block number 0 again
    have := List.inj_on_of_nodup_map h h0 h1 rfl
    omega
  · intro h
    refine List.Nodup.map_on ?_ List.nodup_range
    intro a ha b hb hab
    have ha' := List.mem_range.mp ha
    have hb' := List.mem_range.mp hb
    have hnat := congrArg UInt32.toNat hab
    rw [UInt32.toNat_ofNat', UInt32.toNat_ofNat', Nat.mod_eq_of_lt (by omega),
      Nat.mod_eq_of_lt (by omega)] at hnat
    exact hnat

/-- When the call returns 1, the `chacha20_block` calls it made, one for each
block of the plaintext, had different counters. -/
def KeystreamNotReused (call : Nat → Option FileResult) : Prop :=
  ∀ r, Returns call r → r.ok = 1 → r.counters.Nodup

/-- There is a counter for every block of `P`, and block `j` of `F` is block `j`
of `P` under the keystream block of the `j`-th counter. -/
structure BlocksUnder (key : Vector UInt8 32) (nonce : Vector UInt8 12)
    (counters : List UInt32) (P F : List UInt8) : Prop where
  count : counters.length = blockCount P.length
  length : F.length = P.length
  block : ∀ j i c (_ : i < 64), counters[j]? = some c →
    F[64 * j + i]? = (P[64 * j + i]?).map fun a => a ^^^ (chacha20_block key nonce c)[i]

/-- The call returns 1, and the output is the nonce and `P` under the keystream
blocks of the recorded counters. -/
def WritesUnder (key : Vector UInt8 32) (nonce : Vector UInt8 12)
    (call : Nat → Option FileResult) (out_path : CString) (P : List UInt8) : Prop :=
  ∃ r F, Returns call r ∧ r.ok = 1 ∧ r.world.fs.read out_path = some (nonce.toList ++ F) ∧
    BlocksUnder key nonce r.counters P F

section counter
variable {L : Libc} (st : Stack) (key : Vector UInt8 32) {w : World}
  {in_path out_path : CString} {P : List UInt8}

/-- The counters `0, 1, …` are those of the cipher. -/
theorem blocksUnder_crypt (nonce : Vector UInt8 12) (l : List UInt8) :
    BlocksUnder key nonce ((List.range (blockCount l.length)).map UInt32.ofNat) l
      (crypt key nonce l) := by
  refine ⟨by rw [List.length_map, List.length_range], length_crypt key nonce l, ?_⟩
  intro j i c hi hc
  have hcj : c = UInt32.ofNat j := by
    rw [List.getElem?_map] at hc
    obtain ⟨k, hk, hkc⟩ := Option.map_eq_some_iff.mp hc
    obtain ⟨hlt, hget⟩ := List.getElem?_eq_some_iff.mp hk
    rw [List.getElem_range] at hget
    rw [← hkc, hget]
  have hdiv : (0 + (64 * j + i)) / 64 = j := by omega
  have hmod : (0 + (64 * j + i)) % 64 = i := by omega
  unfold crypt cryptFrom
  rw [getElem?_mask]
  unfold keystreamByte
  simp only [hdiv, hmod, hcj]

/-- Encryption of a text `l` records the counters it uses, and reuses nothing
up to 2^38 bytes. -/
theorem keystream_of_entry {i : Ino} {l : List UInt8} (hL : L.Faultless)
    (hin : w.fs.names in_path = some i)
    (e : Entry L out_path (encryptStart L st out_path w i) l (drawnNonce L w).toList) :
    (KeystreamNotReused (fun fuel => encrypt_file L fuel st key in_path out_path w)
      ↔ l.length ≤ 2 ^ 38) ∧
    WritesUnder key (drawnNonce L w) (fun fuel => encrypt_file L fuel st key in_path out_path w)
      out_path l := by
  obtain ⟨r, hok, hcounters, hread, hrun⟩ := encrypt_file_faultless st key hL hin e
  have hret : Returns (fun fuel => encrypt_file L fuel st key in_path out_path w) r :=
    ⟨_, hrun⟩
  refine ⟨?_, r, _, hret, hok, hread, ?_⟩
  · have hbytes := blockCount_le_iff l.length (2 ^ 32)
    rw [show 2 ^ 38 = 64 * 2 ^ 32 from rfl, ← hbytes, ← counters_nodup_iff, ← hcounters]
    constructor
    · intro h
      exact h r hret hok
    · intro h r' hr' _
      rw [← hret.unique hr']
      exact h
  · rw [hcounters]
    exact blocksUnder_crypt key _ l

/-- **THE COUNTER SUFFICES FOR 2^38 BYTES**, and for no more.  The recorded
counters are those under whose keystream blocks the text is written; where the
output is the input, it has been emptied before. -/
theorem keystream_not_reused_iff (hL : L.Faultless) (hP : w.fs.read in_path = some P) :
    (KeystreamNotReused (fun fuel => encrypt_file L fuel st key in_path out_path w)
      ↔ w.fs.SameFile in_path out_path ∨ P.length ≤ 2 ^ 38) ∧
    (¬ w.fs.SameFile in_path out_path → WritesUnder key (drawnNonce L w)
      (fun fuel => encrypt_file L fuel st key in_path out_path w) out_path P) ∧
    (w.fs.SameFile in_path out_path → WritesUnder key (drawnNonce L w)
      (fun fuel => encrypt_file L fuel st key in_path out_path w) out_path []) := by
  obtain ⟨i, hin, rfl⟩ := names_of_read hP
  by_cases hsame : w.fs.SameFile in_path out_path
  · -- the truncated file has no block at all
    obtain ⟨hiff, hunder⟩ := keystream_of_entry st key hL hin
      (encrypt_entry_same st out_path (hL _) hin hsame)
    rw [hiff]
    exact ⟨⟨fun _ => Or.inl hsame, fun _ => Nat.zero_le _⟩, absurd hsame, fun _ => hunder⟩
  · obtain ⟨hiff, hunder⟩ := keystream_of_entry st key hL hin
      (encrypt_entry_apart st out_path (hL _) hin hsame)
    rw [hiff]
    exact ⟨⟨Or.inr, fun h => h.resolve_left hsame⟩, fun _ => hunder, fun h => absurd h hsame⟩

end counter

/-- Two blocks, the second one partial. -/
theorem keystream_not_reused_two_blocks :
    KeystreamNotReused (fun fuel => encrypt_file (Libc.plain fun _ => none) fuel
      Stack.clear (Vector.replicate 32 7) (str "plain.txt") (str "encrypted_output.dat")
      (World.start (FileSystem.single (str "plain.txt") ((List.range 100).map UInt8.ofNat)))) ∧
    ∃ nonce, WritesUnder (Vector.replicate 32 7) nonce
      (fun fuel => encrypt_file (Libc.plain fun _ => none) fuel
        Stack.clear (Vector.replicate 32 7) (str "plain.txt") (str "encrypted_output.dat")
        (World.start (FileSystem.single (str "plain.txt") ((List.range 100).map UInt8.ofNat))))
      (str "encrypted_output.dat") ((List.range 100).map UInt8.ofNat) := by
  have hcall := cleanCall_single (p := str "plain.txt") (q := str "encrypted_output.dat")
    ((List.range 100).map UInt8.ofNat) (by decide)
  obtain ⟨hiff, hunder, -⟩ := keystream_not_reused_iff Stack.clear (Vector.replicate 32 7)
    hcall.faultless hcall.contents
  refine ⟨hiff.mpr (Or.inr ?_), _, hunder hcall.apart⟩
  rw [List.length_map, List.length_range]
  omega

/-- One byte more than 2^38 and the first keystream block serves twice. -/
theorem keystream_reused :
    ¬ KeystreamNotReused (fun fuel => encrypt_file (Libc.plain fun _ => none) fuel
      Stack.clear (Vector.replicate 32 7)
      (str "plain.txt") (str "encrypted_output.dat")
      (World.start (FileSystem.single (str "plain.txt")
        (List.replicate (2 ^ 38 + 1) 0)))) := by
  have hcall := cleanCall_single (p := str "plain.txt") (q := str "encrypted_output.dat")
    (List.replicate (2 ^ 38 + 1) 0) (by decide)
  obtain ⟨i, hin, hdata⟩ := names_of_read hcall.contents
  rw [(keystream_of_entry _ _ hcall.faultless hin
    (encrypt_entry_apart _ _ (hcall.faultless _) hin hcall.apart)).1, hdata,
    List.length_replicate]
  omega

end ConcurrencyCrypto.Crypto
