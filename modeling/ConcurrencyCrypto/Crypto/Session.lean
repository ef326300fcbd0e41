/-
  ConcurrencyCrypto.Crypto.Session
  ────────────────────────────────
  **THE PROGRAM OVER MANY RUNS.**  Each run of `file_crypt` is a process of
  its own: it finds the file system the runs before it left, whatever the
  library, the command line and the memory it starts with.

    • `runs_guarded` — no sequence of runs changes any file but the two output
      files, and one that changes a file has a run that knew the passcode;
    • `session_round_trip` — encrypting with one run and decrypting with a
      later one gives the file back.
-/
import ConcurrencyCrypto.Crypto.FileEffects
import ConcurrencyCrypto.Crypto.Main

namespace ConcurrencyCrypto.Crypto

open ConcurrencyCrypto.Library

/-! ## §1. What `main` does. -/

/-- The output name of an encryption. -/
def encryptedName : CString := str "encrypted_output.dat"

/-- The output name of a decryption. -/
def decryptedName : CString := str "decrypted_output.dat"

theorem encryptedName_ne : encryptedName ≠ decryptedName := by decide +kernel

/-- The arguments pass the checks of `main`: there are five, the encryption
key is long enough, the flag reads 0 or 1, and the passcode is accepted. -/
structure Authorized (c : Sha256Ctx) (argv : List (List UInt8)) (d : Dispatch) : Prop where
  args : ∃ prog login_passcode input_path encryption_key action,
    argv = [prog, login_passcode, input_path, encryption_key, action] ∧
    (∃ ok, verify_passcode c login_passcode = some ok ∧ ok ≠ 0) ∧
    MIN_KEY_CHARS ≤ strlen encryption_key ∧
    derive_key encryption_key = some d.key ∧ d.in_path = cString input_path ∧
    (atoi (cString action) = 0 ∧ d.call = .encrypt_file ∧ d.out_path = encryptedName ∨
      atoi (cString action) = 1 ∧ d.call = .decrypt_file ∧ d.out_path = decryptedName)

section dispatch
variable {c : Sha256Ctx} {argv : List (List UInt8)} {w w' : World}

/-- **Behind all checks there is a call**, and the files are as they were. -/
theorem main_dispatch_some {dispatch : Option Dispatch}
    (h : main_dispatch c argv w = some (dispatch, w')) :
    (w'.fs = w.fs ∧ w'.calls = w.calls) ∧ ∀ d, dispatch = some d → Authorized c argv d := by
  unfold main_dispatch at h
  split at h
  next prog login_passcode input_path encryption_key action =>
    dsimp only at h
    by_cases hkey : strlen encryption_key < MIN_KEY_CHARS
    · rw [if_pos hkey] at h
      cases h
      exact ⟨⟨rfl, rfl⟩, nofun⟩
    rw [if_neg hkey] at h
    by_cases hflag : atoi (cString action) ≠ 0 ∧ atoi (cString action) ≠ 1
    · rw [if_pos hflag] at h
      cases h
      exact ⟨⟨rfl, rfl⟩, nofun⟩
    rw [if_neg hflag] at h
    obtain ⟨ok, hok, h⟩ := Option.bind_eq_some_iff.mp h
    by_cases hzero : ok = 0
    · rw [if_pos hzero] at h
      cases h
      exact ⟨⟨rfl, rfl⟩, nofun⟩
    rw [if_neg hzero] at h
    obtain ⟨key, hderive, h⟩ := Option.bind_eq_some_iff.mp h
    -- the two calls
    by_cases h0 : atoi (cString action) = 0
    · rw [if_pos h0] at h
      cases h
      refine ⟨⟨rfl, rfl⟩, ?_⟩
      rintro d ⟨rfl⟩
      exact ⟨_, _, _, _, _, rfl, ⟨ok, hok, hzero⟩, Nat.le_of_not_lt hkey, hderive, rfl,
        Or.inl ⟨h0, rfl, rfl⟩⟩
    · rw [if_neg h0] at h
      cases h
      have h1 : atoi (cString action) = 1 := by
        by_contra h1
        exact hflag ⟨h0, h1⟩
      refine ⟨⟨rfl, rfl⟩, ?_⟩
      rintro d ⟨rfl⟩
      exact ⟨_, _, _, _, _, rfl, ⟨ok, hok, hzero⟩, Nat.le_of_not_lt hkey, hderive, rfl,
        Or.inr ⟨h1, rfl, rfl⟩⟩
  · cases h
    exact ⟨⟨rfl, rfl⟩, nofun⟩
  · cases h
    exact ⟨⟨rfl, rfl⟩, nofun⟩

/-- A call writes its own output only. -/
theorem Dispatch.run_confined {L : Libc} {fuel : Nat} {st : Stack} {d : Dispatch}
    {r : FileResult} (h : d.run L fuel st w = some r) : w.fs.Confined d.out_path r.world.fs := by
  unfold Dispatch.run at h
  split at h
  · exact encrypt_file_confined st d.key d.in_path d.out_path h
  · exact decrypt_file_confined st d.key d.in_path d.out_path h

/-- **A run of the program** ends without a library call and without a change,
or has passed the checks and changed its output at most. -/
theorem main_cases {L : Libc} {fuel : Nat} {st : Stack} {status : Int}
    (h : main L fuel st c argv w = some (status, w')) :
    (status = 1 ∧ w'.fs = w.fs ∧ w'.calls = w.calls) ∨
      ∃ d, Authorized c argv d ∧ w.fs.Confined d.out_path w'.fs ∧
        (d.out_path = encryptedName ∨ d.out_path = decryptedName) := by
  unfold main at h
  obtain ⟨⟨dispatch, w₁⟩, hdispatch, h⟩ := Option.bind_eq_some_iff.mp h
  obtain ⟨⟨hfs, hcalls⟩, hauth⟩ := main_dispatch_some hdispatch
  cases dispatch with
  | none =>
      cases h
      exact Or.inl ⟨rfl, hfs, hcalls⟩
  | some d =>
      obtain ⟨r, hr, h⟩ := Option.bind_eq_some_iff.mp h
      cases h
      refine Or.inr ⟨d, hauth d rfl, ?_, ?_⟩
      · rw [← hfs]
        exact Dispatch.run_confined hr
      · obtain ⟨_, _, _, _, _, _, -, -, -, -, hout⟩ := (hauth d rfl).args
        exact hout.imp (fun h => h.2.2) (fun h => h.2.2)

/-- Only the passcode, or a collision with it, is accepted. -/
theorem digest_of_accepted {candidate : List UInt8} {ok : Int}
    (h : verify_passcode c candidate = some ok) (hok : ok ≠ 0)
    (hlen : strlen candidate < 2 ^ 61) :
    Fips180.digest (candidate.take (strlen candidate)) = Fips180.digest passcode := by
  have hle : (candidate.take (strlen candidate)).length < 2 ^ 61 :=
    Nat.lt_of_le_of_lt (List.length_take_le _ _) hlen
  obtain ⟨out, hsha, hout⟩ := sha256_eq_digest c _ hle
  unfold verify_passcode at h
  rw [hsha] at h
  by_cases hzero : ct_memcmp out PASSCODE_DIGEST = 0
  · rw [← hout, digest_passcode, (ct_memcmp_eq_zero_iff out PASSCODE_DIGEST).mp hzero]
  · injection h with h
    rw [if_neg hzero] at h
    exact absurd h.symm hok

/-- A call that passed the checks is made. -/
theorem Authorized.dispatch {d : Dispatch} (h : Authorized c argv d) (w : World) :
    ∃ msg, main_dispatch c argv w = some (some d, w.print msg) := by
  obtain ⟨prog, login_passcode, input_path, encryption_key, action, rfl, ⟨ok, hok, hne⟩, hkey,
    hderive, hin, hcall⟩ := h.args
  obtain ⟨call, key, in_path, out_path⟩ := d
  dsimp only at hderive hin hcall
  unfold main_dispatch
  dsimp only
  rw [if_neg (Nat.not_lt.mpr hkey), hok, hderive, hin]
  simp only [Option.bind_eq_bind, Option.bind_some]
  rcases hcall with ⟨h0, rfl, rfl⟩ | ⟨h1, rfl, rfl⟩
  · rw [if_neg (fun hc => hc.1 h0), if_neg hne, if_pos h0]
    exact ⟨_, rfl⟩
  · rw [if_neg (fun hc => hc.2 h1), if_neg hne, if_neg (by omega)]
    exact ⟨_, rfl⟩

theorem Authorized.out_of_encrypt {d : Dispatch} (h : Authorized c argv d)
    (hcall : d.call = .encrypt_file) : d.out_path = encryptedName := by
  obtain ⟨_, _, _, _, _, -, -, -, -, -, h0 | h1⟩ := h.args
  · exact h0.2.2
  · rw [h1.2.1] at hcall
    cases hcall

theorem Authorized.out_of_decrypt {d : Dispatch} (h : Authorized c argv d)
    (hcall : d.call = .decrypt_file) : d.out_path = decryptedName := by
  obtain ⟨_, _, _, _, _, -, -, -, -, -, h0 | h1⟩ := h.args
  · rw [h0.2.1] at hcall
    cases hcall
  · exact h1.2.2

end dispatch

/-! ## §2. Runs. -/

/-- One run of the program: the library and the memory it meets, and its
arguments. -/
structure Run where
  L : Libc
  fuel : Nat
  stack : Stack
  ctx : Sha256Ctx
  argv : List (List UInt8)

/-- The exit status and the file system left. -/
def Run.exit (run : Run) (fs : FileSystem) : Option (Int × FileSystem) :=
  (main run.L run.fuel run.stack run.ctx run.argv (World.start fs)).map
    fun r => (r.1, r.2.fs)

/-- One run after the other, each a process of its own. -/
def runAll : List Run → FileSystem → Option FileSystem
  | [], fs => some fs
  | run :: rest, fs => (run.exit fs).bind fun r => runAll rest r.2

/-- The run has five arguments, a long enough encryption key, a flag that
reads 0 or 1, and a login passcode with the digest of the passcode. -/
def Run.Knows (run : Run) : Prop :=
  ∃ prog login_passcode input_path encryption_key action,
    run.argv = [prog, login_passcode, input_path, encryption_key, action] ∧
    MIN_KEY_CHARS ≤ strlen encryption_key ∧
    (atoi (cString action) = 0 ∨ atoi (cString action) = 1) ∧
    (strlen login_passcode < 2 ^ 61 →
      Fips180.digest (login_passcode.take (strlen login_passcode)) = Fips180.digest passcode)

/-- The run makes no call of `encrypt_file`. -/
def Run.NeverEncrypts (run : Run) : Prop :=
  ∀ d, Authorized run.ctx run.argv d → d.call = .decrypt_file

theorem knows_of_authorized {run : Run} {d : Dispatch}
    (h : Authorized run.ctx run.argv d) : run.Knows := by
  obtain ⟨prog, login_passcode, input_path, encryption_key, action, hargv, ⟨ok, hok, hne⟩, hkey,
    -, -, hcall⟩ := h.args
  refine ⟨prog, login_passcode, input_path, encryption_key, action, hargv, hkey, ?_, ?_⟩
  · exact hcall.imp (fun h => h.1) (fun h => h.1)
  · exact digest_of_accepted hok hne

/-- What one run does to the files. -/
theorem Run.exit_cases {run : Run} {fs fs' : FileSystem} {status : Int}
    (h : run.exit fs = some (status, fs')) :
    fs' = fs ∨ ∃ d, Authorized run.ctx run.argv d ∧ fs.Confined d.out_path fs' := by
  obtain ⟨⟨status', w'⟩, hmain, heq⟩ := Option.map_eq_some_iff.mp h
  cases heq
  rcases main_cases hmain with ⟨-, hfs, -⟩ | ⟨d, hauth, hconf, -⟩
  · exact Or.inl hfs
  · exact Or.inr ⟨d, hauth, hconf⟩

/-- A name that stands for neither output file. -/
structure Bystander (fs : FileSystem) (q : CString) : Prop where
  ne_encrypted : q ≠ encryptedName
  ne_decrypted : q ≠ decryptedName
  not_encrypted : ¬ fs.SameFile q encryptedName
  not_decrypted : ¬ fs.SameFile q decryptedName

/-- A run leaves bystanders alone, and they stay bystanders. -/
theorem Bystander.exit {run : Run} {fs fs' : FileSystem} {status : Int} {q : CString}
    (hq : Bystander fs q) (h : run.exit fs = some (status, fs')) :
    Bystander fs' q ∧ fs'.read q = fs.read q := by
  rcases Run.exit_cases h with rfl | ⟨d, hauth, hconf⟩
  · exact ⟨hq, rfl⟩
  · cases hcall : d.call with
    | encrypt_file =>
        rw [hauth.out_of_encrypt hcall] at hconf
        refine ⟨⟨hq.ne_encrypted, hq.ne_decrypted, ?_, ?_⟩, ?_⟩
        · exact hconf.not_sameFile hq.ne_encrypted hq.not_encrypted
        · rw [hconf.sameFile_iff hq.ne_encrypted encryptedName_ne.symm]
          exact hq.not_decrypted
        · exact hconf.read_eq hq.ne_encrypted hq.not_encrypted
    | decrypt_file =>
        rw [hauth.out_of_decrypt hcall] at hconf
        refine ⟨⟨hq.ne_encrypted, hq.ne_decrypted, ?_, ?_⟩, ?_⟩
        · rw [hconf.sameFile_iff hq.ne_decrypted encryptedName_ne]
          exact hq.not_encrypted
        · exact hconf.not_sameFile hq.ne_decrypted hq.not_decrypted
        · exact hconf.read_eq hq.ne_decrypted hq.not_decrypted

theorem Bystander.runAll {q : CString} (runs : List Run) :
    ∀ {fs fs' : FileSystem}, Bystander fs q → Crypto.runAll runs fs = some fs' →
      Bystander fs' q ∧ fs'.read q = fs.read q := by
  induction runs with
  | nil =>
      intro fs fs' hq h
      cases h
      exact ⟨hq, rfl⟩
  | cons run rest ih =>
      intro fs fs' hq h
      obtain ⟨⟨status, fs₁⟩, hrun, hrest⟩ := Option.bind_eq_some_iff.mp h
      obtain ⟨hq₁, hread₁⟩ := hq.exit hrun
      obtain ⟨hq', hread'⟩ := ih hq₁ hrest
      exact ⟨hq', hread'.trans hread₁⟩

/-- Files change only in a sequence with a run that knew the passcode. -/
theorem exists_knows_of_changed (runs : List Run) :
    ∀ {fs fs' : FileSystem}, runAll runs fs = some fs' → fs' ≠ fs → ∃ run ∈ runs, run.Knows := by
  induction runs with
  | nil =>
      intro fs fs' h hne
      cases h
      exact absurd rfl hne
  | cons run rest ih =>
      intro fs fs' h hne
      obtain ⟨⟨status, fs₁⟩, hrun, hrest⟩ := Option.bind_eq_some_iff.mp h
      rcases Run.exit_cases hrun with rfl | ⟨d, hauth, -⟩
      · -- this run changed nothing, so a later one did
        obtain ⟨run', hmem, hknows⟩ := ih hrest hne
        exact ⟨run', List.mem_cons_of_mem run hmem, hknows⟩
      · exact ⟨run, List.mem_cons_self, knows_of_authorized hauth⟩

/-- **THE GATE GUARDS THE FILES.**  Whatever the arguments, the faults and the
memory of the runs: the files but the two outputs are as they were, and if any
file is not, some run had a passcode with the right digest. -/
theorem runs_guarded {runs : List Run} {fs fs' : FileSystem} (h : runAll runs fs = some fs') :
    (∀ q, Bystander fs q → fs'.read q = fs.read q) ∧
      (fs' ≠ fs → ∃ run ∈ runs, run.Knows) :=
  ⟨fun _ hq => (hq.runAll runs h).2, exists_knows_of_changed runs h⟩

/-! ## §3. Encrypting, and decrypting later. -/

/-- Runs that encrypt nothing leave the encrypted file alone. -/
theorem encrypted_kept (runs : List Run) :
    ∀ {fs fs' : FileSystem}, (∀ run ∈ runs, run.NeverEncrypts) →
      ¬ fs.SameFile encryptedName decryptedName → runAll runs fs = some fs' →
      ¬ fs'.SameFile encryptedName decryptedName ∧
        fs'.read encryptedName = fs.read encryptedName := by
  induction runs with
  | nil =>
      intro fs fs' _ hne h
      cases h
      exact ⟨hne, rfl⟩
  | cons run rest ih =>
      intro fs fs' hnever hne h
      obtain ⟨⟨status, fs₁⟩, hrun, hrest⟩ := Option.bind_eq_some_iff.mp h
      have hstep : ¬ fs₁.SameFile encryptedName decryptedName ∧
          fs₁.read encryptedName = fs.read encryptedName := by
        rcases Run.exit_cases hrun with rfl | ⟨d, hauth, hconf⟩
        · exact ⟨hne, rfl⟩
        · rw [hauth.out_of_decrypt (hnever run List.mem_cons_self d hauth)] at hconf
          exact ⟨hconf.not_sameFile encryptedName_ne hne, hconf.read_eq encryptedName_ne hne⟩
      obtain ⟨hne', hread'⟩ := ih (fun r hr => hnever r (List.mem_cons_of_mem run hr))
        hstep.1 hrest
      exact ⟨hne', hread'.trans hstep.2⟩

section roundTrip
variable {run : Run} {d : Dispatch} {fs : FileSystem} {xs : List UInt8}

/-- The run whose call succeeds exits with 0. -/
theorem Run.exit_of_succeeds {out : List UInt8} {n : Nat} (h : Authorized run.ctx run.argv d)
    (hcall : ∀ msg, Succeeds (fun fuel => d.run run.L fuel run.stack ((World.start fs).print msg))
      n d.out_path out)
    (hfuel : n < run.fuel) :
    ∃ fs', run.exit fs = some (0, fs') ∧ fs'.read d.out_path = some out := by
  obtain ⟨msg, hdispatch⟩ := h.dispatch (World.start fs)
  obtain ⟨r, hok, hread, hrun⟩ := hcall msg
  have hr : d.run run.L run.fuel run.stack ((World.start fs).print msg) = some r :=
    hrun run.fuel hfuel
  refine ⟨r.world.fs, ?_, hread⟩
  unfold Run.exit main
  rw [hdispatch]
  simp only [Option.bind_eq_bind, Option.bind_some]
  rw [hr, Option.bind_some, hok]
  rfl

/-- An encryption exits with 0. -/
theorem exit_encrypts (h : Authorized run.ctx run.argv d) (hcall : d.call = .encrypt_file)
    (hL : run.L.Faultless) (hP : fs.read d.in_path = some xs)
    (hne : ¬ fs.SameFile d.in_path encryptedName) (hfuel : blockCount xs.length < run.fuel) :
    ∃ fs' nonce, run.exit fs = some (0, fs') ∧
      fs'.read encryptedName = some (Vector.toList nonce ++ crypt d.key nonce xs) := by
  have hout := h.out_of_encrypt hcall
  have hclean : ∀ msg, CleanCall run.L ((World.start fs).print msg) d.in_path d.out_path xs :=
    fun _ => ⟨hL, hP, by rw [hout]; exact hne⟩
  have hsucc : ∀ msg, Succeeds
      (fun fuel => d.run run.L fuel run.stack ((World.start fs).print msg))
      (blockCount xs.length) d.out_path
      ((drawnNonce run.L (World.start fs)).toList
        ++ crypt d.key (drawnNonce run.L (World.start fs)) xs) := by
    intro msg
    unfold Dispatch.run
    rw [hcall]
    exact encrypt_succeeds run.stack d.key (hclean msg)
  obtain ⟨fs', hexit, hread⟩ := Run.exit_of_succeeds h hsucc hfuel
  rw [hout] at hread
  exact ⟨fs', _, hexit, hread⟩

/-- A decryption of what an encryption wrote exits with 0, under any key. -/
theorem exit_decrypts {nonce : Vector UInt8 12} {body : List UInt8}
    (h : Authorized run.ctx run.argv d) (hcall : d.call = .decrypt_file)
    (hL : run.L.Faultless) (hF : fs.read d.in_path = some (nonce.toList ++ body))
    (hne : ¬ fs.SameFile d.in_path decryptedName) (hfuel : blockCount body.length < run.fuel) :
    ∃ fs', run.exit fs = some (0, fs') ∧
      fs'.read decryptedName = some (crypt d.key nonce body) := by
  have hout := h.out_of_decrypt hcall
  have hlen : nonce.toList.length = NONCE_SIZE := Vector.length_toList
  have hclean : ∀ msg, CleanCall run.L ((World.start fs).print msg) d.in_path d.out_path
      (nonce.toList ++ body) :=
    fun _ => ⟨hL, hF, by rw [hout]; exact hne⟩
  have hbody : (nonce.toList ++ body).length - NONCE_SIZE = body.length := by
    rw [List.length_append, hlen]
    exact Nat.add_sub_cancel_left _ _
  have hsucc : ∀ msg, Succeeds
      (fun fuel => d.run run.L fuel run.stack ((World.start fs).print msg))
      (blockCount body.length) d.out_path (crypt d.key nonce body) := by
    intro msg
    have hdec := decrypt_succeeds run.stack d.key (hclean msg)
      (by rw [List.length_append, hlen]; exact Nat.le_add_right _ _)
    rw [headerNonce_append, List.drop_left' hlen, hbody] at hdec
    unfold Dispatch.run
    rw [hcall]
    exact hdec
  obtain ⟨fs', hexit, hread⟩ := Run.exit_of_succeeds h hsucc hfuel
  rw [hout] at hread
  exact ⟨fs', hexit, hread⟩

/-- **WHAT ONE RUN ENCRYPTED, A LATER RUN DECRYPTS**: between the two any runs
may fail, meet faults or decrypt something, but not encrypt.  Under the same
derived key the plaintext is back, under another one the exit status is still
0; the files of others are as they were. -/
theorem session_round_trip {first last : Run} {d d' : Dispatch}
    (h : Authorized first.ctx first.argv d) (hcall : d.call = .encrypt_file)
    (h' : Authorized last.ctx last.argv d') (hcall' : d'.call = .decrypt_file)
    (hin : d'.in_path = encryptedName)
    (hL : first.L.Faultless) (hL' : last.L.Faultless) (hP : fs.read d.in_path = some xs)
    (hne : ¬ fs.SameFile d.in_path encryptedName)
    (hne' : ¬ fs.SameFile encryptedName decryptedName)
    (hfuel : blockCount xs.length < first.fuel) (hfuel' : blockCount xs.length < last.fuel) :
    ∃ fs₁, first.exit fs = some (0, fs₁) ∧
      ∀ (between : List Run) (fs₂ : FileSystem), (∀ run ∈ between, run.NeverEncrypts) →
        runAll between fs₁ = some fs₂ →
        ∃ fs₃, last.exit fs₂ = some (0, fs₃) ∧
          (∃ nonce, fs₃.read decryptedName
            = some (crypt d'.key nonce (crypt d.key nonce xs))) ∧
          (d'.key = d.key → fs₃.read decryptedName = some xs) ∧
          (∀ q, Bystander fs q → fs₃.read q = fs.read q) := by
  obtain ⟨fs₁, nonce, hexit, hread⟩ := exit_encrypts h hcall hL hP hne hfuel
  refine ⟨fs₁, hexit, ?_⟩
  intro between fs₂ hnever hbetween
  -- the outputs are still two files
  have hne₁ : ¬ fs₁.SameFile encryptedName decryptedName := by
    rcases Run.exit_cases hexit with rfl | ⟨e, hauth, hconf⟩
    · exact hne'
    · cases hcalle : e.call with
      | encrypt_file =>
          rw [hauth.out_of_encrypt hcalle] at hconf
          have hflip := hconf.not_sameFile encryptedName_ne.symm
            (fun hc => hne' (hc.imp fun _ hi => ⟨hi.2, hi.1⟩))
          exact fun hc => hflip (hc.imp fun _ hi => ⟨hi.2, hi.1⟩)
      | decrypt_file =>
          rw [hauth.out_of_decrypt hcalle] at hconf
          exact hconf.not_sameFile encryptedName_ne hne'
  obtain ⟨hne₂, hkept⟩ := encrypted_kept between hnever hne₁ hbetween
  have hfile : fs₂.read d'.in_path = some (nonce.toList ++ crypt d.key nonce xs) := by
    rw [hin, hkept]
    exact hread
  obtain ⟨fs₃, hexit', hread'⟩ := exit_decrypts h' hcall' hL' hfile (by rw [hin]; exact hne₂)
    (by rw [length_crypt]; exact hfuel')
  refine ⟨fs₃, hexit', ⟨nonce, hread'⟩, ?_, ?_⟩
  · intro hkey
    rw [hread', hkey, crypt_crypt]
  · intro q hq
    obtain ⟨hq₁, h₁⟩ := hq.exit hexit
    obtain ⟨hq₂, h₂⟩ := hq₁.runAll between hbetween
    exact ((hq₂.exit hexit').2.trans h₂).trans h₁

end roundTrip

/-! ## §4. What the `test` target of the Makefile does. -/

/-- The arguments of `./file_crypt Cyber1234 input longenough action`. -/
def testArgs (input action : String) : List (List UInt8) :=
  [str "file_crypt" ++ [0], str "Cyber1234" ++ [0], str input ++ [0], str "longenough" ++ [0],
    str action ++ [0]]

/-- The run with these arguments, without I/O errors. -/
def testRun (input action : String) : Run where
  L := Libc.plain fun _ => none
  fuel := 2
  stack := Stack.clear
  ctx := blankCtx
  argv := testArgs input action

/-- The file of the test. -/
def testFiles : FileSystem := FileSystem.single (str "plain.txt") [1, 2, 3]

theorem testKey_long : MIN_KEY_CHARS ≤ strlen (str "longenough" ++ [0]) := by
  decide +kernel

theorem testRun_encrypts : ∃ d, Authorized blankCtx (testArgs "plain.txt" "0") d ∧
    d.call = .encrypt_file ∧ d.in_path = str "plain.txt" ∧
    derive_key (str "longenough" ++ [0]) = some d.key := by
  obtain ⟨key, hkey⟩ := derive_key_isSome testKey_long
  refine ⟨⟨.encrypt_file, key, str "plain.txt", encryptedName⟩, ?_, rfl, rfl, hkey⟩
  exact ⟨_, _, _, _, _, rfl, verify_passcode_passcode blankCtx [], testKey_long, hkey,
    show str "plain.txt" = cString (str "plain.txt" ++ [0]) by decide +kernel,
    Or.inl ⟨by decide +kernel, rfl, rfl⟩⟩

theorem testRun_decrypts : ∃ d, Authorized blankCtx (testArgs "encrypted_output.dat" "1") d ∧
    d.call = .decrypt_file ∧ d.in_path = encryptedName ∧
    derive_key (str "longenough" ++ [0]) = some d.key := by
  obtain ⟨key, hkey⟩ := derive_key_isSome testKey_long
  refine ⟨⟨.decrypt_file, key, encryptedName, decryptedName⟩, ?_, rfl, rfl, hkey⟩
  exact ⟨_, _, _, _, _, rfl, verify_passcode_passcode blankCtx [], testKey_long, hkey,
    show encryptedName = cString (str "encrypted_output.dat" ++ [0]) by decide +kernel,
    Or.inr ⟨by decide +kernel, rfl, rfl⟩⟩

theorem testFiles_apart {p q : CString} (h : q ≠ str "plain.txt") : ¬ testFiles.SameFile p q :=
  FileSystem.single_not_sameFile [1, 2, 3] h

theorem runs_guarded_test :
    ∃ fs', runAll [testRun "plain.txt" "0"] testFiles = some fs' ∧
      (∀ q, Bystander testFiles q → fs'.read q = testFiles.read q) ∧
      (fs' ≠ testFiles → ∃ run ∈ [testRun "plain.txt" "0"], run.Knows) := by
  obtain ⟨d, hauth, hcall, hin, -⟩ := testRun_encrypts
  obtain ⟨fs', nonce, hexit, -⟩ := @exit_encrypts (testRun "plain.txt" "0") d testFiles [1, 2, 3]
    hauth hcall Libc.plain_faultless (by rw [hin]; exact FileSystem.single_read _ _)
    (testFiles_apart (by decide +kernel)) (by decide)
  have hrun : runAll [testRun "plain.txt" "0"] testFiles = some fs' := by
    unfold runAll
    rw [hexit]
    rfl
  exact ⟨fs', hrun, runs_guarded hrun⟩

theorem session_round_trip_test :
    ∃ fs₁, (testRun "plain.txt" "0").exit testFiles = some (0, fs₁) ∧
      ∀ (between : List Run) (fs₂ : FileSystem), (∀ run ∈ between, run.NeverEncrypts) →
        runAll between fs₁ = some fs₂ →
        ∃ fs₃, (testRun "encrypted_output.dat" "1").exit fs₂ = some (0, fs₃) ∧
          fs₃.read decryptedName = some [1, 2, 3] := by
  obtain ⟨d, hauth, hcall, hin, hkey⟩ := testRun_encrypts
  obtain ⟨d', hauth', hcall', hin', hkey'⟩ := testRun_decrypts
  obtain ⟨fs₁, hexit, hlater⟩ := @session_round_trip testFiles [1, 2, 3]
    (testRun "plain.txt" "0") (testRun "encrypted_output.dat" "1") d d' hauth hcall hauth' hcall'
    hin' Libc.plain_faultless Libc.plain_faultless
    (by rw [hin]; exact FileSystem.single_read (str "plain.txt") [1, 2, 3])
    (testFiles_apart (by decide +kernel)) (testFiles_apart (by decide +kernel)) (by decide)
    (by decide)
  refine ⟨fs₁, hexit, ?_⟩
  intro between fs₂ hnever hbetween
  obtain ⟨fs₃, hexit', -, hback, -⟩ := hlater between fs₂ hnever hbetween
  refine ⟨fs₃, hexit', hback ?_⟩
  -- both runs were given the same encryption key
  rw [hkey] at hkey'
  exact (Option.some_inj.mp hkey').symm

end ConcurrencyCrypto.Crypto
