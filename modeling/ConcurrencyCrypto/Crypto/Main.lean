/-
  ConcurrencyCrypto.Crypto.Main
  ─────────────────────────────
  `main.c`: the command line of `file_crypt`, its checks, and the dispatch.

  **WHICH ACTION FLAGS ARE TAKEN** (`strict_flag_iff`): the flag is read with
  `atoi`, which has no error result, so texts without a number are 0, and
  numbers count modulo 2^32.  The usage text promises `<0|1>`.
-/
import ConcurrencyCrypto.Crypto.FileIo
import ConcurrencyCrypto.Crypto.KeyDerivation
import ConcurrencyCrypto.Library.Text

namespace ConcurrencyCrypto.Crypto

open ConcurrencyCrypto.Library

/-! ## §1. The code. -/

/-- `usage(prog)`. -/
def usage (prog : CString) : CString :=
  str "Usage: " ++ prog ++ str " <login_passcode> <input_file> <encryption_key> <0|1>\n"
    ++ str "  0 = encrypt  ->  encrypted_output.dat\n"
    ++ str "  1 = decrypt  ->  decrypted_output.dat\n"
    ++ str "  <encryption_key> must be at least " ++ str (toString MIN_KEY_CHARS)
    ++ str " ASCII characters.\n"

/-- The two functions `main` can call. -/
inductive FileCall where
  | encrypt_file
  | decrypt_file
  deriving DecidableEq

/-- A call with its arguments. -/
structure Dispatch where
  call : FileCall
  key : Vector UInt8 32
  in_path : CString
  out_path : CString

/-- `main` up to the call: the call it makes, or `none` where it returns 1.
An argument is the memory from its pointer on.  The whole is `none` where
the code's behaviour is undefined. -/
def main_dispatch (c : Sha256Ctx) (argv : List (List UInt8)) (w : World) :
    Option (Option Dispatch × World) :=
  match argv with
  | [_, login_passcode, input_path, encryption_key, action] =>
      let action_flag := atoi (cString action)
      if strlen encryption_key < MIN_KEY_CHARS then
        some (none, w.print (str "encryption key must be at least "
          ++ str (toString MIN_KEY_CHARS) ++ str " characters\n"))
      else if action_flag ≠ 0 ∧ action_flag ≠ 1 then
        some (none, w.print (str "action flag must be 0 (encrypt) or 1 (decrypt)\n"))
      else do
        let ok ← verify_passcode c login_passcode
        if ok = 0 then
          some (none, w.print (str "Incorrect passcode. Access denied.\n"))
        else
          let key ← derive_key encryption_key
          let in_path := cString input_path
          if action_flag = 0 then
            let out_path := str "encrypted_output.dat"
            some (some ⟨.encrypt_file, key, in_path, out_path⟩,
              w.print (str "Encrypting " ++ in_path ++ str " -> " ++ out_path ++ str "\n"))
          else
            let out_path := str "decrypted_output.dat"
            some (some ⟨.decrypt_file, key, in_path, out_path⟩,
              w.print (str "Decrypting " ++ in_path ++ str " -> " ++ out_path ++ str "\n"))
  | [] => some (none, w.print (usage (str "(null)")))
  | prog :: _ => some (none, w.print (usage (cString prog)))

/-- The call made. -/
def Dispatch.run (L : Libc) (fuel : Nat) (st : Stack) (d : Dispatch) (w : World) :
    Option FileResult :=
  match d.call with
  | .encrypt_file => Crypto.encrypt_file L fuel st d.key d.in_path d.out_path w
  | .decrypt_file => Crypto.decrypt_file L fuel st d.key d.in_path d.out_path w

/-- `main(argc, argv)`: the exit status and the world; `none` also when the
call has not returned within `fuel` iterations. -/
def main (L : Libc) (fuel : Nat) (st : Stack) (c : Sha256Ctx) (argv : List (List UInt8))
    (w : World) : Option (Int × World) := do
  let (dispatch, w) ← main_dispatch c argv w
  match dispatch with
  | none => some (1, w)
  | some d =>
      let r ← d.run L fuel st w
      some (if r.ok ≠ 0 then 0 else 1, r.world)

/-! ## §2. The checks. -/

/-- The flag is refused: `atoi` gives neither 0 nor 1. -/
def FlagRefused (action : CString) : Prop :=
  2 ^ 63 ≤ leadingNumber 10 action ∨
    -2 ^ 63 ≤ leadingNumber 10 action ∧
      leadingNumber 10 action % 2 ^ 32 ≠ 0 ∧ leadingNumber 10 action % 2 ^ 32 ≠ 1

section checks
variable {c : Sha256Ctx} (prog : List UInt8) {login_passcode : List UInt8}
  (input_path : List UInt8) {encryption_key action : List UInt8} (w : World)

theorem derive_key_isSome {encryption_key : List UInt8}
    (hkey : MIN_KEY_CHARS ≤ strlen encryption_key) :
    ∃ key, derive_key encryption_key = some key := by
  unfold derive_key
  dsimp only
  rw [if_neg]
  · exact ⟨_, rfl⟩
  · intro h
    rw [h] at hkey
    exact absurd hkey (by decide)

theorem main_dispatch_refused (hkey : MIN_KEY_CHARS ≤ strlen encryption_key)
    (h : FlagRefused (cString action)) :
    main_dispatch c [prog, login_passcode, input_path, encryption_key, action] w
      = some (none, w.print (str "action flag must be 0 (encrypt) or 1 (decrypt)\n")) := by
  unfold main_dispatch
  dsimp only
  rw [if_neg (Nat.not_lt.mpr hkey), if_pos ((atoi_ne_zero_one_iff _).mpr h)]

/-- **A flag that is not refused leads to a call**, which `atoi` selects. -/
theorem main_dispatch_accepted {ok : Int} (hpass : verify_passcode c login_passcode = some ok)
    (hok : ok ≠ 0) (hkey : MIN_KEY_CHARS ≤ strlen encryption_key)
    (h : ¬ FlagRefused (cString action)) :
    ∃ d w', main_dispatch c [prog, login_passcode, input_path, encryption_key, action] w
        = some (some d, w') ∧
      (d.call = .encrypt_file ↔ atoi (cString action) = 0) ∧
      (d.call = .decrypt_file ↔ atoi (cString action) = 1) := by
  have hflag : atoi (cString action) = 0 ∨ atoi (cString action) = 1 := by
    have hnot := fun hc => h ((atoi_ne_zero_one_iff _).mp hc)
    tauto
  obtain ⟨key, hderive⟩ := derive_key_isSome hkey
  unfold main_dispatch
  dsimp only
  rw [if_neg (Nat.not_lt.mpr hkey), if_neg (by tauto), hpass, hderive]
  simp only [Option.bind_eq_bind, Option.bind_some]
  rw [if_neg hok]
  rcases hflag with h0 | h1
  · rw [if_pos h0, h0]
    exact ⟨_, _, rfl, by simp, by simp⟩
  · rw [if_neg (by omega), h1]
    exact ⟨_, _, rfl, by simp, by simp⟩

end checks

/-! ## §3. The action flag. -/

/-- The flag `action` is parsed strictly: a call is made only for its own
text, and every other text exits with status 1, no library call made. -/
structure StrictFlag (c : Sha256Ctx) (argv : List (List UInt8)) (action : CString)
    (w : World) : Prop where
  encrypts : ∀ d w', main_dispatch c argv w = some (some d, w') →
    d.call = .encrypt_file → action = str "0"
  decrypts : ∀ d w', main_dispatch c argv w = some (some d, w') →
    d.call = .decrypt_file → action = str "1"
  refuses : action ≠ str "0" → action ≠ str "1" →
    ∀ (L : Libc) (fuel : Nat) (st : Stack), ∃ w', main L fuel st c argv w = some (1, w') ∧
      w'.fs = w.fs ∧ w'.calls = w.calls

/-- **THE FLAG IS PARSED STRICTLY EXACTLY** on the texts "0" and "1" and on
those `atoi` maps to another number. -/
theorem strict_flag_iff (c : Sha256Ctx)
    (prog login_passcode input_path encryption_key action : List UInt8) (w : World)
    (hpass : ∃ ok, verify_passcode c login_passcode = some ok ∧ ok ≠ 0)
    (hkey : MIN_KEY_CHARS ≤ strlen encryption_key) :
    StrictFlag c [prog, login_passcode, input_path, encryption_key, action]
        (cString action) w
      ↔ cString action = str "0" ∨ cString action = str "1" ∨
          2 ^ 63 ≤ leadingNumber 10 (cString action) ∨
          -2 ^ 63 ≤ leadingNumber 10 (cString action) ∧
            leadingNumber 10 (cString action) % 2 ^ 32 ≠ 0 ∧
            leadingNumber 10 (cString action) % 2 ^ 32 ≠ 1 := by
  obtain ⟨ok, hverify, hok⟩ := hpass
  constructor
  · intro h
    by_cases hrefused : FlagRefused (cString action)
    · exact Or.inr (Or.inr hrefused)
    · -- a call is made, so the text is that call's
      obtain ⟨d, w', hd, -, -⟩ :=
        main_dispatch_accepted prog input_path w hverify hok hkey hrefused
      cases hcall : d.call with
      | encrypt_file => exact Or.inl (h.encrypts d w' hd hcall)
      | decrypt_file => exact Or.inr (Or.inl (h.decrypts d w' hd hcall))
  · -- a text `atoi` maps to 0 or 1 leads to one call only
    have hcalls : ∀ d w', main_dispatch c
          [prog, login_passcode, input_path, encryption_key, action] w = some (some d, w') →
        ¬ FlagRefused (cString action) ∧
          (d.call = .encrypt_file → atoi (cString action) = 0) ∧
          (d.call = .decrypt_file → atoi (cString action) = 1) := by
      intro d w' hd
      by_cases hrefused : FlagRefused (cString action)
      · rw [main_dispatch_refused prog input_path w hkey hrefused] at hd
        cases hd
      · obtain ⟨d₀, w₀, hd₀, henc, hdec⟩ :=
          main_dispatch_accepted prog input_path w hverify hok hkey hrefused
        rw [hd₀] at hd
        cases hd
        exact ⟨hrefused, henc.mp, hdec.mp⟩
    intro h
    rcases h with h0 | h1 | hrefused
    · refine ⟨fun _ _ _ _ => h0, ?_, fun hne => absurd h0 hne⟩
      intro d w' hd hcall
      have hone := (hcalls d w' hd).2.2 hcall
      rw [h0] at hone
      exact absurd hone (by decide)
    · refine ⟨?_, fun _ _ _ _ => h1, fun _ hne => absurd h1 hne⟩
      intro d w' hd hcall
      have hzero := (hcalls d w' hd).2.1 hcall
      rw [h1] at hzero
      exact absurd hzero (by decide)
    · refine ⟨fun d w' hd _ => absurd hrefused (hcalls d w' hd).1,
        fun d w' hd _ => absurd hrefused (hcalls d w' hd).1, ?_⟩
      intro _ _ L fuel st
      refine ⟨w.print (str "action flag must be 0 (encrypt) or 1 (decrypt)\n"), ?_, rfl, rfl⟩
      unfold main
      rw [main_dispatch_refused prog input_path w hkey hrefused]
      rfl

/-! ## §4. Malformed flags. -/

/-- The passcode passes. -/
theorem verify_passcode_passcode (c : Sha256Ctx) (rest : List UInt8) :
    ∃ ok, verify_passcode c (str "Cyber1234" ++ 0 :: rest) = some ok ∧ ok ≠ 0 := by
  obtain ⟨ok, hok, -, hone⟩ :=
    verify_passcode_digest c (str "Cyber1234") rest (by decide) (by decide)
  refine ⟨ok, hok, ?_⟩
  rw [hone.mpr rfl]
  decide

/-- The flag "2" is refused. -/
theorem strict_flag_iff_two :
    StrictFlag blankCtx [str "file_crypt" ++ [0], str "Cyber1234" ++ [0], str "plain.txt" ++ [0],
      str "longenough" ++ [0], str "2" ++ [0]] (cString (str "2" ++ [0]))
      (World.start (FileSystem.single (str "plain.txt") [1, 2, 3])) :=
  (strict_flag_iff blankCtx _ _ _ _ (str "2" ++ [0]) _ (verify_passcode_passcode blankCtx [])
    (by decide)).mpr (by decide)

/-- **A FLAG WITHOUT A NUMBER ENCRYPTS**: `abc` in the place of `<0|1>`. -/
theorem abc_encrypts :
    ¬ StrictFlag blankCtx [str "file_crypt" ++ [0], str "Cyber1234" ++ [0], str "plain.txt" ++ [0],
      str "longenough" ++ [0], str "abc" ++ [0]] (cString (str "abc" ++ [0]))
      (World.start (FileSystem.single (str "plain.txt") [1, 2, 3])) := by
  intro h
  obtain ⟨ok, hverify, hok⟩ := verify_passcode_passcode blankCtx []
  obtain ⟨d, w', hd, henc, -⟩ := main_dispatch_accepted (str "file_crypt" ++ [0])
    (str "plain.txt" ++ [0]) (World.start (FileSystem.single (str "plain.txt") [1, 2, 3]))
    hverify hok (show MIN_KEY_CHARS ≤ strlen (str "longenough" ++ [0]) by decide)
    (show ¬ FlagRefused (cString (str "abc" ++ [0])) by unfold FlagRefused; decide)
  exact absurd (h.encrypts d w' hd (henc.mpr (by decide))) (by decide)

end ConcurrencyCrypto.Crypto
