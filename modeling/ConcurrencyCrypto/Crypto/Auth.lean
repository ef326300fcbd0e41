/-
  ConcurrencyCrypto.Crypto.Auth
  ─────────────────────────────
  `auth.c`: the login gate.  It stores the passcode as 32 digest bytes,
  hashes what the user typed and compares without an early exit.

  **THE GATE ACCEPTS A STRING EXACTLY IF ITS FIPS DIGEST IS THAT OF THE
  PASSCODE** (`verify_passcode_iff`): the hash is the standard one, the
  comparison is zero only on equality, and the copied constant really is the
  digest of "Cyber1234".
-/
import ConcurrencyCrypto.Crypto.Sha256Stream
import ConcurrencyCrypto.Library.Stdio

namespace ConcurrencyCrypto.Crypto

open ConcurrencyCrypto.Library

/-! ## §1. The code. -/

/-- `PASSCODE_DIGEST`. -/
def PASSCODE_DIGEST : Vector UInt8 32 := #v[
    0x99, 0x4e, 0x11, 0xa8, 0x5e, 0x9a, 0x40, 0x17,
    0x1f, 0xe0, 0xc7, 0x45, 0xb0, 0x3b, 0xf4, 0xca,
    0x62, 0xe4, 0x93, 0xc1, 0x4d, 0xc4, 0x56, 0x81,
    0xa6, 0x65, 0xe4, 0xda, 0xa8, 0xdb, 0x55, 0x5b]

/-- `ct_memcmp(a, b, len)`. -/
def ct_memcmp {len : Nat} (a b : Vector UInt8 len) : UInt8 :=
  Nat.fold len (fun i hi diff => diff ||| (a.get ⟨i, hi⟩ ^^^ b.get ⟨i, hi⟩)) 0

/-- `strlen` of the string that starts the memory. -/
def strlen (mem : List UInt8) : Nat := (mem.takeWhile (· != 0)).length

/-- `verify_passcode(candidate)`; `candidate` is the memory from the pointer
on, `c` what the stack holds where the hash context is allocated. -/
def verify_passcode (c : Sha256Ctx) (candidate : List UInt8) : Option Int := do
  let digest ← sha256 c (candidate.take (strlen candidate))
  pure (if ct_memcmp digest PASSCODE_DIGEST = 0 then 1 else 0)

/-! ## §2. Its parts. -/

/-- **The comparison is zero exactly on equality.** -/
theorem ct_memcmp_eq_zero_iff {len : Nat} (a b : Vector UInt8 len) :
    ct_memcmp a b = 0 ↔ a = b := by
  -- the difference collected so far is zero while all bytes agreed
  have hfold : ct_memcmp a b = 0 ↔ ∀ i (hi : i < len), i < len → a[i] = b[i] := by
    refine fold_invariant
      (fun n (diff : UInt8) => diff = 0 ↔ ∀ i (hi : i < len), i < n → a[i] = b[i])
      len _ 0 ?_ ?_
    · exact ⟨fun _ i _ hi => absurd hi (Nat.not_lt_zero i), fun _ => rfl⟩
    · intro n hn diff ih
      rw [UInt8.or_eq_zero_iff, UInt8.xor_eq_zero_iff, ih]
      constructor
      · rintro ⟨hlt, hn⟩ i hi hin
        rcases Nat.lt_succ_iff_lt_or_eq.mp hin with h | rfl
        · exact hlt i hi h
        · exact hn
      · intro h
        exact ⟨fun i hi hin => h i hi (Nat.lt_succ_of_lt hin), h n hn (Nat.lt_succ_self n)⟩
  rw [hfold]
  constructor
  · exact fun h => Vector.ext fun i hi => h i hi hi
  · intro h i hi _
    rw [h]

/-- Up to its terminating NUL. -/
theorem take_strlen {s : List UInt8} (h0 : 0 ∉ s) (rest : List UInt8) :
    (s ++ 0 :: rest).take (strlen (s ++ 0 :: rest)) = s := by
  have hs : ∀ x ∈ s, (x != 0) = true := fun x hx => by
    have hne : x ≠ 0 := fun hc => h0 (hc ▸ hx)
    simpa using hne
  have hlen : strlen (s ++ 0 :: rest) = s.length := by
    unfold strlen
    rw [List.takeWhile_append_of_pos hs, List.takeWhile_cons_of_neg (by simp),
      List.append_nil]
  rw [hlen, List.take_left]

/-- The passcode. -/
def passcode : CString := str "Cyber1234"

/-- Its one padded block. -/
def passcodeBlock : Vector UInt8 64 := Vector.ofFn fun i =>
  (Fips180.pad passcode).getD i.val 0

/-- **The copied constant is the digest of the passcode.** -/
theorem digest_passcode : Fips180.digest passcode = PASSCODE_DIGEST.toList := by
  have hblocks : blocks 64 (Fips180.pad passcode) = [passcodeBlock.toList] := by
    decide +kernel
  have hcompress : serializeState (sha256_transform (sha256_init blankCtx) passcodeBlock).state
      = PASSCODE_DIGEST := by
    decide +kernel
  rw [← hcompress, serializeState_eq, words_transform, words_init, Fips180.digest, hblocks]
  rfl

/-! ## §3. The gate. -/

/-- Two messages with one digest. -/
def Fips180.Collision (m m' : List UInt8) : Prop := m ≠ m' ∧ digest m = digest m'

/-- The result is 1 or 0, and 1 exactly on the passcode's digest. -/
theorem verify_passcode_digest (c : Sha256Ctx) (candidate rest : List UInt8)
    (h0 : 0 ∉ candidate) (hlen : candidate.length < 2 ^ 61) :
    ∃ ok, verify_passcode c (candidate ++ 0 :: rest) = some ok ∧ (ok = 1 ∨ ok = 0) ∧
      (ok = 1 ↔ Fips180.digest candidate = Fips180.digest (str "Cyber1234")) := by
  obtain ⟨out, hsha, hout⟩ := sha256_eq_digest c candidate hlen
  have hiff : ct_memcmp out PASSCODE_DIGEST = 0
      ↔ Fips180.digest candidate = Fips180.digest (str "Cyber1234") := by
    rw [ct_memcmp_eq_zero_iff, ← hout, show Fips180.digest (str "Cyber1234")
      = PASSCODE_DIGEST.toList from digest_passcode, Vector.toList_inj]
  refine ⟨if ct_memcmp out PASSCODE_DIGEST = 0 then 1 else 0, ?_, ?_, ?_⟩
  · unfold verify_passcode
    simp only [Option.bind_eq_bind]
    rw [take_strlen h0, hsha]
    rfl
  · split
    · exact Or.inl rfl
    · exact Or.inr rfl
  · rw [← hiff]
    split
    next h => exact ⟨fun _ => h, fun _ => rfl⟩
    next h => exact ⟨nofun, fun hc => absurd hc h⟩

/-- **THE LOGIN GATE.**  For every NUL-free candidate below 2^61 bytes the
result is 1 or 0, and it is 1 exactly if the candidate has the FIPS digest of
the passcode: the passcode itself is accepted, and whatever else is accepted
is a SHA-256 collision with it. -/
theorem verify_passcode_iff (c : Sha256Ctx) (candidate rest : List UInt8)
    (h0 : 0 ∉ candidate) (hlen : candidate.length < 2 ^ 61) :
    ∃ ok, verify_passcode c (candidate ++ 0 :: rest) = some ok ∧ (ok = 1 ∨ ok = 0) ∧
      (ok = 1 ↔ Fips180.digest candidate = Fips180.digest (str "Cyber1234")) ∧
      (candidate = str "Cyber1234" → ok = 1) ∧
      (ok = 1 → candidate ≠ str "Cyber1234" →
        Fips180.Collision candidate (str "Cyber1234")) := by
  obtain ⟨ok, hok, hrange, hone⟩ := verify_passcode_digest c candidate rest h0 hlen
  refine ⟨ok, hok, hrange, hone, ?_, ?_⟩
  · intro hsame
    rw [hone, hsame]
  · exact fun hok hne => ⟨hne, hone.mp hok⟩

/-- The passcode, with other bytes behind its NUL. -/
theorem verify_passcode_iff_passcode :
    ∃ ok, verify_passcode blankCtx (str "Cyber1234" ++ 0 :: [7, 7]) = some ok ∧
      (ok = 1 ∨ ok = 0) ∧
      (ok = 1 ↔ Fips180.digest (str "Cyber1234") = Fips180.digest (str "Cyber1234")) ∧
      (str "Cyber1234" = str "Cyber1234" → ok = 1) ∧
      (ok = 1 → str "Cyber1234" ≠ str "Cyber1234" →
        Fips180.Collision (str "Cyber1234") (str "Cyber1234")) :=
  verify_passcode_iff blankCtx (str "Cyber1234") [7, 7] (by decide) (by decide)

end ConcurrencyCrypto.Crypto
