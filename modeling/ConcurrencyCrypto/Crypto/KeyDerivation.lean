/-
  ConcurrencyCrypto.Crypto.KeyDerivation
  ──────────────────────────────────────
  `derive_key` of `file_io.c`: the 32 key bytes are the encryption key, read
  round and round.

  **WHICH ENCRYPTION KEYS OPEN THE SAME FILE** (`derive_key_eq_iff`): those
  that are repetitions of one word, of whatever length.  Between keys that
  are short enough for the periodicity lemma there are no others.
-/
import ConcurrencyCrypto.Crypto.Auth
import ConcurrencyCrypto.Library.Repetition

namespace ConcurrencyCrypto.Crypto

open ConcurrencyCrypto.Library

/-! ## §1. The code. -/

/-- `derive_key(ascii_key, key)`; `ascii_key` is the memory from the pointer
on.  On the empty string `i % n` divides by zero.  Every byte of `key` is
written. -/
def derive_key (ascii_key : List UInt8) : Option (Vector UInt8 32) :=
  let n := strlen ascii_key
  if n = 0 then none
  else some (Nat.fold 32 (fun i hi key => key.set i (ascii_key.getD (i % n) 0) hi)
    (Vector.replicate 32 0))

/-- An encryption key `main` accepts, without its NUL. -/
structure AsciiKey where
  chars : CString
  nul_free : 0 ∉ chars
  long : MIN_KEY_CHARS ≤ chars.length

/-! ## §2. What it computes. -/

theorem strlen_cString {s : List UInt8} (h0 : 0 ∉ s) (rest : List UInt8) :
    strlen (s ++ 0 :: rest) = s.length := by
  have h := congrArg List.length (take_strlen h0 rest)
  rw [List.length_take] at h
  have hle : strlen (s ++ 0 :: rest) ≤ (s ++ 0 :: rest).length :=
    (List.takeWhile_prefix _).length_le
  omega

theorem AsciiKey.length_pos (a : AsciiKey) : 0 < a.chars.length :=
  Nat.lt_of_lt_of_le (by decide) a.long

/-- **Byte `i` of the key is item `i` of the cyclic reading.** -/
theorem derive_key_cyclic (a : AsciiKey) (rest : List UInt8) :
    ∃ key, derive_key (a.chars ++ 0 :: rest) = some key ∧
      ∀ i, i < 32 → key.toList[i]? = cyclic a.chars i := by
  have hpos := a.length_pos
  unfold derive_key
  rw [strlen_cString a.nul_free]
  dsimp only
  rw [if_neg (by omega)]
  refine ⟨_, rfl, ?_⟩
  intro i hi
  have hmod : i % a.chars.length < a.chars.length := Nat.mod_lt i hpos
  have hget := fold_set 32 (Nat.le_refl 32)
    (fun i _ => (a.chars ++ 0 :: rest).getD (i % a.chars.length) 0) (Vector.replicate 32 0) i hi
  rw [dif_pos hi] at hget
  rw [List.getElem?_eq_getElem (by simpa using hi), Vector.getElem_toList, hget,
    List.getD_append _ _ _ _ hmod, List.getD_eq_getElem _ _ hmod, cyclic,
    List.getElem?_eq_getElem hmod]

/-- Keys are equal if their readings agree on 32 places. -/
theorem derive_key_eq_iff_agree (a b : AsciiKey) (rest rest' : List UInt8) :
    derive_key (a.chars ++ 0 :: rest) = derive_key (b.chars ++ 0 :: rest')
      ↔ ∀ i < 32, cyclic a.chars i = cyclic b.chars i := by
  obtain ⟨ka, hka, ha⟩ := derive_key_cyclic a rest
  obtain ⟨kb, hkb, hb⟩ := derive_key_cyclic b rest'
  rw [hka, hkb, Option.some_inj]
  constructor
  · intro hkey i hi
    rw [← ha i hi, ← hb i hi, hkey]
  · intro hagree
    apply Vector.toList_inj.mp
    apply List.ext_getElem?
    intro i
    by_cases hi : i < 32
    · rw [ha i hi, hb i hi, hagree i hi]
    · rw [List.getElem?_eq_none (by simpa using hi), List.getElem?_eq_none (by simpa using hi)]

/-! ## §3. Which keys are one. -/

/-- **EQUAL KEYS ARE REPETITIONS OF ONE WORD.**  Both calls of `derive_key`
return; keys with a common root give one result, at any length; and where
`|a| + |b| ≤ 32 + gcd(|a|, |b|)` only they do. -/
theorem derive_key_eq_iff (a b : AsciiKey) (rest rest' : List UInt8) :
    (∃ ka kb, derive_key (a.chars ++ 0 :: rest) = some ka ∧
      derive_key (b.chars ++ 0 :: rest') = some kb) ∧
    (CommonRoot a.chars b.chars →
      derive_key (a.chars ++ 0 :: rest) = derive_key (b.chars ++ 0 :: rest')) ∧
    (a.chars.length + b.chars.length ≤ 32 + Nat.gcd a.chars.length b.chars.length →
      (derive_key (a.chars ++ 0 :: rest) = derive_key (b.chars ++ 0 :: rest')
        ↔ CommonRoot a.chars b.chars)) := by
  have hroot : CommonRoot a.chars b.chars →
      derive_key (a.chars ++ 0 :: rest) = derive_key (b.chars ++ 0 :: rest') := by
    intro h
    rw [derive_key_eq_iff_agree]
    exact fun i _ => h.cyclic_eq i
  refine ⟨?_, hroot, ?_⟩
  · obtain ⟨ka, hka, -⟩ := derive_key_cyclic a rest
    obtain ⟨kb, hkb, -⟩ := derive_key_cyclic b rest'
    exact ⟨ka, kb, hka, hkb⟩
  · intro hlen
    refine ⟨?_, hroot⟩
    rw [derive_key_eq_iff_agree]
    exact commonRoot_of_agree (List.length_pos_iff.mp a.length_pos)
      (List.length_pos_iff.mp b.length_pos) hlen

/-- A word of eight characters written twice and three times is one key; with
another last character it is another one. -/
theorem derive_key_eq_iff_pass1234 :
    ∃ twice thrice once other : AsciiKey, twice.chars = str "Pass1234Pass1234" ∧
      thrice.chars = str "Pass1234Pass1234Pass1234" ∧ once.chars = str "Pass1234" ∧
      other.chars = str "Pass1235" ∧
      derive_key (twice.chars ++ [0]) = derive_key (thrice.chars ++ [0]) ∧
      derive_key (once.chars ++ [0]) ≠ derive_key (other.chars ++ [0]) := by
  refine ⟨⟨_, by decide, by decide⟩, ⟨_, by decide, by decide⟩, ⟨_, by decide, by decide⟩,
    ⟨_, by decide, by decide⟩, rfl, rfl, rfl, rfl, ?_, ?_⟩
  · refine ((derive_key_eq_iff _ _ [] []).2.2 (by decide)).mpr ?_
    exact ⟨str "Pass1234", 2, 3, by decide, by decide, by decide, by decide⟩
  · intro hkeys
    obtain ⟨w, p, q, hp, hq, honce, hother⟩ :=
      ((derive_key_eq_iff _ _ [] []).2.2 (by decide)).mp hkeys
    have hcyclic := CommonRoot.cyclic_eq ⟨w, p, q, hp, hq, honce, hother⟩ 7
    exact absurd hcyclic (by decide)

end ConcurrencyCrypto.Crypto
