/-
  ConcurrencyCrypto.Crypto.Collisions
  ───────────────────────────────────
  **A COLLISION OF `sha256` CONTAINS ONE OF `sha256_transform`.**

  Two messages with one digest end their runs in one state, because the
  output loop loses nothing (`serializeState_injective`).  Walking back from
  there, two different inputs of `sha256_transform` with one output appear,
  unless the blocks of one message are the last blocks of the other.  The
  length in the last block excludes that (`pad_suffix_free`).
-/
import ConcurrencyCrypto.Crypto.Sha256Stream

namespace ConcurrencyCrypto.Crypto

open ConcurrencyCrypto.Library

/-! ## §1. The padding. -/

namespace Fips180

theorem beBytes_succ (n x : Nat) :
    beBytes (n + 1) x = UInt8.ofNat (x / 256 ^ n) :: beBytes n x := by
  unfold beBytes
  rw [List.range_succ_eq_map, List.map_cons, List.map_map]
  congr 1
  refine List.map_congr_left fun i hi => ?_
  show UInt8.ofNat (x / 256 ^ (n + 1 - 1 - (i + 1))) = UInt8.ofNat (x / 256 ^ (n - 1 - i))
  rw [show n + 1 - 1 - (i + 1) = n - 1 - i by omega]

@[simp] theorem length_beBytes (n x : Nat) : (beBytes n x).length = n := by
  simp [beBytes]

/-- The `n` bytes determine the number below `256^n`. -/
theorem mod_eq_of_beBytes (n : Nat) {x y : Nat} (h : beBytes n x = beBytes n y) :
    x % 256 ^ n = y % 256 ^ n := by
  induction n with
  | zero => rw [Nat.pow_zero, Nat.mod_one, Nat.mod_one]
  | succ n ih =>
      rw [beBytes_succ, beBytes_succ] at h
      injection h with hbyte hrest
      have hbyte : x / 256 ^ n % 256 = y / 256 ^ n % 256 := by
        have := congrArg UInt8.toNat hbyte
        rwa [UInt8.toNat_ofNat', UInt8.toNat_ofNat'] at this
      rw [Nat.pow_succ, Nat.mod_mul, Nat.mod_mul, ih hrest, hbyte]

theorem length_pad (m : List UInt8) :
    (pad m).length = m.length + 1 + zeroBytes m.length + 8 := by
  simp [pad]
  omega

/-- **A padded message is not the end of another one.** -/
theorem pad_suffix_free {m m' : List UInt8} (hm : m.length < 2 ^ 61)
    (hm' : m'.length < 2 ^ 61) (h : pad m <:+ pad m') : m = m' := by
  obtain ⟨t, ht⟩ := h
  -- the last eight bytes are the length
  have hbytes : beBytes 8 (8 * m.length) = beBytes 8 (8 * m'.length) := by
    unfold pad at ht
    rw [← List.append_assoc] at ht
    exact (List.append_inj' ht (by simp)).2
  have hlen : m.length = m'.length := by
    have := mod_eq_of_beBytes 8 hbytes
    omega
  have hnil : t = [] := by
    have := congrArg List.length ht
    rw [List.length_append, length_pad, length_pad, hlen] at this
    exact List.length_eq_zero_iff.mp (by omega)
  rw [hnil, List.nil_append] at ht
  unfold pad at ht
  rw [List.append_assoc, List.append_assoc, List.append_assoc m',
    List.append_assoc m'] at ht
  exact (List.append_inj ht hlen).1

end Fips180

/-! ## §2. The output loop. -/

/-- Four bytes determine a word. -/
theorem wordByte_ext {x y : UInt32} (h : ∀ k, wordByte x k = wordByte y k) : x = y := by
  have h0 := congrArg UInt8.toNat (h 0)
  have h1 := congrArg UInt8.toNat (h 1)
  have h2 := congrArg UInt8.toNat (h 2)
  have h3 := congrArg UInt8.toNat (h 3)
  simp only [wordByte, UInt32.toNat_toUInt8, UInt32.toNat_shiftRight,
    Nat.shiftRight_eq_div_pow] at h0 h1 h2 h3
  have hx := x.toNat_lt
  have hy := y.toNat_lt
  apply UInt32.toNat_inj.mp
  simp at h0 h1 h2 h3
  omega

/-- **Different states are written differently.** -/
theorem serializeState_injective {s s' : Vector UInt32 8}
    (h : serializeState s = serializeState s') : s = s' := by
  apply Vector.ext
  intro i hi
  refine wordByte_ext fun k => ?_
  have hk := k.isLt
  have hj : 4 * i + k.val < 32 := by omega
  have hs := serializeState_getElem s (4 * i + k.val) hj
  have hs' := serializeState_getElem s' (4 * i + k.val) hj
  have hdiv : (4 * i + k.val) / 4 = i := by omega
  have hmod : (⟨(4 * i + k.val) % 4, Nat.mod_lt _ (by decide)⟩ : Fin 4) = k :=
    Fin.ext (by show (4 * i + k.val) % 4 = k.val; omega)
  simp only [hdiv, hmod] at hs hs'
  rw [← hs, ← hs', h]

/-! ## §3. The run on a message. -/

/-- **The recorded calls are the run**: they start from the initial state,
their blocks are the padded message, and the output is the state they end
in. -/
theorem sha256_run (c : Sha256Ctx) {m : List UInt8} (hm : m.length < 2 ^ 61) :
    ∃ calls s, sha256Calls c m = some calls ∧ sha256 c m = some (serializeState s) ∧
      Chained transformState (sha256_init blankCtx).state calls s ∧
      blockBytes calls = Fips180.pad m := by
  obtain ⟨c₁, hupd, h₁, hroom₁, hbits₁⟩ :=
    update_emits (c := sha256_init c) (Nat.zero_lt_succ 63) m
  obtain ⟨k, calls, c₂, hfinal, hcalls, hk, h₂⟩ := final_emits hroom₁
  have hbits : c₁.bit_count.toNat = 8 * m.length := by
    rw [hbits₁]
    show ((0 : UInt64) + _).toNat = _
    rw [UInt64.zero_add, bit_count_toNat _ hm]
  rw [hbits] at h₂
  have h := h₁.trans h₂
  refine ⟨updateCalls (sha256_init c) m ++ calls, c₂.state, ?_, ?_, h.chained, ?_⟩
  · unfold sha256Calls
    simp only [Option.bind_eq_bind]
    rw [hupd, Option.bind_some, hcalls]
    rfl
  · unfold sha256
    simp only [Option.bind_eq_bind]
    rw [hupd, Option.bind_some, hfinal]
    rfl
  · have hbytes : blockBytes (updateCalls (sha256_init c) m ++ calls) ++ [] = [] ++ _ := h.bytes
    rw [List.append_nil, List.nil_append] at hbytes
    have hs : Splits 64 (m ++ ([0x80] ++ List.replicate k 0
          ++ Fips180.beBytes 8 (8 * m.length)))
        ((updateCalls (sha256_init c) m ++ calls).map fun x => x.2.toList) [] := by
      refine ⟨by rw [List.append_nil]; exact hbytes, ?_⟩
      intro b hb
      obtain ⟨x, -, rfl⟩ := List.mem_map.mp hb
      exact Vector.length_toList
    rw [hbytes, pad_of_splits hk hs]

/-- Blocks that end a list of blocks have bytes that end its bytes. -/
theorem blockBytes_suffix {calls calls' : List Call}
    (h : calls.map Prod.snd <:+ calls'.map Prod.snd) :
    blockBytes calls <:+ blockBytes calls' := by
  have hbytes : ∀ xs : List Call,
      blockBytes xs = ((xs.map Prod.snd).map Vector.toList).flatten := by
    intro xs
    rw [List.map_map]
    rfl
  obtain ⟨t, ht⟩ := h
  rw [hbytes calls, hbytes calls', ← ht, List.map_append, List.flatten_append]
  exact List.suffix_append _ _

/-- **MERKLE–DAMGÅRD REDUCTION.**  Two messages below 2^61 bytes are equal, or
`sha256` writes different digests for them, or the runs on them contain two
different inputs of `sha256_transform`, one each, that it maps to the same
state. -/
theorem sha256_collision_reduces (c c' : Sha256Ctx) (m m' : List UInt8)
    (hm : m.length < 2 ^ 61) (hm' : m'.length < 2 ^ 61) :
    ∃ calls calls', sha256Calls c m = some calls ∧ sha256Calls c' m' = some calls' ∧
      (m = m' ∨ sha256 c m ≠ sha256 c' m' ∨
        ∃ x ∈ calls, ∃ y ∈ calls', Collides transformState x y) := by
  obtain ⟨calls, s, hcalls, hout, hchain, hpad⟩ := sha256_run c hm
  obtain ⟨calls', s', hcalls', hout', hchain', hpad'⟩ := sha256_run c' hm'
  refine ⟨calls, calls', hcalls, hcalls', ?_⟩
  by_cases hsame : sha256 c m = sha256 c' m'
  · -- the runs end in one state
    rw [hout, hout'] at hsame
    injection hsame with hsame
    rw [← serializeState_injective hsame] at hchain'
    rcases collision_or_suffix calls calls' s hchain hchain' with hcoll | hsuffix | hsuffix
    · exact Or.inr (Or.inr hcoll)
    · have h := blockBytes_suffix hsuffix
      rw [hpad, hpad'] at h
      exact Or.inl (Fips180.pad_suffix_free hm hm' h)
    · have h := blockBytes_suffix hsuffix
      rw [hpad, hpad'] at h
      exact Or.inl (Fips180.pad_suffix_free hm' hm h).symm
  · exact Or.inr (Or.inl hsame)

/-- A message of one block and one of two. -/
theorem sha256_collision_reduces_lengths :
    ∃ calls calls', sha256Calls blankCtx [1, 2, 3] = some calls ∧
      sha256Calls blankCtx (List.replicate 56 0) = some calls' ∧
      ([1, 2, 3] = List.replicate 56 (0 : UInt8) ∨
        sha256 blankCtx [1, 2, 3] ≠ sha256 blankCtx (List.replicate 56 0) ∨
        ∃ x ∈ calls, ∃ y ∈ calls', Collides transformState x y) :=
  sha256_collision_reduces blankCtx blankCtx [1, 2, 3] (List.replicate 56 0)
    (by decide) (by decide)

end ConcurrencyCrypto.Crypto
