/-
  ConcurrencyCrypto.Crypto.Sha256Stream
  ─────────────────────────────────────
  **STREAMING SHA-256 COMPUTES THE FIPS DIGEST, HOWEVER THE INPUT IS CUT.**

  `Absorbed c l` is the invariant of the context: the bytes `l` it has taken
  in so far are whole blocks already folded into `state`, followed by the
  bytes pending in `buffer`.  Whatever takes bytes in keeps it
  (`Absorbed.emits`), so `sha256_update` absorbs its data, `sha256_final`
  absorbs the padding (`final_eq_digest`), and the digest is the one of the
  concatenation of everything fed.
-/
import ConcurrencyCrypto.Crypto.Sha256Calls

namespace ConcurrencyCrypto.Crypto

open ConcurrencyCrypto.Library

/-! ## §1. What a context has absorbed. -/

/-- A context no one has initialised yet. -/
def blankCtx : Sha256Ctx :=
  { state := Vector.replicate 8 0, bit_count := 0
    buffer := Vector.replicate 64 0, buffer_len := 0 }

/-- The context has taken in exactly the bytes `l`. -/
structure Absorbed (c : Sha256Ctx) (l : List UInt8) : Prop where
  buffer_len_le : c.buffer_len ≤ 64
  blocks_behind : ∃ bs, Splits 64 l bs c.pending ∧
    words c.state = bs.foldl Fips180.compress Fips180.H0

/-- A fresh context has absorbed nothing, whatever its buffer held. -/
theorem init_absorbed (c : Sha256Ctx) : Absorbed (sha256_init c) [] where
  buffer_len_le := Nat.zero_le 64
  blocks_behind := ⟨[], Splits.nil, words_init c⟩

/-- A chain of calls folds its blocks into the chaining value. -/
theorem words_of_chained {calls : List Call} :
    ∀ {s s' : Vector UInt32 8}, Chained transformState s calls s' →
      words s' = (calls.map fun x => x.2.toList).foldl Fips180.compress (words s) := by
  induction calls with
  | nil => exact fun h => congrArg words (Eq.symm h)
  | cons x calls ih =>
      intro s s' h
      have hrest := ih h.2
      rw [h.1, ← sha256_transform_state { blankCtx with state := s } x.2,
        words_transform] at hrest
      exact hrest

/-- **What takes bytes in absorbs them.** -/
theorem Absorbed.emits {c c' : Sha256Ctx} {l d : List UInt8} {calls : List Call}
    (h : Absorbed c l) (he : Emits c d calls c') : Absorbed c' (l ++ d) where
  buffer_len_le := he.buffer_len_le
  blocks_behind := by
    obtain ⟨bs, hs, hw⟩ := h.blocks_behind
    refine ⟨bs ++ calls.map fun x => x.2.toList, ⟨?_, ?_⟩, ?_⟩
    · calc (bs ++ calls.map fun x => x.2.toList).flatten ++ c'.pending
          = bs.flatten ++ (blockBytes calls ++ c'.pending) := by simp [blockBytes]
        _ = (bs.flatten ++ c.pending) ++ d := by rw [he.bytes, List.append_assoc]
        _ = l ++ d := by rw [hs.flatten_append]
    · intro b hb
      rcases List.mem_append.mp hb with hb | hb
      · exact hs.length_block b hb
      · obtain ⟨x, -, rfl⟩ := List.mem_map.mp hb
        exact Vector.length_toList
    · rw [List.foldl_append, ← hw]
      exact words_of_chained he.chained

/-! ## §2. The digest bytes. -/

/-- The four bytes the output loop takes from one state word. -/
def wordByte (x : UInt32) : Fin 4 → UInt8
  | 0 => (x >>> 24).toUInt8
  | 1 => (x >>> 16).toUInt8
  | 2 => (x >>> 8).toUInt8
  | 3 => x.toUInt8

theorem wordByte_eq (x : UInt32) (k : Nat) (hk : k < 4) :
    (Fips180.beBytes 4 x.toBitVec.toNat)[k]? = some (wordByte x ⟨k, hk⟩) := by
  have hshift : ∀ n : UInt32, n.toNat < 32 →
      UInt8.ofNat (x.toBitVec.toNat / 2 ^ n.toNat) = (x >>> n).toUInt8 := by
    intro n hn
    apply UInt8.toNat_inj.mp
    simp only [UInt32.toNat_toUInt8, UInt32.toNat_shiftRight, UInt8.toNat_ofNat',
      Nat.shiftRight_eq_div_pow, Nat.mod_eq_of_lt hn, UInt32.toNat_toBitVec]
  unfold Fips180.beBytes
  rw [List.getElem?_map, List.getElem?_range hk, Option.map_some]
  interval_cases k
  · exact congrArg some (hshift 24 (by decide))
  · exact congrArg some (hshift 16 (by decide))
  · exact congrArg some (hshift 8 (by decide))
  · apply congrArg some
    apply UInt8.toNat_inj.mp
    simp [wordByte]

/-- Byte `j` of the output is byte `j % 4` of word `j / 4`. -/
theorem serializeState_getElem (s : Vector UInt32 8) (j : Nat) (hj : j < 32) :
    (serializeState s)[j] = wordByte s[j / 4] ⟨j % 4, Nat.mod_lt j (by decide)⟩ :=
  (fold_set_four 8 (by decide) (fun i hi => wordByte s[i])
    (Vector.replicate 32 0) j hj).trans (dif_pos (by omega))

/-- The output loop writes the state words big-endian. -/
theorem serializeState_eq (s : Vector UInt32 8) :
    (serializeState s).toList
      = (words s).toList.flatMap fun w => Fips180.beBytes 4 w.toNat := by
  -- four bytes a word, so byte `j` is byte `j % 4` of word `j / 4`
  have hbytes : ∀ b ∈ (words s).toList.map (fun w => Fips180.beBytes 4 w.toNat),
      b.length = 4 := by
    intro b hb
    obtain ⟨w, -, rfl⟩ := List.mem_map.mp hb
    simp [Fips180.beBytes]
  apply List.ext_getElem?
  intro j
  rw [List.flatMap_def, getElem?_flatten_of_forall (by decide) _ hbytes]
  by_cases hj : j < 32
  · have hj4 : j / 4 < 8 := by omega
    have hleft : (serializeState s).toList[j]? = some (serializeState s)[j] := by
      simp [hj]
    have hright : ((words s).toList.map fun w => Fips180.beBytes 4 w.toNat)[j / 4]?
        = some (Fips180.beBytes 4 s[j / 4].toBitVec.toNat) := by
      simp [hj4, words]
    rw [hleft, hright, serializeState_getElem s j hj, Option.bind_some,
        wordByte_eq s[j / 4] (j % 4) (Nat.mod_lt j (by decide))]
  · rw [List.getElem?_eq_none (by simp; omega), List.getElem?_eq_none (by simp; omega)]
    rfl

/-- The bit counter of a short message does not wrap. -/
theorem bit_count_toNat (n : Nat) (hn : n < 2 ^ 61) :
    (UInt64.ofNat n * 8).toNat = 8 * n := by
  rw [UInt64.toNat_mul, UInt64.toNat_ofNat']
  show n % 2 ^ 64 * 8 % 2 ^ 64 = 8 * n
  omega

/-- Whole blocks leave only one number of zero bytes below 64. -/
theorem pad_of_splits {m : List UInt8} {k : Nat} {bs : List (List UInt8)} (hk : k < 64)
    (hs : Splits 64
      (m ++ ([0x80] ++ List.replicate k 0 ++ Fips180.beBytes 8 (8 * m.length))) bs []) :
    Fips180.pad m = m ++ ([0x80] ++ List.replicate k 0
      ++ Fips180.beBytes 8 (8 * m.length)) := by
  have hlen := hs.length_eq
  simp only [List.length_append, List.length_singleton, List.length_replicate,
    Fips180.beBytes, List.length_map, List.length_range, List.length_nil] at hlen
  have hk' : k = Fips180.zeroBytes m.length := by
    unfold Fips180.zeroBytes
    omega
  rw [hk', Fips180.pad]
  simp only [List.append_assoc]

/-! ## §3. `sha256_final`. -/

/-- **`sha256_final` writes the FIPS digest** of the bytes absorbed. -/
theorem final_eq_digest {c : Sha256Ctx} {m : List UInt8} (h : Absorbed c m)
    (hroom : c.buffer_len < 64) (hbits : c.bit_count.toNat = 8 * m.length) :
    ∃ c' out, sha256_final c = some (c', out) ∧ out.toList = Fips180.digest m := by
  obtain ⟨k, calls, c', hfinal, -, hk, hemits⟩ := final_emits hroom
  -- what was absorbed is the padded message
  rw [hbits] at hemits
  obtain ⟨bs, hs, hw⟩ := (h.emits hemits).blocks_behind
  have hnil : ({ c' with buffer_len := 0 } : Sha256Ctx).pending = [] := rfl
  rw [hnil] at hs
  rw [← pad_of_splits hk hs] at hs
  have hbs : bs = blocks 64 (Fips180.pad m) := hs.eq_blocks (by decide)
  have hw : words c'.state = bs.foldl Fips180.compress Fips180.H0 := hw
  refine ⟨c', serializeState c'.state, hfinal, ?_⟩
  rw [serializeState_eq, Fips180.digest, ← hbs, ← hw]

/-! ## §4. The whole API. -/

/-- `sha256_update` on each chunk in order. -/
def updateAll (c : Sha256Ctx) (chunks : List (List UInt8)) : Option Sha256Ctx :=
  chunks.foldlM sha256_update c

/-- Any sequence of updates absorbs the concatenation of its chunks. -/
theorem updateAll_absorbed (chunks : List (List UInt8)) :
    ∀ (c : Sha256Ctx) (l : List UInt8), Absorbed c l → c.buffer_len < 64 →
      c.bit_count = UInt64.ofNat l.length * 8 →
      ∃ c', updateAll c chunks = some c' ∧ Absorbed c' (l ++ chunks.flatten) ∧
        c'.buffer_len < 64 ∧
        c'.bit_count = UInt64.ofNat (l ++ chunks.flatten).length * 8 := by
  induction chunks with
  | nil =>
      intro c l h hroom hbits
      exact ⟨c, rfl, by rwa [List.flatten_nil, List.append_nil], hroom,
        by rwa [List.flatten_nil, List.append_nil]⟩
  | cons d chunks ih =>
      intro c l h hroom hbits
      obtain ⟨c₁, hupd, hemits, hroom₁, hbits₁⟩ := update_emits hroom d
      have hcount : c₁.bit_count = UInt64.ofNat (l ++ d).length * 8 := by
        rw [hbits₁, hbits, List.length_append, UInt64.ofNat_add, UInt64.add_mul]
      obtain ⟨c₂, hrest, h₂⟩ := ih c₁ (l ++ d) (h.emits hemits) hroom₁ hcount
      refine ⟨c₂, ?_, by rwa [List.flatten_cons, ← List.append_assoc]⟩
      rw [updateAll, List.foldlM_cons, hupd]
      exact hrest

/-- `init`, one `update` per chunk and `final` on a message below 2^61 bytes. -/
theorem stream_eq_digest (c : Sha256Ctx) (chunks : List (List UInt8))
    (hlen : chunks.flatten.length < 2 ^ 61) :
    ∃ c₁ c₂ out, updateAll (sha256_init c) chunks = some c₁ ∧
      sha256_final c₁ = some (c₂, out) ∧
      out.toList = Fips180.digest chunks.flatten := by
  obtain ⟨c₁, hupd, h₁, hroom₁, hbits₁⟩ :=
    updateAll_absorbed chunks (sha256_init c) [] (init_absorbed c) (Nat.zero_lt_succ 63) rfl
  rw [List.nil_append] at h₁ hbits₁
  obtain ⟨c₂, out, hfinal, hout⟩ := final_eq_digest h₁ hroom₁
    (by rw [hbits₁, bit_count_toNat _ hlen])
  exact ⟨c₁, c₂, out, hupd, hfinal, hout⟩

/-- The one-shot wrapper is the cut into a single chunk. -/
theorem sha256_eq_digest (c : Sha256Ctx) (m : List UInt8) (hlen : m.length < 2 ^ 61) :
    ∃ out, sha256 c m = some out ∧ out.toList = Fips180.digest m := by
  have hflat : [m].flatten = m := by simp
  obtain ⟨c₁, c₂, out, hupd, hfinal, hout⟩ := stream_eq_digest c [m] (by rwa [hflat])
  rw [hflat] at hout
  refine ⟨out, ?_, hout⟩
  have hone : sha256_update (sha256_init c) m = some c₁ := by
    simpa [updateAll] using hupd
  unfold sha256
  simp only [Option.bind_eq_bind]
  rw [hone, Option.bind_some, hfinal]
  rfl

/-- **STREAMING = FIPS 180-4.**  For every message below 2^61 bytes and every
way of cutting it into chunks, `init`, one `update` per chunk and `final`
write the FIPS digest of the whole message; so does the one-shot `sha256`. -/
theorem sha256_chunks_eq_digest (c c₀ : Sha256Ctx) (chunks : List (List UInt8))
    (hlen : chunks.flatten.length < 2 ^ 61) :
    (∃ c₁ c₂ out, updateAll (sha256_init c) chunks = some c₁ ∧
        sha256_final c₁ = some (c₂, out) ∧
        out.toList = Fips180.digest chunks.flatten) ∧
      ∃ out, sha256 c₀ chunks.flatten = some out ∧
        out.toList = Fips180.digest chunks.flatten :=
  ⟨stream_eq_digest c chunks hlen, sha256_eq_digest c₀ chunks.flatten hlen⟩

/-- `"abc"` fed as `"a"`, the empty chunk and `"bc"`. -/
theorem sha256_chunks_eq_digest_abc :
    (∃ c₁ c₂ out, updateAll (sha256_init blankCtx) [[97], [], [98, 99]] = some c₁ ∧
        sha256_final c₁ = some (c₂, out) ∧
        out.toList = Fips180.digest [97, 98, 99]) ∧
      ∃ out, sha256 blankCtx [97, 98, 99] = some out ∧
        out.toList = Fips180.digest [97, 98, 99] :=
  sha256_chunks_eq_digest blankCtx blankCtx [[97], [], [98, 99]] (by decide)

end ConcurrencyCrypto.Crypto
