/-
  ConcurrencyCrypto.Crypto.Sha256Range
  ────────────────────────────────────
  **CALLS ON ONE `sha256_ctx`, IN ANY ORDER.**

  The header gives `buffer_len` the range 0..63.  `sha256_update` keeps it;
  `sha256_final` compresses its last block and leaves the buffer full, at 64.

    • `final_buffer_len`      — where `sha256_final` leaves the context,
    • `context_in_range_iff`  — the sequences of calls that stay in range,
    • `run_isSome_iff`        — those whose stores all stay in the buffer: a
      full buffer is emptied by the next byte that an update takes in, and
      overrun by a second `sha256_final`.
-/
import ConcurrencyCrypto.Crypto.Sha256Calls

namespace ConcurrencyCrypto.Crypto

open ConcurrencyCrypto.Library

/-! ## §1. Sequences of calls. -/

/-- A call on a context. -/
inductive CtxCall where
  | update (data : List UInt8)
  | final
  deriving DecidableEq

/-- What the call makes of the context, if its stores stay in the buffer. -/
def Sha256Ctx.apply (c : Sha256Ctx) : CtxCall → Option Sha256Ctx
  | .update data => sha256_update c data
  | .final => (sha256_final c).map Prod.fst

/-- The calls one after the other. -/
def Sha256Ctx.run (c : Sha256Ctx) (calls : List CtxCall) : Option Sha256Ctx :=
  calls.foldlM Sha256Ctx.apply c

/-- Every call returns, has stored below 64 only, and leaves `buffer_len` in 0..63. -/
def StaysInRange (c : Sha256Ctx) (calls : List CtxCall) : Prop :=
  ∀ front, front <+: calls → ∃ c', c.run front = some c' ∧ c'.buffer_len ≤ 63

theorem Sha256Ctx.run_concat (c : Sha256Ctx) (calls : List CtxCall) (call : CtxCall) :
    c.run (calls ++ [call]) = (c.run calls).bind fun c' => c'.apply call := by
  have hone : ∀ c' : Sha256Ctx, [call].foldlM Sha256Ctx.apply c' = c'.apply call := by
    intro c'
    rw [List.foldlM_cons]
    exact bind_pure (c'.apply call)
  unfold Sha256Ctx.run
  rw [List.foldlM_append]
  show (calls.foldlM Sha256Ctx.apply c).bind _ = _
  congr 1
  exact funext hone

/-! ## §2. Where `sha256_final` leaves the buffer. -/

theorem fillZeros_buffer_len {limit : Nat} {c c' : Sha256Ctx}
    (h : fillZeros limit c = some c') : c'.buffer_len = max limit c.buffer_len := by
  induction c using fillZeros.induct limit with
  | case1 c hlt hpush =>
      rw [fillZeros, if_pos hlt] at h
      split at h
      next => cases h
      next c₁ hsome => rw [hpush] at hsome; cases hsome
  | case2 c hlt c₁ hpush ih =>
      rw [fillZeros, if_pos hlt] at h
      split at h
      next => cases h
      next c₂ hsome =>
        rw [hpush] at hsome
        injection hsome with hc
        subst hc
        rw [ih h, Sha256Ctx.push_buffer_len hpush]
        omega
  | case3 c hge =>
      rw [fillZeros, if_neg hge] at h
      injection h with h
      subst h
      omega

theorem spillBlock_buffer_len {c c' : Sha256Ctx} (h : spillBlock c = some c') :
    c'.buffer_len ≤ 56 := by
  unfold spillBlock at h
  split at h
  · obtain ⟨c₁, -, h⟩ := Option.bind_eq_some_iff.mp h
    injection h with h
    subst h
    exact Nat.zero_le 56
  · injection h with h
    subst h
    omega

/-- A run of single-byte stores advances the buffer by as many bytes. -/
theorem pushAll_buffer_len (f : UInt64 → Nat → UInt8) (is : List Nat) :
    ∀ {c c' : Sha256Ctx}, is.foldlM (fun c i => c.push (f c.bit_count i)) c = some c' →
      c'.buffer_len = c.buffer_len + is.length := by
  induction is with
  | nil =>
      intro c c' h
      injection h with h
      subst h
      rfl
  | cons i is ih =>
      intro c c' h
      rw [List.foldlM_cons] at h
      obtain ⟨c₁, hpush, h⟩ := Option.bind_eq_some_iff.mp h
      rw [ih h, Sha256Ctx.push_buffer_len hpush, List.length_cons]
      omega

/-- **`sha256_final` leaves the buffer full.** -/
theorem final_buffer_len {c c' : Sha256Ctx} {out : Vector UInt8 32}
    (h : sha256_final c = some (c', out)) : c'.buffer_len = 64 := by
  unfold sha256_final pushBitCount at h
  obtain ⟨c₁, -, h⟩ := Option.bind_eq_some_iff.mp h
  obtain ⟨c₂, hspill, h⟩ := Option.bind_eq_some_iff.mp h
  obtain ⟨c₃, hfill, h⟩ := Option.bind_eq_some_iff.mp h
  obtain ⟨c₄, hcount, h⟩ := Option.bind_eq_some_iff.mp h
  injection h with h
  injection h with h
  subst h
  have h₂ := spillBlock_buffer_len hspill
  have h₃ := fillZeros_buffer_len hfill
  have h₄ := pushAll_buffer_len
    (fun n i => (n >>> UInt64.ofNat (i * 8)).toUInt8) [7, 6, 5, 4, 3, 2, 1, 0] hcount
  show c₄.buffer_len = 64
  rw [List.length_cons, List.length_cons, List.length_cons, List.length_cons, List.length_cons,
    List.length_cons, List.length_cons, List.length_cons, List.length_nil] at h₄
  omega

/-! ## §3. One call. -/

theorem apply_update_of_lt {c : Sha256Ctx} (h : c.buffer_len < 64) (data : List UInt8) :
    ∃ c', c.apply (.update data) = some c' ∧ c'.buffer_len < 64 := by
  obtain ⟨c', hc', -, hlt, -⟩ := update_emits h data
  exact ⟨c', hc', hlt⟩

theorem apply_final_of_lt {c : Sha256Ctx} (h : c.buffer_len < 64) :
    ∃ c', c.apply .final = some c' ∧ c'.buffer_len = 64 := by
  obtain ⟨k, calls, c', hc', -⟩ := final_emits h
  refine ⟨c', ?_, final_buffer_len hc'⟩
  show (sha256_final c).map Prod.fst = some c'
  rw [hc']
  rfl

/-- An update without data leaves even a full buffer as it is. -/
theorem apply_update_nil (c : Sha256Ctx) :
    ∃ c', c.apply (.update []) = some c' ∧ c'.buffer_len = c.buffer_len := by
  refine ⟨{ c with bit_count := c.bit_count + UInt64.ofNat 0 * 8 }, ?_, rfl⟩
  show updateLoop _ [] = _
  rw [updateLoop, dif_pos rfl]
  rfl

/-- **An update with data empties a full buffer first.** -/
theorem apply_update_of_full {c : Sha256Ctx} (h : c.buffer_len = 64) {data : List UInt8}
    (hne : data ≠ []) : ∃ c', c.apply (.update data) = some c' ∧ c'.buffer_len < 64 := by
  show ∃ c', updateLoop
    { c with bit_count := c.bit_count + UInt64.ofNat data.length * 8 } data = some c' ∧ _
  generalize hd : { c with bit_count := c.bit_count + UInt64.ofNat data.length * 8 } = d
  have hfull : d.buffer_len = 64 := by
    rw [← hd]
    exact h
  -- there is no room, so the first turn of the loop only compresses
  have htake : d.take data.length = 0 := by
    unfold Sha256Ctx.take
    rw [hfull]
    show (if (2 ^ 64 + 64 - 64) % 2 ^ 64 > data.length then data.length
      else (2 ^ 64 + 64 - 64) % 2 ^ 64) = 0
    rw [if_neg (by omega)]
    rfl
  have hstep : ∃ e, updateStep d data = some (e, data) ∧ e.buffer_len = 0 := by
    unfold updateStep
    dsimp only
    rw [htake, hfull, if_pos (by omega), if_pos rfl, List.drop_zero]
    exact ⟨_, rfl, rfl⟩
  obtain ⟨e, hstep, hempty⟩ := hstep
  obtain ⟨c', hloop, -, hlt, -⟩ :=
    updateLoop_emits data.length e data (Nat.le_refl _) (by omega)
  refine ⟨c', ?_, hlt⟩
  rw [updateLoop, dif_neg hne]
  split
  next hnone => rw [hstep] at hnone; cases hnone
  next e' data' hsome =>
    rw [hstep] at hsome
    injection hsome with hsome
    injection hsome with he hdata
    subst he hdata
    exact hloop

/-- **The marker byte of a second `sha256_final` has no place in the buffer.** -/
theorem apply_final_of_full {c : Sha256Ctx} (h : c.buffer_len = 64) : c.apply .final = none := by
  show (sha256_final c).map Prod.fst = none
  have hpush : c.push 0x80 = none := by
    unfold Sha256Ctx.push
    rw [dif_neg (by omega)]
  unfold sha256_final
  rw [hpush]
  rfl

/-! ## §4. Sequences. -/

/-- Without a `sha256_final` the buffer has room throughout. -/
theorem run_of_updates (c : Sha256Ctx) (calls : List CtxCall) :
    CtxCall.final ∉ calls → ∃ c', (sha256_init c).run calls = some c' ∧ c'.buffer_len < 64 := by
  induction calls using List.reverseRecOn with
  | nil => exact fun _ => ⟨sha256_init c, rfl, by show 0 < 64; omega⟩
  | append_singleton calls call ih =>
      intro hfinal
      obtain ⟨c₁, hrun, hlt⟩ := ih (fun h => hfinal (List.mem_append_left _ h))
      rw [Sha256Ctx.run_concat, hrun]
      cases call with
      | update data => exact apply_update_of_lt hlt data
      | final => exact absurd (List.mem_append_right _ List.mem_cons_self) hfinal

/-- **A CONTEXT STAYS IN ITS DOCUMENTED RANGE UNTIL IT IS FINALISED**, and no
longer: the sequences of calls after `sha256_init` that keep `buffer_len` in
0..63 and store inside the buffer are those without a `sha256_final`. -/
theorem context_in_range_iff (c : Sha256Ctx) (calls : List CtxCall) :
    StaysInRange (sha256_init c) calls ↔ CtxCall.final ∉ calls := by
  constructor
  · intro h hmem
    obtain ⟨before, after, hsplit⟩ := List.append_of_mem hmem
    -- the call of `sha256_final` that comes first is enough
    obtain ⟨c₁, hrun, hlt⟩ := h before ⟨.final :: after, hsplit.symm⟩
    obtain ⟨c₂, hfinal, hlen⟩ := apply_final_of_lt (c := c₁) (by omega)
    obtain ⟨c₃, hrun', hle⟩ := h (before ++ [.final]) ⟨after, by rw [hsplit]; simp⟩
    rw [Sha256Ctx.run_concat, hrun] at hrun'
    have heq : c₂ = c₃ := Option.some.inj (hfinal.symm.trans hrun')
    rw [← heq] at hle
    omega
  · intro hfinal front hfront
    obtain ⟨c', hrun, hlt⟩ := run_of_updates c front (fun h => hfinal (hfront.subset h))
    exact ⟨c', hrun, by omega⟩

/-- One `sha256_final` leaves `buffer_len` at 64; a second one stores outside. -/
theorem run_finals (c : Sha256Ctx) :
    (∃ c', (sha256_init c).run [.final] = some c' ∧ c'.buffer_len = 64) ∧
      (sha256_init c).run [.final, .final] = none := by
  obtain ⟨c', hfinal, hlen⟩ :=
    apply_final_of_lt (c := sha256_init c) (by show 0 < 64; omega)
  have hrun : (sha256_init c).run [.final] = some c' := by
    show (sha256_init c).run ([] ++ [.final]) = _
    rw [Sha256Ctx.run_concat]
    exact hfinal
  refine ⟨⟨c', hrun, hlen⟩, ?_⟩
  show (sha256_init c).run ([.final] ++ [.final]) = none
  rw [Sha256Ctx.run_concat, hrun]
  exact apply_final_of_full hlen

/-- A context in memory that was all zeros. -/
def zeroCtx : Sha256Ctx := ⟨Vector.replicate 8 0, 0, Vector.replicate 64 0, 0⟩

/-- **`sha256_init` and `sha256_final` lead out of the documented range**, and
one more `sha256_final` out of the buffer. -/
theorem final_leaves_range :
    ¬ StaysInRange (sha256_init zeroCtx) [.final] ∧
      (∃ c', (sha256_init zeroCtx).run [.final] = some c' ∧ c'.buffer_len = 64) ∧
      (sha256_init zeroCtx).run [.final, .final] = none := by
  obtain ⟨⟨c', hrun, hlen⟩, hnone⟩ := run_finals zeroCtx
  refine ⟨?_, ⟨c', hrun, hlen⟩, hnone⟩
  intro hrange
  obtain ⟨c₁, hrun₁, hle⟩ := hrange [.final] (List.prefix_refl _)
  rw [hrun] at hrun₁
  injection hrun₁ with hc
  rw [← hc, hlen] at hle
  omega

/-! ## §5. The stores alone. -/

/-- A `sha256_final` follows another one, with no data in between. -/
def FinalisesTwice (calls : List CtxCall) : Prop :=
  ∃ (before : List CtxCall) (k : Nat) (after : List CtxCall),
    calls = before ++ [.final] ++ List.replicate k (.update []) ++ [.final] ++ after

theorem run_append_of_none {c : Sha256Ctx} {calls : List CtxCall} (h : c.run calls = none)
    (more : List CtxCall) : c.run (calls ++ more) = none := by
  induction more using List.reverseRecOn with
  | nil => rwa [List.append_nil]
  | append_singleton more call ih =>
      rw [← List.append_assoc, Sha256Ctx.run_concat, ih]
      rfl

/-- Updates without data leave a full buffer full. -/
theorem run_append_empties {c c₁ : Sha256Ctx} {calls : List CtxCall}
    (hrun : c.run calls = some c₁) (hfull : c₁.buffer_len = 64) (k : Nat) :
    ∃ c₂, c.run (calls ++ List.replicate k (.update [])) = some c₂ ∧ c₂.buffer_len = 64 := by
  induction k with
  | zero => exact ⟨c₁, by rwa [List.replicate_zero, List.append_nil], hfull⟩
  | succ k ih =>
      obtain ⟨c₂, hrun₂, hfull₂⟩ := ih
      obtain ⟨c₃, hupdate, hlen⟩ := apply_update_nil c₂
      refine ⟨c₃, ?_, by rw [hlen, hfull₂]⟩
      rw [List.replicate_succ', ← List.append_assoc, Sha256Ctx.run_concat, hrun₂]
      exact hupdate

/-- As long as no `sha256_final` meets a full buffer, the buffer has room, or
it is full since the last `sha256_final`. -/
theorem run_of_not_finalisesTwice (c : Sha256Ctx) (calls : List CtxCall) :
    ¬ FinalisesTwice calls → ∃ c', (sha256_init c).run calls = some c' ∧
      (c'.buffer_len < 64 ∨ (c'.buffer_len = 64 ∧ ∃ before k,
        calls = before ++ [.final] ++ List.replicate k (.update []))) := by
  induction calls using List.reverseRecOn with
  | nil => exact fun _ => ⟨sha256_init c, rfl, Or.inl (by show 0 < 64; omega)⟩
  | append_singleton calls call ih =>
      intro htwice
      have htwice' : ¬ FinalisesTwice calls := by
        intro ⟨before, k, after, hsplit⟩
        exact htwice ⟨before, k, after ++ [call], by rw [hsplit]; simp⟩
      obtain ⟨c₁, hrun, hcase⟩ := ih htwice'
      rw [Sha256Ctx.run_concat, hrun]
      show ∃ c', c₁.apply call = some c' ∧ _
      cases call with
      | final =>
          -- on a full buffer this would be the second of the two
          rcases hcase with hlt | ⟨-, before, k, hsplit⟩
          · obtain ⟨c', hfinal, hlen⟩ := apply_final_of_lt hlt
            exact ⟨c', hfinal, Or.inr ⟨hlen, calls, 0, by simp⟩⟩
          · exact absurd ⟨before, k, [], by rw [hsplit]; simp⟩ htwice
      | update data =>
          rcases hcase with hlt | ⟨hfull, before, k, hsplit⟩
          · obtain ⟨c', hupdate, hlt'⟩ := apply_update_of_lt hlt data
            exact ⟨c', hupdate, Or.inl hlt'⟩
          · by_cases hne : data = []
            · subst hne
              obtain ⟨c', hupdate, hlen⟩ := apply_update_nil c₁
              refine ⟨c', hupdate, Or.inr ⟨by rw [hlen, hfull], before, k + 1, ?_⟩⟩
              rw [hsplit, List.replicate_succ', ← List.append_assoc]
            · obtain ⟨c', hupdate, hlt'⟩ := apply_update_of_full hfull hne
              exact ⟨c', hupdate, Or.inl hlt'⟩

/-- **THE STORES STAY IN THE BUFFER** exactly as long as data comes in between
two finalisations. -/
theorem run_isSome_iff (c : Sha256Ctx) (calls : List CtxCall) :
    ((sha256_init c).run calls).isSome = true ↔ ¬ FinalisesTwice calls := by
  constructor
  · intro hsome ⟨before, k, after, hsplit⟩
    have hnone : (sha256_init c).run
        (before ++ [.final] ++ List.replicate k (.update []) ++ [.final]) = none := by
      cases hfirst : (sha256_init c).run (before ++ [.final]) with
      | none => exact run_append_of_none (run_append_of_none hfirst _) _
      | some c₁ =>
          -- the first of the two left the buffer full
          have hfirst' := hfirst
          rw [Sha256Ctx.run_concat] at hfirst'
          obtain ⟨c₀, -, happly⟩ := Option.bind_eq_some_iff.mp hfirst'
          obtain ⟨⟨c₁', out⟩, hfinal, rfl⟩ := Option.map_eq_some_iff.mp happly
          obtain ⟨c₂, hrun, hfull⟩ := run_append_empties hfirst (final_buffer_len hfinal) k
          rw [Sha256Ctx.run_concat, hrun]
          exact apply_final_of_full hfull
    rw [hsplit, run_append_of_none hnone] at hsome
    cases hsome
  · intro htwice
    obtain ⟨c', hrun, -⟩ := run_of_not_finalisesTwice c calls htwice
    rw [hrun]
    rfl

end ConcurrencyCrypto.Crypto
