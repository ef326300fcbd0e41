/-
  ConcurrencyCrypto.Crypto.Wiping
  ───────────────────────────────
  **WHAT `chacha20_xor_stream` LEAVES ON THE STACK.**

  The two `explicit_bzero` calls stand behind the loop.  The `break` at the
  end of the file reaches them; the two `return 0`, after a read error and
  after a short write, do not.

    • `xorLoop_last`      — every run ends in a last iteration, by one of the
      three exits,
    • `xorLoop_clean_iff` — it returns 1 exactly if no call of the run failed,
    • `secrets_wiped_iff` — so the arrays are wiped exactly then, or if the
      failing iteration happened to leave zeros; which one that is and what it
      leaves the input and the fault schedule say.
-/
import ConcurrencyCrypto.Crypto.FaultSchedule

namespace ConcurrencyCrypto.Crypto

open ConcurrencyCrypto.Library

/-! ## §1. Definitions. -/

/-- All 64 bytes of `keystream` and of `buffer` are zero. -/
def XorState.Wiped (s : XorState) : Prop :=
  s.keystream = Vector.replicate 64 0 ∧ s.buffer = Vector.replicate 64 0

/-- The locals of `chacha20_xor_stream` before its first iteration. -/
def XorState.start (st : Stack) (fin : RStream) (fout : WStream) (w : World) : XorState :=
  { counter := 0, keystream := st.keystream, buffer := st.buffer
    fin := fin, fout := fout, world := w, counters := [] }

section defs
variable (L : Libc) (key : Vector UInt8 32) (nonce : Vector UInt8 12)

/-- Some iterations that go round lead from one state to the other. -/
def GoesRound : XorState → XorState → Prop :=
  Relation.ReflTransGen fun s s' => xorStep L key nonce s = (.next, s')

/-- The iteration takes one of the two `return 0`. -/
def Fails (s : XorState) : Prop := (xorStep L key nonce s).1 = .return0

/-- What the two arrays hold behind a failing iteration is zero without being
wiped: where nothing was read, they were zero before; else the keystream block
is zero, and the bytes that were read leave the buffer zero. -/
def LeavesZeros (s : XorState) : Prop :=
  if (fread L 64 s.fin s.world).1.length = 0 then s.Wiped
  else chacha20_block key nonce s.counter = Vector.replicate 64 0 ∧
    blit s.buffer 0 (fread L 64 s.fin s.world).1 = Vector.replicate 64 0

end defs

/-! ## §2. The last iteration. -/

section last
variable {L : Libc} {key : Vector UInt8 32} {nonce : Vector UInt8 12}

/-- **Every run ends in one of two ways**: at the end of the file, wiped, or
in a failing iteration, with what this one left. -/
theorem xorLoop_last (fuel : Nat) :
    ∀ {s s' : XorState} {ok : Int}, xorLoop L key nonce fuel s = some (ok, s') →
      (ok = 1 ∧ s'.Wiped) ∨
        (ok = 0 ∧ ∃ last, GoesRound L key nonce s last ∧
          xorStep L key nonce last = (.return0, s')) := by
  induction fuel with
  | zero =>
      intro s s' ok h
      cases h
  | succ fuel ih =>
      intro s s' ok h
      rw [xorLoop] at h
      cases hstep : xorStep L key nonce s with
      | mk flow s₁ =>
          rw [hstep] at h
          cases flow with
          | next =>
              rcases ih h with hone | ⟨hzero, last, hround, hlast⟩
              · exact Or.inl hone
              · exact Or.inr ⟨hzero, last, Relation.ReflTransGen.head hstep hround, hlast⟩
          | leave =>
              left
              injection h with h
              injection h with hok hs
              subst hs
              exact ⟨hok.symm, rfl, rfl⟩
          | return0 =>
              right
              injection h with h
              injection h with hok hs
              subst hs
              exact ⟨hok.symm, s, Relation.ReflTransGen.refl, hstep⟩

/-- A failing iteration is where the run ends. -/
theorem xorLoop_of_fails {s last t : XorState} (hround : GoesRound L key nonce s last)
    (hlast : xorStep L key nonce last = (.return0, t)) (fuel : Nat) (r : Int × XorState) :
    xorLoop L key nonce fuel s = some r → r = (0, t) := by
  intro h
  induction hround using Relation.ReflTransGen.head_induction_on generalizing fuel with
  | refl =>
      cases fuel with
      | zero => cases h
      | succ fuel =>
          rw [xorLoop, hlast] at h
          exact (Option.some.inj h).symm
  | head hstep _ ih =>
      cases fuel with
      | zero => cases h
      | succ fuel =>
          rw [xorLoop, hstep] at h
          exact ih fuel h

theorem blit_nil (v : Vector UInt8 64) : blit v 0 [] = v := by
  apply Vector.ext
  intro i hi
  rw [blit_getElem, dif_neg]
  simp

/-- A zero keystream changes nothing. -/
theorem xorBuffer_zero (n : Nat) (buffer : Vector UInt8 64) :
    xorBuffer n buffer (Vector.replicate 64 0) = buffer := by
  apply Vector.ext
  intro i hi
  unfold xorBuffer
  simp

/-- **What a failing iteration leaves is zero only by chance.** -/
theorem wiped_of_fails_iff {last s' : XorState}
    (hlast : xorStep L key nonce last = (.return0, s')) :
    s'.Wiped ↔ LeavesZeros L key nonce last := by
  rw [xorStep_eq] at hlast
  unfold LeavesZeros
  split at hlast
  next hnone =>
    -- `if (ferror(fin)) return 0;`
    have hs' : afterRead L last = s' := by
      split at hlast
      · exact (Prod.mk.inj hlast).2
      · cases (Prod.mk.inj hlast).1
    rw [if_pos hnone, ← hs']
    have hnil : (fread L 64 last.fin last.world).1 = [] := List.length_eq_zero_iff.mp hnone
    unfold XorState.Wiped afterRead
    dsimp only
    rw [hnil, blit_nil]
  next hsome =>
    -- `if (fwrite(buffer, 1, n, fout) != n) return 0;`
    have hs' : afterWrite L key nonce last = s' := by
      split at hlast
      · exact (Prod.mk.inj hlast).2
      · cases (Prod.mk.inj hlast).1
    rw [if_neg hsome, ← hs']
    unfold XorState.Wiped afterWrite afterRead
    dsimp only
    constructor
    · intro ⟨hkey, hbuffer⟩
      rw [hkey, xorBuffer_zero] at hbuffer
      exact ⟨hkey, hbuffer⟩
    · intro ⟨hkey, hbuffer⟩
      rw [hkey, xorBuffer_zero]
      exact ⟨rfl, hbuffer⟩

/-! ## §3. Failing calls. -/

theorem length_stepOutput_eq (s : XorState) :
    (stepOutput L key nonce s).length = (fread L 64 s.fin s.world).1.length := by
  have hle : (fread L 64 s.fin s.world).1.length ≤ 64 := by
    unfold fread
    dsimp only
    cases L.fault s.world.calls with
    | none => exact List.length_take_le _ _
    | some k => exact Nat.le_trans (List.length_take_le _ _) (by omega)
  unfold stepOutput
  rw [List.length_take, Vector.length_toList]
  omega

/-- A read that leaves the error flag down did not fail. -/
theorem fread_clean {n : Nat} {f : RStream} {w : World} (h : (fread L n f w).2.1.err = false) :
    L.fault w.calls = none ∧ f.err = false := by
  have hr : L.fault w.calls = none := by
    by_contra hfault
    obtain ⟨k, hk⟩ := Option.ne_none_iff_exists'.mp hfault
    rw [fread_err_of_some L n f w hk] at h
    cases h
  rw [fread_err_of_none L n f w hr] at h
  exact ⟨hr, h⟩

/-- The output of an iteration is written in full exactly if the write does
not fail. -/
theorem stepOutput_written_iff (s : XorState) (hsome : (fread L 64 s.fin s.world).1.length ≠ 0) :
    (fwrite L (stepOutput L key nonce s) s.fout s.world.tick).1
        = (fread L 64 s.fin s.world).1.length ↔ L.fault (s.world.calls + 1) = none := by
  have hcount := fwrite_count_eq_iff L (stepOutput L key nonce s) s.fout s.world.tick
    (List.length_pos_iff.mp (by rw [length_stepOutput_eq]; omega))
  rw [length_stepOutput_eq] at hcount
  exact hcount

/-- An iteration that fails behind a good read has made a bad write. -/
theorem fault_of_return0 {s s' : XorState} (h : xorStep L key nonce s = (.return0, s'))
    (herr : s.fin.err = false) (hr : L.fault s.world.calls = none) :
    s'.world.calls = s.world.calls + 2 ∧ L.fault (s.world.calls + 1) ≠ none := by
  rw [xorStep_eq] at h
  split at h
  · split at h
    next hflag =>
      rw [fread_err_of_none L 64 s.fin s.world hr, herr] at hflag
      cases hflag
    next => cases (Prod.mk.inj h).1
  next hsome =>
    split at h
    next hshort =>
      obtain ⟨-, hs'⟩ := Prod.mk.inj h
      subst hs'
      exact ⟨rfl, fun hw => hshort ((stepOutput_written_iff s hsome).mpr hw)⟩
    next => cases (Prod.mk.inj h).1

/-- Going round keeps the flag down, if the read did not fail. -/
theorem err_of_next {s s' : XorState} (h : xorStep L key nonce s = (.next, s'))
    (herr : s.fin.err = false) (hr : L.fault s.world.calls = none) : s'.fin.err = false := by
  rw [xorStep_eq] at h
  split at h
  · split at h <;> cases (Prod.mk.inj h).1
  · split at h
    next => cases (Prod.mk.inj h).1
    next =>
      obtain ⟨-, hs'⟩ := Prod.mk.inj h
      subst hs'
      exact (fread_err_of_none L 64 s.fin s.world hr).trans herr

/-- The calls of an iteration that goes round without the error flag did not fail. -/
theorem clean_of_next {s s' : XorState} (h : xorStep L key nonce s = (.next, s'))
    (herr : s'.fin.err = false) :
    s.fin.err = false ∧ Clean L s.world.calls (s.world.calls + 2) ∧
      s'.world.calls = s.world.calls + 2 := by
  have herr₀ : (fread L 64 s.fin s.world).2.1.err = false ∧
      (fwrite L (stepOutput L key nonce s) s.fout s.world.tick).1
        = (fread L 64 s.fin s.world).1.length ∧
      (fread L 64 s.fin s.world).1.length ≠ 0 ∧ s'.world.calls = s.world.calls + 2 := by
    rw [xorStep_eq] at h
    split at h
    · split at h <;> cases (Prod.mk.inj h).1
    next hsome =>
      split at h
      · cases (Prod.mk.inj h).1
      next hfull =>
        obtain ⟨-, hs'⟩ := Prod.mk.inj h
        subst hs'
        exact ⟨herr, not_not.mp hfull, hsome, rfl⟩
  obtain ⟨herr₀, hfull, hsome, hcalls⟩ := herr₀
  obtain ⟨hr, herr⟩ := fread_clean herr₀
  have hw : L.fault (s.world.calls + 1) = none := (stepOutput_written_iff s hsome).mp hfull
  refine ⟨herr, ?_, hcalls⟩
  intro c hc hc'
  rcases Nat.eq_or_lt_of_le hc with heq | hlt
  · rw [← heq]
    exact hr
  · rw [show c = s.world.calls + 1 by omega]
    exact hw

/-- Leaving the loop means that the read found the end of the file. -/
theorem clean_of_leave {s s' : XorState} (h : xorStep L key nonce s = (.leave, s')) :
    s.fin.err = false ∧ L.fault s.world.calls = none ∧
      s'.world.calls = s.world.calls + 1 := by
  have herr : (fread L 64 s.fin s.world).2.1.err = false ∧ afterRead L s = s' := by
    rw [xorStep_eq] at h
    split at h
    · split at h
      · cases (Prod.mk.inj h).1
      next herr => exact ⟨Bool.eq_false_iff.mpr herr, (Prod.mk.inj h).2⟩
    · split at h <;> cases (Prod.mk.inj h).1
  obtain ⟨herr, hs'⟩ := herr
  obtain ⟨hr, herr⟩ := fread_clean herr
  exact ⟨herr, hr, by rw [← hs']; rfl⟩

/-- Every iteration makes a call. -/
theorem calls_lt_of_step (s : XorState) :
    s.world.calls < (xorStep L key nonce s).2.world.calls := by
  rw [xorStep_eq]
  split
  · split <;> exact Nat.lt_succ_self _
  · split
    · show s.world.calls < s.world.calls + 1 + 1
      omega
    · show s.world.calls < s.world.calls + 1 + 1
      omega

theorem calls_lt_of_loop (fuel : Nat) :
    ∀ {s s' : XorState} {ok : Int}, xorLoop L key nonce fuel s = some (ok, s') →
      s.world.calls < s'.world.calls := by
  induction fuel with
  | zero =>
      intro s s' ok h
      cases h
  | succ fuel ih =>
      intro s s' ok h
      have hlt := @calls_lt_of_step L key nonce s
      rw [xorLoop] at h
      cases hstep : xorStep L key nonce s with
      | mk flow s₁ =>
          rw [hstep] at h hlt
          cases flow with
          | next => exact Nat.lt_trans hlt (ih h)
          | leave =>
              injection h with h
              rw [← (Prod.mk.inj h).2]
              exact hlt
          | return0 =>
              injection h with h
              rw [← (Prod.mk.inj h).2]
              exact hlt

/-- **The loop returns 1 exactly if no call of the run failed** and the error
flag was down before. -/
theorem xorLoop_clean_iff (fuel : Nat) :
    ∀ {s s' : XorState} {ok : Int}, xorLoop L key nonce fuel s = some (ok, s') →
      (ok = 1 ↔ s.fin.err = false ∧ Clean L s.world.calls s'.world.calls) := by
  induction fuel with
  | zero =>
      intro s s' ok h
      cases h
  | succ fuel ih =>
      intro s s' ok h
      have hlt := calls_lt_of_loop (fuel + 1) h
      rw [xorLoop] at h
      cases hstep : xorStep L key nonce s with
      | mk flow s₁ =>
          rw [hstep] at h
          cases flow with
          | next =>
              have hrest := ih h
              have hlt₁ := calls_lt_of_loop fuel h
              constructor
              · intro hone
                obtain ⟨herr₁, hclean₁⟩ := hrest.mp hone
                obtain ⟨herr, hclean, hcalls⟩ := clean_of_next hstep herr₁
                refine ⟨herr, fun c hc hc' => ?_⟩
                by_cases hfirst : c < s.world.calls + 2
                · exact hclean c hc hfirst
                · exact hclean₁ c (by omega) hc'
              · rintro ⟨herr, hclean⟩
                have hr := hclean _ (Nat.le_refl _) hlt
                have herr₁ := err_of_next hstep herr hr
                obtain ⟨-, -, hcalls⟩ := clean_of_next hstep herr₁
                exact hrest.mpr ⟨herr₁, hclean.sub (by omega) (Nat.le_refl _)⟩
          | leave =>
              obtain ⟨herr, hr, hcalls⟩ := clean_of_leave hstep
              injection h with h
              obtain ⟨hok, hs⟩ := Prod.mk.inj h
              have hcalls' : s'.world.calls = s.world.calls + 1 := by
                rw [← hs]
                exact hcalls
              refine ⟨fun _ => ⟨herr, fun c hc hc' => ?_⟩, fun _ => hok.symm⟩
              rw [show c = s.world.calls by omega]
              exact hr
          | return0 =>
              injection h with h
              obtain ⟨hok, hs⟩ := Prod.mk.inj h
              constructor
              · intro hone
                rw [← hok] at hone
                cases hone
              · rintro ⟨herr, hclean⟩
                -- the failed write is a call of this run
                have hr := hclean _ (Nat.le_refl _) hlt
                obtain ⟨hcalls, hw⟩ := fault_of_return0 hstep herr hr
                rw [hs] at hcalls
                exact absurd (hclean _ (by omega) (by omega)) hw

end last

/-! ## §4. By input and schedule. -/

/-- A call is about to read `input` and append to `header`; its library calls
may fail. -/
structure OpenStreams (L : Libc) (fin : RStream) (fout : WStream) (w : World)
    (header input : List UInt8) : Prop where
  left_eq : fin.left w.fs = input
  eofOk : fin.EofOk w.fs
  atEnd : fout.AtEnd w.fs
  accepted_eq : fout.accepted w.fs = header
  pending_le : fout.pending.length ≤ L.bufsiz
  /-- What is written does not reach what is still to be read. -/
  apart : input = [] ∨ fin.ino ≠ fout.ino ∨ header.length + input.length ≤ fin.pos

section schedule
variable {L : Libc} {fin : RStream} {fout : WStream} {w : World} {header input : List UInt8}

theorem OpenStreams.streaming (h : OpenStreams L fin fout w header input) (st : Stack) :
    Streaming L (XorState.start st fin fout w) input header 0 :=
  ⟨h.left_eq, h.eofOk, h.atEnd, h.accepted_eq, rfl, h.pending_le, h.apart⟩

theorem OpenStreams.at (h : OpenStreams L fin fout w header input) (key : Vector UInt8 32)
    (nonce : Vector UInt8 12) (st : Stack) :
    (Course.mk L key nonce st input w.calls).At (XorState.start st fin fout w) 0 := by
  refine ⟨h.left_eq, h.eofOk, h.atEnd, ?_, rfl, rfl, rfl, rfl⟩
  show input = [] ∨ fin.ino ≠ fout.ino ∨ (fout.accepted w.fs).length + input.length ≤ fin.pos
  rw [h.accepted_eq]
  exact h.apart

/-- The iterations that have gone round are the first ones of the course. -/
theorem at_of_goesRound {c : Course} {s last : XorState} (h : c.At s 0)
    (hround : GoesRound c.L c.key c.nonce s last) :
    ∃ i, c.At last i ∧ ∀ j < i, ¬ c.Stops j := by
  induction hround with
  | refl => exact ⟨0, h, fun j hj => absurd hj (Nat.not_lt_zero j)⟩
  | tail _ hstep ih =>
      obtain ⟨i, hat, hgoes⟩ := ih
      obtain ⟨hgo, hnext⟩ := hat.next hstep
      refine ⟨i + 1, hnext, fun j hj => ?_⟩
      rcases Nat.lt_succ_iff_lt_or_eq.mp hj with hlt | heq
      · exact hgoes j hlt
      · rw [heq]
        exact hgo

theorem leavesZeros_iff {c : Course} {last : XorState} {i : Nat} (h : c.At last i) :
    LeavesZeros c.L c.key c.nonce last ↔ c.Zeros i := by
  unfold LeavesZeros Course.Zeros XorState.Wiped
  rw [h.read, h.keystream_eq, h.buffer_eq, h.counter_eq]
  by_cases hnil : c.piece i = []
  · rw [if_pos (by rw [hnil]; rfl), if_pos hnil]
  · rw [if_neg (fun hc => hnil (List.length_eq_zero_iff.mp hc)), if_neg hnil]
    exact Iff.rfl

/-- **The call returns 1 exactly if none of the calls that its input needs
fails**: a read and a write for each block, and the read behind the last one. -/
theorem one_iff_clean {key : Vector UInt8 32} {nonce : Vector UInt8 12} {st : Stack}
    (h : OpenStreams L fin fout w header input) {fuel : Nat} {ok : Int} {s : XorState}
    (hrun : chacha20_xor_stream L fuel key nonce st fin fout w = some (ok, s)) :
    ok = 1 ↔ fin.err = false ∧ Clean L w.calls (w.calls + (2 * blockCount input.length + 1)) := by
  have hstream := h.streaming st
  constructor
  · intro hone
    rw [hone] at hrun
    exact ⟨((xorLoop_clean_iff fuel hrun).mp rfl).1,
      xorLoop_one key nonce fuel _ s input header 0 hstream hrun⟩
  · rintro ⟨herr, hclean⟩
    obtain ⟨s', hloop, -⟩ := xorLoop_clean key nonce _ _ input header 0 rfl hstream herr hclean
    have hmono := xorLoop_mono key nonce fuel _ _ hrun (fuel + blockCount input.length + 1)
      (by omega)
    have hsame := (hloop (fuel + blockCount input.length + 1) (by omega)).symm.trans hmono
    injection hsame with hsame
    exact (Prod.mk.inj hsame).1.symm

end schedule

/-! ## §5. The arrays at the return. -/

/-- **THE SECRETS ARE WIPED EXACTLY IF NO READ AND NO WRITE FAILED**, apart
from the case that the failing iteration leaves zeros by itself.  On streams
that do not disturb each other the input and the fault schedule decide it: no
call fails of those that the input needs, or the last iteration of the course
leaves zeros. -/
theorem secrets_wiped_iff (L : Libc) (fuel : Nat) (key : Vector UInt8 32)
    (nonce : Vector UInt8 12) (st : Stack) (fin : RStream) (fout : WStream) (w : World)
    (ok : Int) (s : XorState)
    (h : chacha20_xor_stream L fuel key nonce st fin fout w = some (ok, s)) :
    (s.Wiped ↔ (fin.err = false ∧ Clean L w.calls s.world.calls) ∨
      ∃ last, GoesRound L key nonce (XorState.start st fin fout w) last ∧
        Fails L key nonce last ∧ LeavesZeros L key nonce last) ∧
    ∀ header input, OpenStreams L fin fout w header input →
      (s.Wiped ↔
        (fin.err = false ∧ Clean L w.calls (w.calls + (2 * blockCount input.length + 1))) ∨
        ∃ i, (Course.mk L key nonce st input w.calls).Last i ∧
          (Course.mk L key nonce st input w.calls).Zeros i) := by
  have hclean : ok = 1 ↔ fin.err = false ∧ Clean L w.calls s.world.calls :=
    xorLoop_clean_iff fuel h
  have hlasts := xorLoop_last fuel h
  constructor
  · constructor
    · intro hwiped
      rcases hlasts with ⟨hone, -⟩ | ⟨-, last, hround, hlast⟩
      · exact Or.inl (hclean.mp hone)
      · refine Or.inr ⟨last, hround, ?_, (wiped_of_fails_iff hlast).mp hwiped⟩
        unfold Fails
        rw [hlast]
    · intro hcase
      rcases hlasts with ⟨-, hwiped⟩ | ⟨hzero, -⟩
      · exact hwiped
      · rcases hcase with hnone | ⟨last, hround, hfails, hzeros⟩
        · rw [hclean.mpr hnone] at hzero
          cases hzero
        · -- the run has one failing iteration only
          have hlast : xorStep L key nonce last = (.return0, (xorStep L key nonce last).2) :=
            Prod.ext hfails rfl
          have heq := xorLoop_of_fails hround hlast fuel (ok, s) h
          rw [(Prod.mk.inj heq).2]
          exact (wiped_of_fails_iff hlast).mpr hzeros
  · intro header input hopen
    rw [← one_iff_clean hopen h]
    rcases hlasts with ⟨hone, hwiped⟩ | ⟨hzero, last, hround, hlast⟩
    · exact ⟨fun _ => Or.inl hone, fun _ => hwiped⟩
    · obtain ⟨i, hat, hgoes⟩ := at_of_goesRound (hopen.at key nonce st) hround
      have hends : (Course.mk L key nonce st input w.calls).Last i := ⟨hgoes, hat.return0 hlast⟩
      rw [wiped_of_fails_iff hlast, leavesZeros_iff hat]
      constructor
      · exact fun hzeros => Or.inr ⟨i, hends, hzeros⟩
      · rintro (hone | ⟨j, hj, hzeros⟩)
        · rw [hone] at hzero
          cases hzero
        · rw [hends.unique hj]
          exact hzeros

/-- One byte, read and written without a fault. -/
theorem secrets_wiped_iff_byte :
    ∃ s, chacha20_xor_stream (Libc.plain fun _ => none) 2 (Vector.replicate 32 0)
        (Vector.replicate 12 0) ⟨Vector.replicate 64 1, Vector.replicate 64 1⟩
        ⟨0, 0, [], false, false⟩ ⟨1, 0, []⟩
        (World.start ((FileSystem.single [97] [65]).truncate [98]).2) = some (1, s) ∧
      s.Wiped := by
  have hopen : OpenStreams (Libc.plain fun _ => none) ⟨0, 0, [], false, false⟩ ⟨1, 0, []⟩
      (World.start ((FileSystem.single [97] [65]).truncate [98]).2) [] [65] :=
    ⟨rfl, nofun, rfl, rfl, Nat.zero_le _, Or.inr (Or.inl (by decide))⟩
  refine ⟨_, rfl, ?_⟩
  refine ((secrets_wiped_iff (Libc.plain fun _ => none) 2 (Vector.replicate 32 0)
    (Vector.replicate 12 0) ⟨Vector.replicate 64 1, Vector.replicate 64 1⟩
    ⟨0, 0, [], false, false⟩ ⟨1, 0, []⟩
    (World.start ((FileSystem.single [97] [65]).truncate [98]).2) 1 _ rfl).2 [] [65] hopen).mpr ?_
  exact Or.inl ⟨rfl, fun _ _ _ => rfl⟩

/-- One byte whose write fails: the keystream block stays on the stack. -/
theorem secrets_left_by_short_write :
    ∃ s, chacha20_xor_stream (Libc.plain fun c => if c = 1 then some 0 else none) 2
        (Vector.replicate 32 0) (Vector.replicate 12 0)
        ⟨Vector.replicate 64 0, Vector.replicate 64 0⟩ ⟨0, 0, [], false, false⟩ ⟨1, 0, []⟩
        (World.start ((FileSystem.single [97] [65]).truncate [98]).2) = some (0, s) ∧
      ¬ s.Wiped := by
  refine ⟨_, rfl, ?_⟩
  intro hwiped
  have hbyte : (chacha20_block (Vector.replicate 32 0) (Vector.replicate 12 0) 0)[0] = 0x76 := by
    decide +kernel
  have hzero : (chacha20_block (Vector.replicate 32 0) (Vector.replicate 12 0) 0)
      = Vector.replicate 64 0 := hwiped.1
  rw [hzero] at hbyte
  exact absurd hbyte (by decide)

end ConcurrencyCrypto.Crypto
