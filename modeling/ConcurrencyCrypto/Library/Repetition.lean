/-
  ConcurrencyCrypto.Library.Repetition
  ────────────────────────────────────
  **READING A WORD ROUND AND ROUND.**

  `cyclic a` reads `a` again from its start behind its end.  Two words with
  a common root (both are repetitions of one word) give the same reading for
  ever (`CommonRoot.cyclic_eq`).  Conversely the first `n` places decide it
  once `|a| + |b| ≤ n + gcd(|a|, |b|)` (`commonRoot_of_agree`): what is read
  has both lengths as periods, so by the periodicity lemma of Fine and Wilf
  also their gcd.
-/
import ConcurrencyCrypto.Library.BlockStream

namespace ConcurrencyCrypto.Library

variable {α : Type*}

/-- Item `i` of the reading. -/
def cyclic (a : List α) (i : Nat) : Option α := a[i % a.length]?

/-- `w`, written `p` times. -/
def repeated (w : List α) (p : Nat) : List α := (List.replicate p w).flatten

/-- `u` is the beginning of the reading. -/
def BeginsCyclic (a u : List α) : Prop := ∀ i < u.length, u[i]? = cyclic a i

/-- Both words are repetitions of one word. -/
def CommonRoot (a b : List α) : Prop :=
  ∃ (w : List α) (p q : Nat), 1 ≤ p ∧ 1 ≤ q ∧ a = repeated w p ∧ b = repeated w q

/-! ## §1. Repetitions. -/

@[simp] theorem length_repeated (w : List α) (p : Nat) :
    (repeated w p).length = p * w.length := by
  simp [repeated]

theorem getElem?_repeated {w : List α} {p i : Nat} (hi : i < p * w.length) :
    (repeated w p)[i]? = cyclic w i := by
  have hpos : 0 < w.length := Nat.pos_of_lt_mul_left hi
  have hdiv : i / w.length < p := Nat.div_lt_of_lt_mul (by rwa [Nat.mul_comm])
  unfold repeated cyclic
  rw [getElem?_flatten_of_forall hpos _ fun b hb => by rw [List.eq_of_mem_replicate hb],
    List.getElem?_replicate, if_pos hdiv]
  rfl

/-- **A repetition is read like its root.** -/
theorem cyclic_repeated (w : List α) {p : Nat} (hp : 1 ≤ p) (i : Nat) :
    cyclic (repeated w p) i = cyclic w i := by
  by_cases hw : w.length = 0
  · -- nothing to read in either
    have hw' := List.length_eq_zero_iff.mp hw
    subst hw'
    have hnil : repeated ([] : List α) p = [] := List.length_eq_zero_iff.mp (by simp)
    rw [hnil]
  · have hpos : 0 < p * w.length := Nat.mul_pos hp (Nat.pos_of_ne_zero hw)
    have hlt : i % (p * w.length) < p * w.length := Nat.mod_lt i hpos
    calc cyclic (repeated w p) i
        = (repeated w p)[i % (p * w.length)]? := by rw [cyclic, length_repeated]
      _ = cyclic w (i % (p * w.length)) := getElem?_repeated hlt
      _ = cyclic w i := by rw [cyclic, cyclic, Nat.mod_mul_left_mod]

theorem CommonRoot.cyclic_eq {a b : List α} (h : CommonRoot a b) (i : Nat) :
    cyclic a i = cyclic b i := by
  obtain ⟨w, p, q, hp, hq, rfl, rfl⟩ := h
  rw [cyclic_repeated w hp, cyclic_repeated w hq]

/-! ## §2. Agreement on a stretch. -/

/-- A prefix whose length a period divides is a repetition. -/
theorem take_eq_repeated {u : List α} {g m : Nat} (hper : u.HasPeriod g) (hg : 0 < g)
    (hdvd : g ∣ m) (hm : m ≤ u.length) : u.take m = repeated (u.take g) (m / g) := by
  by_cases hm0 : m = 0
  · subst hm0
    simp [repeated]
  · have hgm : g ≤ m := Nat.le_of_dvd (Nat.pos_of_ne_zero hm0) hdvd
    have hlen : (u.take g).length = g := by
      rw [List.length_take]
      omega
    have hmul : m / g * g = m := Nat.div_mul_cancel hdvd
    apply List.ext_getElem?
    intro i
    by_cases hi : i < m
    · rw [getElem?_repeated (by rwa [hlen, hmul]), cyclic, hlen, List.getElem?_take, if_pos hi,
        List.getElem?_take, if_pos (Nat.mod_lt i hg), hper.getElem?_mod g i u (by omega)]
    · rw [List.getElem?_eq_none (by rw [List.length_take]; omega),
        List.getElem?_eq_none (by rw [length_repeated, hlen, hmul]; omega)]

/-- The first `n` items of the reading. -/
theorem getElem?_take_repeated {a : List α} (ha : a ≠ []) {n i : Nat} (hi : i < n) :
    ((repeated a n).take n)[i]? = cyclic a i := by
  have hpos := List.length_pos_iff.mpr ha
  have hle : n ≤ n * a.length := Nat.le_mul_of_pos_right n hpos
  rw [List.getElem?_take, if_pos hi, getElem?_repeated (by omega)]

theorem cyclic_mod (a : List α) (i : Nat) : cyclic a (i % a.length) = cyclic a i := by
  rw [cyclic, cyclic, Nat.mod_mod]

theorem cyclic_of_lt {a : List α} {i : Nat} (hi : i < a.length) : cyclic a i = a[i]? := by
  rw [cyclic, Nat.mod_eq_of_lt hi]

/-- **The reading, item by item.** -/
theorem BeginsCyclic.concat {a u : List α} (h : BeginsCyclic a u) {x : α}
    (hx : cyclic a u.length = some x) : BeginsCyclic a (u ++ [x]) := by
  intro i hi
  rw [List.length_append, List.length_singleton] at hi
  by_cases hlt : i < u.length
  · rw [List.getElem?_append_left hlt, h i hlt]
  · have heq : i = u.length := by omega
    rw [heq, List.getElem?_concat_length, hx]

/-- A stretch of the reading has the word's length as a period. -/
theorem BeginsCyclic.hasPeriod {a u : List α} (h : BeginsCyclic a u) :
    u.HasPeriod a.length := by
  rw [List.hasPeriod_iff_forall_getElem?_mod]
  intro i hi
  rw [h i hi, h (i % a.length) (Nat.lt_of_le_of_lt (Nat.mod_le i _) hi), cyclic_mod]

/-- A word is a prefix of its reading. -/
theorem BeginsCyclic.take_eq {a u : List α} (h : BeginsCyclic a u)
    (hle : a.length ≤ u.length) : u.take a.length = a := by
  apply List.ext_getElem?
  intro i
  rw [List.getElem?_take]
  split
  next hi => rw [h i (by omega), cyclic_of_lt hi]
  next hi => rw [List.getElem?_eq_none (by omega)]

/-- **AGREEMENT ON ENOUGH PLACES IS A COMMON ROOT** (Fine and Wilf). -/
theorem commonRoot_of_agree {a b : List α} (ha : a ≠ []) (hb : b ≠ []) {n : Nat}
    (hn : a.length + b.length ≤ n + Nat.gcd a.length b.length)
    (h : ∀ i < n, cyclic a i = cyclic b i) : CommonRoot a b := by
  have hapos := List.length_pos_iff.mpr ha
  have hbpos := List.length_pos_iff.mpr hb
  have hga : Nat.gcd a.length b.length ≤ a.length := Nat.gcd_le_left _ hapos
  have hgb : Nat.gcd a.length b.length ≤ b.length := Nat.gcd_le_right _ hbpos
  have hg : 0 < Nat.gcd a.length b.length := Nat.gcd_pos_of_pos_left _ hapos
  -- the `n` items both readings begin with
  obtain ⟨u, hlen, hua⟩ : ∃ u : List α, u.length = n ∧ BeginsCyclic a u := by
    have hlen : ((repeated a n).take n).length = n := by
      rw [List.length_take, length_repeated]
      exact Nat.min_eq_left (Nat.le_mul_of_pos_right n hapos)
    exact ⟨_, hlen, fun i hi => getElem?_take_repeated ha (by omega)⟩
  have hub : BeginsCyclic b u := by
    intro i hi
    rw [hua i hi, h i (by omega)]
  have hper : u.HasPeriod (Nat.gcd a.length b.length) :=
    hua.hasPeriod.gcd hub.hasPeriod (by omega)
  refine ⟨u.take (Nat.gcd a.length b.length), a.length / Nat.gcd a.length b.length,
    b.length / Nat.gcd a.length b.length, Nat.div_pos hga hg, Nat.div_pos hgb hg, ?_, ?_⟩
  · rw [← take_eq_repeated hper hg (Nat.gcd_dvd_left _ _) (by omega),
      hua.take_eq (by omega)]
  · rw [← take_eq_repeated hper hg (Nat.gcd_dvd_right _ _) (by omega),
      hub.take_eq (by omega)]

end ConcurrencyCrypto.Library
