/-
  ConcurrencyCrypto.Library.Lines
  ───────────────────────────────
  **INPUT READ LINE BY LINE: `fgets`.**

  A line is taken with its newline; only the last one of an input may be
  without.  A buffer of `n + 1` bytes takes a line whole exactly when the line
  has at most `n` bytes, and otherwise its first `n` bytes, so that the next
  call finds the rest:

    • `rawLines_cases` — an input is empty, or one line and what follows it;
    • `fgets_line`     — a line that fits is read whole;
    • `fgets_ne_line`  — a line that does not fit is not.
-/
import ConcurrencyCrypto.Library.Text

namespace ConcurrencyCrypto.Library

/-! ## §1. Definitions. -/

/-- What `fgets(buffer, n + 1, stdin)` stores before the NUL, and what stays
in the input. -/
def fgets : Nat → List UInt8 → List UInt8 × List UInt8
  | 0, input => ([], input)
  | _ + 1, [] => ([], [])
  | n + 1, b :: input =>
      if b = 10 then ([b], input) else (b :: (fgets n input).1, (fgets n input).2)

/-- The lines, each with its newline. -/
def rawLines : List UInt8 → List (List UInt8)
  | [] => []
  | b :: input =>
      if b = 10 then [b] :: rawLines input
      else
        match rawLines input with
        | [] => [[b]]
        | l :: ls => (b :: l) :: ls

/-- A line without its newline. -/
def lineText (l : List UInt8) : List UInt8 := l.takeWhile (· != 10)

/-! ## §2. The lines of an input. -/

@[simp] theorem rawLines_nil : rawLines [] = [] := rfl

/-- A line that is ended. -/
theorem rawLines_append_newline {text : List UInt8} (h : 10 ∉ text) (rest : List UInt8) :
    rawLines (text ++ 10 :: rest) = (text ++ [10]) :: rawLines rest := by
  induction text with
  | nil => simp [rawLines]
  | cons b text ih =>
      have hb : b ≠ 10 := fun hb => h (hb ▸ List.mem_cons_self)
      show rawLines (b :: (text ++ 10 :: rest)) = _
      simp only [rawLines, if_neg hb, ih (fun hc => h (List.mem_cons_of_mem b hc))]
      rfl

/-- The last line. -/
theorem rawLines_of_not_mem {text : List UInt8} (hne : text ≠ []) (h : 10 ∉ text) :
    rawLines text = [text] := by
  induction text with
  | nil => exact absurd rfl hne
  | cons b text ih =>
      have hb : b ≠ 10 := fun hb => h (hb ▸ List.mem_cons_self)
      by_cases hnil : text = []
      · simp [rawLines, hb, hnil]
      · simp only [rawLines, if_neg hb, ih hnil (fun hc => h (List.mem_cons_of_mem b hc))]

/-- **An input is empty, or a line and what follows it.** -/
theorem rawLines_cases (input : List UInt8) :
    input = [] ∨
      (∃ text rest, 10 ∉ text ∧ input = text ++ 10 :: rest ∧
        rawLines input = (text ++ [10]) :: rawLines rest) ∨
      (input ≠ [] ∧ 10 ∉ input ∧ rawLines input = [input]) := by
  by_cases hnl : 10 ∈ input
  · obtain ⟨text, rest, rfl, htext⟩ := List.eq_append_cons_of_mem hnl
    exact Or.inr (Or.inl ⟨text, rest, htext, rfl, rawLines_append_newline htext rest⟩)
  · by_cases hnil : input = []
    · exact Or.inl hnil
    · exact Or.inr (Or.inr ⟨hnil, hnl, rawLines_of_not_mem hnil hnl⟩)

theorem rawLines_eq_nil {input : List UInt8} : rawLines input = [] ↔ input = [] := by
  constructor
  · intro h
    rcases rawLines_cases input with hnil | ⟨text, rest, -, -, hraw⟩ | ⟨-, -, hraw⟩
    · exact hnil
    · exact absurd (hraw.symm.trans h) (List.cons_ne_nil _ _)
    · exact absurd (hraw.symm.trans h) (List.cons_ne_nil _ _)
  · rintro rfl
    rfl

/-- The first line, and the input behind it. -/
theorem rawLines_cons {input l : List UInt8} {ls : List (List UInt8)}
    (h : rawLines input = l :: ls) :
    ∃ rest, input = l ++ rest ∧ rawLines rest = ls ∧
      ((∃ text, 10 ∉ text ∧ l = text ++ [10]) ∨ (l ≠ [] ∧ 10 ∉ l ∧ rest = [])) := by
  rcases rawLines_cases input with rfl | ⟨text, rest, htext, rfl, hraw⟩ | ⟨hne, hnl, hraw⟩
  · exact absurd h (by simp)
  · rw [hraw] at h
    injection h with hl hls
    exact ⟨rest, by rw [← hl, List.append_assoc]; rfl, hls, Or.inl ⟨text, htext, hl.symm⟩⟩
  · rw [hraw] at h
    injection h with hl hls
    exact ⟨[], by rw [List.append_nil, hl], hls, Or.inr ⟨hl ▸ hne, hl ▸ hnl, rfl⟩⟩

/-- The lines are the input. -/
theorem flatten_rawLines (input : List UInt8) : (rawLines input).flatten = input := by
  generalize hls : rawLines input = ls
  induction ls generalizing input with
  | nil => rw [rawLines_eq_nil.mp hls, List.flatten_nil]
  | cons l ls ih =>
      obtain ⟨rest, hinput, hrest, -⟩ := rawLines_cons hls
      rw [List.flatten_cons, ih rest hrest, hinput]

/-- A line is its text and at most a newline. -/
theorem length_le_lineText {input l : List UInt8} {ls : List (List UInt8)}
    (h : rawLines input = l :: ls) : l.length ≤ (lineText l).length + 1 := by
  unfold lineText
  obtain ⟨rest, -, -, ⟨text, htext, rfl⟩ | ⟨-, hnl, -⟩⟩ := rawLines_cons h
  · have hall : ∀ b ∈ text, (b != 10) = true := by
      intro b hb
      rw [bne_iff_ne]
      exact fun heq => htext (heq ▸ hb)
    rw [List.takeWhile_append_of_pos hall]
    simp
  · have hall : ∀ b ∈ l, (b != 10) = true := by
      intro b hb
      rw [bne_iff_ne]
      exact fun heq => hnl (heq ▸ hb)
    rw [List.takeWhile_eq_self_iff.mpr hall]
    omega

/-! ## §3. `fgets`. -/

theorem fgets_length_le (n : Nat) : ∀ input : List UInt8, (fgets n input).1.length ≤ n := by
  induction n with
  | zero => exact fun _ => Nat.le_refl 0
  | succ n ih =>
      intro input
      cases input with
      | nil => exact Nat.zero_le _
      | cons b input =>
          unfold fgets
          by_cases hb : b = 10
          · rw [if_pos hb]
            exact Nat.succ_le_succ (Nat.zero_le n)
          · rw [if_neg hb]
            exact Nat.succ_le_succ (ih input)

/-- A line that is ended and fits. -/
theorem fgets_append_newline {text : List UInt8} (h : 10 ∉ text) (rest : List UInt8) :
    ∀ {n : Nat}, text.length < n → fgets n (text ++ 10 :: rest) = (text ++ [10], rest) := by
  induction text with
  | nil =>
      intro n hn
      obtain ⟨m, rfl⟩ : ∃ m, n = m + 1 := ⟨n - 1, by simp only [List.length_nil] at hn; omega⟩
      simp [fgets]
  | cons b text ih =>
      intro n hn
      have hb : b ≠ 10 := fun hb => h (hb ▸ List.mem_cons_self)
      rw [List.length_cons] at hn
      obtain ⟨m, rfl⟩ : ∃ m, n = m + 1 := ⟨n - 1, by omega⟩
      show fgets (m + 1) (b :: (text ++ 10 :: rest)) = _
      rw [fgets, if_neg hb, ih (fun hc => h (List.mem_cons_of_mem b hc)) (by omega)]
      rfl

/-- A last line that fits. -/
theorem fgets_of_not_mem {text : List UInt8} (h : 10 ∉ text) :
    ∀ {n : Nat}, text.length ≤ n → fgets n text = (text, []) := by
  induction text with
  | nil =>
      intro n hn
      cases n with
      | zero => rfl
      | succ n => rfl
  | cons b text ih =>
      intro n hn
      have hb : b ≠ 10 := fun hb => h (hb ▸ List.mem_cons_self)
      rw [List.length_cons] at hn
      obtain ⟨m, rfl⟩ : ∃ m, n = m + 1 := ⟨n - 1, by omega⟩
      rw [fgets, if_neg hb, ih (fun hc => h (List.mem_cons_of_mem b hc)) (by omega)]

/-- **A LINE THAT FITS IS READ WHOLE.** -/
theorem fgets_line {input l : List UInt8} {ls : List (List UInt8)} (h : rawLines input = l :: ls)
    {n : Nat} (hn : l.length ≤ n) :
    (fgets n input).1 = l ∧ rawLines (fgets n input).2 = ls := by
  obtain ⟨rest, rfl, hrest, ⟨text, htext, rfl⟩ | ⟨-, hnl, rfl⟩⟩ := rawLines_cons h
  · rw [List.length_append, List.length_singleton] at hn
    rw [List.append_assoc, List.singleton_append, fgets_append_newline htext rest (by omega)]
    exact ⟨rfl, hrest⟩
  · rw [List.append_nil, fgets_of_not_mem hnl hn]
    exact ⟨rfl, hrest⟩

/-- A line that does not fit is not. -/
theorem fgets_ne_line {l : List UInt8} {n : Nat} (hn : n < l.length) (input : List UInt8) :
    (fgets n input).1 ≠ l := by
  intro heq
  have hle := fgets_length_le n input
  rw [heq] at hle
  omega

/-! ## §4. Words inside of lines. -/

/-- What stays of `l` behind its first word. -/
def behind (l : List UInt8) : List UInt8 := (l.dropWhile isspace).dropWhile (!isspace ·)

theorem behind_suffix (l : List UInt8) : behind l <:+ l :=
  (List.dropWhile_suffix _).trans (List.dropWhile_suffix _)

/-- A word takes some of the text. -/
theorem behind_length_lt {l w : List UInt8} {ws : List (List UInt8)} (h : words l = w :: ws) :
    (behind l).length < l.length := by
  rw [← words_dropWhile] at h
  unfold behind
  cases hdrop : l.dropWhile isspace with
  | nil =>
      rw [hdrop] at h
      exact absurd h (List.cons_ne_nil _ _).symm
  | cons b rest =>
      have hb : isspace b = false := by
        have := List.head_dropWhile_not isspace (l := l) (by rw [hdrop]; simp)
        simpa [hdrop] using this
      rw [List.dropWhile_cons_of_pos (by simp [hb])]
      have hrest : (rest.dropWhile (!isspace ·)).length ≤ rest.length :=
        (List.dropWhile_suffix _).length_le
      have hl : (b :: rest).length ≤ l.length := by
        rw [← hdrop]
        exact (List.dropWhile_suffix _).length_le
      rw [List.length_cons] at hl
      omega

/-- White space in front is skipped. -/
theorem scanWord_blank {blank : List UInt8} (h : ∀ b ∈ blank, isspace b = true)
    (rest : List UInt8) : scanWord (blank ++ rest) = scanWord rest := by
  unfold scanWord
  rw [List.dropWhile_append_of_pos h]

/-- A text without words is white space. -/
theorem isspace_of_words_eq_nil {l : List UInt8} (h : words l = []) :
    ∀ b ∈ l, isspace b = true := by
  rw [← words_dropWhile] at h
  rw [← List.dropWhile_eq_nil_iff]
  cases hdrop : l.dropWhile isspace with
  | nil => rfl
  | cons b rest =>
      have hb : isspace b = false := by
        have := List.head_dropWhile_not isspace (l := l) (by rw [hdrop]; simp)
        simpa [hdrop] using this
      rw [hdrop, words_takeWhile hb] at h
      exact absurd h (List.cons_ne_nil _ _)

/-- The first word of a text, and the rest. -/
theorem words_behind {l w : List UInt8} {ws : List (List UInt8)} (h : words l = w :: ws) :
    scanWord l = some (w, behind l) ∧ words (behind l) = ws := by
  rw [← words_dropWhile] at h
  unfold scanWord behind
  cases hdrop : l.dropWhile isspace with
  | nil =>
      rw [hdrop] at h
      exact absurd h (List.cons_ne_nil _ _).symm
  | cons b rest =>
      have hb : isspace b = false := by
        have := List.head_dropWhile_not isspace (l := l) (by rw [hdrop]; simp)
        simpa [hdrop] using this
      rw [hdrop, words_takeWhile hb] at h
      injection h with hw hws
      exact ⟨by rw [← hw], hws⟩

/-- `dropWhile` does not go behind a byte that stops it. -/
theorem span_append_of_mem {p : UInt8 → Bool} {u : List UInt8} {x : UInt8} (hx : x ∈ u)
    (hp : p x = false) (rest : List UInt8) :
    (u ++ rest).takeWhile p = u.takeWhile p ∧ (u ++ rest).dropWhile p = u.dropWhile p ++ rest := by
  induction u with
  | nil => cases hx
  | cons b u ih =>
      cases hb : p b with
      | false =>
          have hneg : ¬ p b = true := by rw [hb]; exact Bool.false_ne_true
          rw [List.cons_append, List.takeWhile_cons_of_neg hneg, List.dropWhile_cons_of_neg hneg,
            List.takeWhile_cons_of_neg hneg, List.dropWhile_cons_of_neg hneg]
          exact ⟨rfl, rfl⟩
      | true =>
          have hmem : x ∈ u := by
            rcases List.mem_cons.mp hx with heq | hmem
            · rw [← heq, hp] at hb
              exact absurd hb Bool.false_ne_true
            · exact hmem
          obtain ⟨htake, hdrop⟩ := ih hmem
          rw [List.cons_append, List.takeWhile_cons_of_pos hb, List.dropWhile_cons_of_pos hb,
            List.takeWhile_cons_of_pos hb, List.dropWhile_cons_of_pos hb, htake, hdrop]
          exact ⟨rfl, rfl⟩

/-- A line that is ended still is behind its first word. -/
theorem behind_newline {text w : List UInt8} {ws : List (List UInt8)}
    (h : words (text ++ [10]) = w :: ws) (rest : List UInt8) :
    scanWord (text ++ [10] ++ rest) = some (w, behind (text ++ [10]) ++ rest) ∧
      ∃ x, behind (text ++ [10]) = x ++ [10] ∧ x <:+ text := by
  have hscan := (words_behind h).1
  unfold scanWord at hscan ⊢
  unfold behind
  -- the word begins before the newline
  cases hdrop : (text ++ [10]).dropWhile isspace with
  | nil =>
      rw [hdrop] at hscan
      cases hscan
  | cons b u =>
      have hb : isspace b = false := by
        have := List.head_dropWhile_not isspace (l := text ++ [10]) (by rw [hdrop]; simp)
        simpa [hdrop] using this
      have hmem : b ∈ text ++ [10] := by
        refine (List.dropWhile_suffix isspace).subset ?_
        rw [hdrop]
        exact List.mem_cons_self
      have hsuffix : b :: u <:+ text ++ [10] := by
        rw [← hdrop]
        exact List.dropWhile_suffix isspace
      -- and the newline ends it
      have hnl : (10 : UInt8) ∈ b :: u := by
        rcases List.suffix_concat_iff.mp hsuffix with hnil | ⟨x, hx, -⟩
        · cases hnil
        · rw [hx]
          exact List.mem_append_right x List.mem_cons_self
      obtain ⟨htake, hrest⟩ := span_append_of_mem (p := fun c => !isspace c) hnl rfl rest
      rw [hdrop] at hscan
      rw [(span_append_of_mem hmem hb rest).2, hdrop]
      constructor
      · show some ((b :: u ++ rest).takeWhile (!isspace ·), (b :: u ++ rest).dropWhile (!isspace ·))
          = _
        rw [htake, hrest]
        injection hscan with hscan
        rw [(Prod.mk.inj hscan).1]
      · have hbehind : (b :: u).dropWhile (!isspace ·) <:+ text ++ [10] :=
          (List.dropWhile_suffix _).trans hsuffix
        rcases List.suffix_concat_iff.mp hbehind with hnil | hx
        · rw [List.dropWhile_eq_nil_iff] at hnil
          exact absurd (hnil 10 hnl) (by decide)
        · exact hx

/-- **THE FIRST WORD OF A LINE**: what follows the line does not matter. -/
theorem scanWord_line {input l w : List UInt8} {ls : List (List UInt8)} {ws : List (List UInt8)}
    (h : rawLines input = l :: ls) (hw : words l = w :: ws) :
    ∃ rest, scanWord input = some (w, behind l ++ rest) ∧ rawLines rest = ls ∧
      (behind l = [] → rest = []) ∧
      (behind l ≠ [] → rawLines (behind l ++ rest) = behind l :: ls) := by
  obtain ⟨rest, rfl, hrest, ⟨text, htext, rfl⟩ | ⟨-, hnl, rfl⟩⟩ := rawLines_cons h
  · obtain ⟨hscan, x, hx, hsuffix⟩ := behind_newline hw rest
    refine ⟨rest, hscan, hrest, ?_, ?_⟩
    · intro hnil
      rw [hx] at hnil
      exact absurd hnil (by simp)
    · intro _
      rw [hx, List.append_assoc, List.singleton_append,
        rawLines_append_newline (fun hmem => htext (hsuffix.subset hmem)), hrest]
  · refine ⟨[], ?_, hrest, fun _ => rfl, ?_⟩
    · rw [List.append_nil, List.append_nil]
      exact (words_behind hw).1
    · intro hne
      rw [List.append_nil, ← hrest, rawLines_nil]
      exact rawLines_of_not_mem hne (fun hmem => hnl ((behind_suffix l).subset hmem))

/-- The pieces of a prefix are no longer than those of the text. -/
theorem splitOnP_prefix (p q : List UInt8) :
    ∃ h t h' t', p.splitOnP isspace = h :: t ∧ (p ++ q).splitOnP isspace = h' :: t' ∧
      h.length ≤ h'.length ∧ ∀ w ∈ t, ∃ w' ∈ t', w.length ≤ w'.length := by
  induction p with
  | nil =>
      obtain ⟨h', t', hq⟩ := List.exists_cons_of_ne_nil (List.splitOnP_ne_nil isspace q)
      exact ⟨[], [], h', t', rfl, hq, Nat.zero_le _, fun w hw => nomatch hw⟩
  | cons c p ih =>
      obtain ⟨h, t, h', t', hp, hpq, hhead, htail⟩ := ih
      rw [List.cons_append, List.splitOnP_cons_eq_if_modifyHead,
        List.splitOnP_cons_eq_if_modifyHead, hp, hpq]
      by_cases hc : isspace c = true
      · rw [if_pos hc, if_pos hc]
        refine ⟨[], h :: t, [], h' :: t', rfl, rfl, Nat.le_refl 0, ?_⟩
        intro w hw
        rcases List.mem_cons.mp hw with heq | hw
        · exact ⟨h', List.mem_cons_self, heq ▸ hhead⟩
        · obtain ⟨w', hw', hle⟩ := htail w hw
          exact ⟨w', List.mem_cons_of_mem h' hw', hle⟩
      · rw [if_neg hc, if_neg hc]
        exact ⟨c :: h, t, c :: h', t', rfl, rfl, Nat.succ_le_succ hhead, htail⟩

/-- **THE WORDS OF A PREFIX** are no longer than those of the text. -/
theorem words_prefix_le {p l : List UInt8} (hfront : p <+: l) {w : List UInt8}
    (hw : w ∈ words p) : ∃ w' ∈ words l, w.length ≤ w'.length := by
  obtain ⟨q, rfl⟩ := hfront
  obtain ⟨h, t, h', t', hp, hpq, hhead, htail⟩ := splitOnP_prefix p q
  unfold words at hw ⊢
  rw [hp, List.mem_filter] at hw
  rw [hpq]
  obtain ⟨hmem, hne⟩ := hw
  have hpos : 0 < w.length := by
    rw [List.length_pos_iff]
    simpa using hne
  have hlonger : ∃ w' ∈ h' :: t', w.length ≤ w'.length := by
    rcases List.mem_cons.mp hmem with heq | hmem
    · exact ⟨h', List.mem_cons_self, heq ▸ hhead⟩
    · obtain ⟨w', hw', hle⟩ := htail w hmem
      exact ⟨w', List.mem_cons_of_mem h' hw', hle⟩
  obtain ⟨w', hw', hle⟩ := hlonger
  refine ⟨w', List.mem_filter.mpr ⟨hw', ?_⟩, hle⟩
  have hne' : w' ≠ [] := List.length_pos_iff.mp (Nat.lt_of_lt_of_le hpos hle)
  simpa using hne'

/-- **THE WORDS OF A SUFFIX** are no longer than those of the text. -/
theorem words_suffix_le {p l : List UInt8} (hback : p <:+ l) {w : List UInt8}
    (hw : w ∈ words p) : ∃ w' ∈ words l, w.length ≤ w'.length := by
  obtain ⟨front, rfl⟩ := hback
  induction front with
  | nil => exact ⟨w, hw, Nat.le_refl _⟩
  | cons b front ih =>
      obtain ⟨w', hw', hle⟩ := ih
      rw [List.cons_append]
      by_cases hb : isspace b = true
      · exact ⟨w', by rwa [words_cons_space hb], hle⟩
      · -- `b` belongs to the first piece
        obtain ⟨h, t, hpieces⟩ := List.exists_cons_of_ne_nil
          (List.splitOnP_ne_nil isspace (front ++ p))
        unfold words at hw' ⊢
        rw [List.splitOnP_cons_eq_if_modifyHead, if_neg hb, hpieces]
        rw [hpieces, List.mem_filter] at hw'
        show ∃ v ∈ ((b :: h) :: t).filter fun w => !w.isEmpty, _
        rcases List.mem_cons.mp hw'.1 with rfl | hmem
        · exact ⟨b :: w', by simp, Nat.le_succ_of_le hle⟩
        · exact ⟨w', List.mem_filter.mpr ⟨List.mem_cons_of_mem _ hmem, hw'.2⟩, hle⟩

/-! ## §5. Texts without long words. -/

/-- No word has more than `m` bytes. -/
def WordsWithin (m : Nat) (text : List UInt8) : Prop := ∀ w ∈ words text, w.length ≤ m

theorem WordsWithin.of_le {m : Nat} {text part : List UInt8} (h : WordsWithin m text)
    (hpart : ∀ w ∈ words part, ∃ w' ∈ words text, w.length ≤ w'.length) : WordsWithin m part := by
  intro w hw
  obtain ⟨w', hw', hle⟩ := hpart w hw
  exact Nat.le_trans hle (h w' hw')

theorem WordsWithin.front {m : Nat} {text part : List UInt8} (h : WordsWithin m text)
    (hpart : part <+: text) : WordsWithin m part :=
  h.of_le fun _ hw => words_prefix_le hpart hw

theorem WordsWithin.back {m : Nat} {text part : List UInt8} (h : WordsWithin m text)
    (hpart : part <:+ text) : WordsWithin m part :=
  h.of_le fun _ hw => words_suffix_le hpart hw

/-- What `scanf` stores and leaves of such a text. -/
theorem WordsWithin.scanf {m : Nat} {text : List UInt8} (h : WordsWithin m text) (n : Nat) :
    (∀ w ∈ (Library.scanf n text).1, w.length ≤ m) ∧ (Library.scanf n text).1.length ≤ n ∧
      WordsWithin m (Library.scanf n text).2 := by
  obtain ⟨htake, hdrop⟩ := scanf_eq n text
  refine ⟨?_, ?_, ?_⟩
  · rw [htake]
    exact fun w hw => h w (List.mem_of_mem_take hw)
  · rw [htake]
    exact List.length_take_le _ _
  · unfold WordsWithin
    rw [hdrop]
    exact fun w hw => h w (List.mem_of_mem_drop hw)

/-- `fgets` takes a line, or a part of it, from the front. -/
theorem fgets_append (n : Nat) : ∀ input : List UInt8,
    (fgets n input).1 ++ (fgets n input).2 = input := by
  induction n with
  | zero => exact fun _ => rfl
  | succ n ih =>
      intro input
      cases input with
      | nil => rfl
      | cons b input =>
          unfold fgets
          by_cases hb : b = 10
          · rw [if_pos hb]
            rfl
          · rw [if_neg hb]
            exact congrArg (b :: ·) (ih input)

theorem WordsWithin.fgets {m : Nat} {text : List UInt8} (h : WordsWithin m text) (n : Nat) :
    WordsWithin m (Library.fgets n text).1 ∧ WordsWithin m (Library.fgets n text).2 :=
  ⟨h.front ⟨_, fgets_append n text⟩, h.back ⟨_, fgets_append n text⟩⟩

end ConcurrencyCrypto.Library
