/-
  ConcurrencyCrypto.Library.Text
  ──────────────────────────────
  **THE TEXT INPUT OF C PROGRAMS: WORDS, LINES, `scanf`, `strtol`.**

  The conversion `%s` skips white space, the end of a line included, and
  takes the bytes up to the next white space.  So a program that reads with
  it sees the words of the whole input in one row:

    • `scanf_eq`                — `n` conversions take the next `n` words,
    • `words_eq_flatMap_lines`  — those are the words of the lines, line
      after line.
-/
import ConcurrencyCrypto.Library.Stdio

namespace ConcurrencyCrypto.Library

/-! ## §1. Definitions. -/

/-- White space of the C locale: space, and `\t \n \v \f \r`. -/
def isspace (b : UInt8) : Bool := b == 32 || (9 ≤ b && b ≤ 13)

/-- The maximal runs without white space. -/
def words (input : List UInt8) : List (List UInt8) :=
  (input.splitOnP isspace).filter fun w => !w.isEmpty

/-- The lines, without their newlines. -/
def lines (input : List UInt8) : List (List UInt8) := input.splitOn 10

/-- What a buffer that holds the bytes `w` and a NUL means as a string. -/
def cString (w : List UInt8) : CString := w.takeWhile (· != 0)

/-- One conversion `%s`: the word and what stays in the input, or `none` at
the end of the input. -/
def scanWord (input : List UInt8) : Option (List UInt8 × List UInt8) :=
  match input.dropWhile isspace with
  | [] => none
  | b :: rest => some ((b :: rest).takeWhile (!isspace ·), (b :: rest).dropWhile (!isspace ·))

/-- `scanf` with `n` conversions `%s`: the words stored, and what stays. -/
def scanf : Nat → List UInt8 → List (List UInt8) × List UInt8
  | 0, input => ([], input)
  | n + 1, input =>
      match scanWord input with
      | none => ([], [])
      | some (w, rest) => (w :: (scanf n rest).1, (scanf n rest).2)

def EOF : Int := -1

/-- The value `scanf` returns when it has stored the words `ws`. -/
def scanfResult {α : Type} (ws : List α) : Int := if ws.isEmpty then EOF else ws.length

/-- The value of a row of digits. -/
def digitsValue (base : Nat) (ds : List UInt8) : Nat :=
  ds.foldl (fun v b => v * base + (b.toNat - 48)) 0

/-- `strtol(s, NULL, base)` for a base up to 10 and a 64-bit `long`. -/
def strtol (base : Nat) (s : CString) : Int :=
  let s := s.dropWhile isspace
  let neg := s.head? == some 45
  let s := if neg || s.head? == some 43 then s.tail else s
  let v : Int := digitsValue base
    (s.takeWhile fun b => 48 ≤ b.toNat && b.toNat < 48 + base)
  -- out of range: LONG_MIN or LONG_MAX
  max (-2 ^ 63) (min (2 ^ 63 - 1) (if neg then -v else v))

/-- The cast to a 32-bit `int`. -/
def toInt (x : Int) : Int := x.bmod (2 ^ 32)

/-- `atoi(s)`, which glibc computes as `(int) strtol(s, NULL, 10)`. -/
def atoi (s : CString) : Int := toInt (strtol 10 s)

/-- The number spelled at the beginning of `s`, of any size: white space, a
sign, digits; 0 where there are no digits. -/
def leadingNumber (base : Nat) (s : CString) : Int :=
  let s := s.dropWhile isspace
  let neg := s.head? == some 45
  let s := if neg || s.head? == some 43 then s.tail else s
  let v : Int := digitsValue base
    (s.takeWhile fun b => 48 ≤ b.toNat && b.toNat < 48 + base)
  if neg then -v else v

/-- What the conversion `%d` prints. -/
def decimal (n : Int) : CString := str (toString n)

/-! ## §2. Words. -/

@[simp] theorem words_nil : words [] = [] := rfl

theorem words_cons_space {b : UInt8} (hb : isspace b = true) (xs : List UInt8) :
    words (b :: xs) = words xs := by
  unfold words
  rw [List.splitOnP_cons_eq_if_modifyHead, if_pos hb]
  rfl

theorem words_dropWhile (input : List UInt8) :
    words (input.dropWhile isspace) = words input := by
  induction input with
  | nil => rfl
  | cons b xs ih =>
      cases hb : isspace b with
      | true => rw [List.dropWhile_cons_of_pos hb, ih, words_cons_space hb]
      | false => rw [List.dropWhile_cons_of_neg (by simp [hb])]

/-- White space separates words. -/
theorem words_append_space {b : UInt8} (hb : isspace b = true) (xs ys : List UInt8) :
    words (xs ++ b :: ys) = words xs ++ words ys := by
  unfold words
  rw [List.splitOnP_append_cons xs ys hb, List.filter_append]

/-- A run without white space is one word. -/
theorem words_of_forall {w : List UInt8} (hne : w ≠ []) (hw : ∀ b ∈ w, isspace b = false) :
    words w = [w] := by
  unfold words
  rw [List.splitOnP_eq_singleton hw]
  simp [hne]

/-- The end of a run is the end of the input or white space. -/
theorem words_takeWhile {b : UInt8} (hb : isspace b = false) (rest : List UInt8) :
    words (b :: rest) = (b :: rest).takeWhile (!isspace ·)
      :: words ((b :: rest).dropWhile (!isspace ·)) := by
  have hsplit : (b :: rest).takeWhile (!isspace ·) ++ (b :: rest).dropWhile (!isspace ·)
      = b :: rest := List.takeWhile_append_dropWhile
  have hne : (b :: rest).takeWhile (!isspace ·) ≠ [] := by
    rw [List.takeWhile_cons_of_pos (by simp [hb])]
    exact List.cons_ne_nil _ _
  have hw : ∀ c ∈ (b :: rest).takeWhile (!isspace ·), isspace c = false := by
    intro c hc
    have := List.mem_takeWhile_imp hc
    simpa using this
  conv_lhs => rw [← hsplit]
  cases hdrop : (b :: rest).dropWhile (!isspace ·) with
  | nil => rw [List.append_nil, words_of_forall hne hw, words_nil]
  | cons c tail =>
      have hc : isspace c = true := by
        have := List.head_dropWhile_not (!isspace ·) (l := b :: rest) (by rw [hdrop]; simp)
        simpa [hdrop] using this
      rw [words_append_space hc, words_of_forall hne hw, words_cons_space hc]
      rfl

@[simp] theorem scanfResult_nil {α : Type} : scanfResult ([] : List α) = EOF := rfl

@[simp] theorem scanfResult_map {α β : Type} (f : α → β) (ws : List α) :
    scanfResult (ws.map f) = scanfResult ws := by
  cases ws with
  | nil => rfl
  | cons w ws => simp [scanfResult]

/-- All conversions succeeded. -/
theorem scanfResult_of_length {α : Type} {n : Nat} (hn : 0 < n) {ws : List α}
    (h : ws.length = n) : scanfResult ws = n := by
  cases ws with
  | nil => exact absurd h (Nat.ne_of_lt hn)
  | cons w ws => rw [← h]; rfl

theorem scanfResult_eq_iff {α : Type} {n : Nat} (hn : 0 < n) {ws : List α} :
    scanfResult ws = n ↔ ws.length = n := by
  cases ws with
  | nil =>
      rw [scanfResult_nil, List.length_nil, EOF]
      omega
  | cons w ws =>
      show ((w :: ws).length : Int) = n ↔ (w :: ws).length = n
      omega

/-- A conversion takes the next word. -/
theorem scanWord_eq (input : List UInt8) :
    (words input = [] ∧ scanWord input = none) ∨
      ∃ w rest, scanWord input = some (w, rest) ∧ words input = w :: words rest := by
  rw [← words_dropWhile]
  unfold scanWord
  cases hdrop : input.dropWhile isspace with
  | nil => exact Or.inl ⟨rfl, rfl⟩
  | cons b rest =>
      right
      have hb : isspace b = false := by
        have := List.head_dropWhile_not isspace (l := input) (by rw [hdrop]; simp)
        simpa [hdrop] using this
      exact ⟨_, _, rfl, words_takeWhile hb rest⟩

/-- **`n` conversions take the next `n` words.** -/
theorem scanf_eq (n : Nat) : ∀ input : List UInt8,
    (scanf n input).1 = (words input).take n ∧
      words (scanf n input).2 = (words input).drop n := by
  induction n with
  | zero => exact fun input => ⟨rfl, rfl⟩
  | succ n ih =>
      intro input
      rcases scanWord_eq input with ⟨hnil, hscan⟩ | ⟨w, rest, hscan, hwords⟩
      · simp only [scanf, hscan, hnil]
        exact ⟨rfl, rfl⟩
      · obtain ⟨htake, hdrop⟩ := ih rest
        simp only [scanf, hscan, hwords, List.take_succ_cons, List.drop_succ_cons]
        exact ⟨by rw [htake], hdrop⟩

/-- What `scanf` leaves is the end of the input. -/
theorem scanf_suffix (n : Nat) : ∀ input : List UInt8, (scanf n input).2 <:+ input := by
  induction n with
  | zero => exact fun input => List.suffix_refl input
  | succ n ih =>
      intro input
      unfold scanf scanWord
      cases hdrop : input.dropWhile isspace with
      | nil => exact List.nil_suffix
      | cons b rest =>
          have hfirst : b :: rest <:+ input := hdrop ▸ List.dropWhile_suffix _
          exact ((ih _).trans (List.dropWhile_suffix _)).trans hfirst

/-! ## §4. Numbers. -/

/-- `strtol` is the leading number, cut off at the ends of the range. -/
theorem strtol_eq (base : Nat) (s : CString) :
    strtol base s = max (-2 ^ 63) (min (2 ^ 63 - 1) (leadingNumber base s)) := rfl

/-- The run at the beginning, and what is behind it. -/
theorem span_append {p : UInt8 → Bool} {run rest : List UInt8} (hrun : ∀ b ∈ run, p b = true)
    (hrest : ∀ b ∈ rest.head?, p b = false) :
    (run ++ rest).takeWhile p = run ∧ (run ++ rest).dropWhile p = rest := by
  rw [List.takeWhile_append_of_pos hrun, List.dropWhile_append_of_pos hrun]
  cases rest with
  | nil => exact ⟨List.append_nil run, rfl⟩
  | cons b rest =>
      have hb : ¬ p b = true := by rw [hrest b rfl]; exact Bool.false_ne_true
      rw [List.takeWhile_cons_of_neg hb, List.dropWhile_cons_of_neg hb]
      exact ⟨List.append_nil run, rfl⟩

theorem digit_not_space {b : UInt8} (hb : 48 ≤ b.toNat ∧ b.toNat < 58) :
    isspace b = false ∧ b ≠ 43 ∧ b ≠ 45 := by
  refine ⟨?_, ?_, ?_⟩
  · rw [isspace, Bool.or_eq_false_iff, Bool.and_eq_false_iff]
    refine ⟨?_, Or.inr ?_⟩
    · rw [beq_eq_false_iff_ne]
      rintro rfl
      exact absurd hb.1 (by decide)
    · rw [decide_eq_false_iff_not, UInt8.le_iff_toNat_le]
      intro hle
      have : b.toNat ≤ 13 := hle
      omega
  · rintro rfl
    exact absurd hb.1 (by decide)
  · rintro rfl
    exact absurd hb.1 (by decide)

/-- **What `leadingNumber` reads**: white space, at most one sign, digits up
to the first other byte. -/
theorem leadingNumber_spelled {base : Nat} (hbase : base ≤ 10) {white sign ds rest : List UInt8}
    (hwhite : ∀ b ∈ white, isspace b = true)
    (hsign : sign = [] ∨ sign = [43] ∨ sign = [45])
    (hds : ∀ b ∈ ds, 48 ≤ b.toNat ∧ b.toNat < 48 + base)
    (hrest : ∀ b ∈ rest.head?, ¬ (48 ≤ b.toNat ∧ b.toNat < 48 + base))
    (hfirst : ds = [] → ∀ b ∈ rest.head?, isspace b = false ∧ b ≠ 43 ∧ b ≠ 45) :
    leadingNumber base (white ++ (sign ++ (ds ++ rest)))
      = if sign = [45] then -(digitsValue base ds : Int) else digitsValue base ds := by
  -- what follows white space and sign begins with neither
  have hhead : ∀ b ∈ (ds ++ rest).head?, isspace b = false ∧ b ≠ 43 ∧ b ≠ 45 := by
    intro b hb
    cases ds with
    | nil => exact hfirst rfl b hb
    | cons d ds =>
        injection hb with hb
        have hd := hds d List.mem_cons_self
        exact hb ▸ digit_not_space ⟨hd.1, by omega⟩
  have hdigits : (ds ++ rest).takeWhile (fun b => 48 ≤ b.toNat && b.toNat < 48 + base) = ds := by
    refine (span_append ?_ ?_).1
    · intro b hb
      simpa using hds b hb
    · intro b hb
      simpa using hrest b hb
  have hskip : (white ++ (sign ++ (ds ++ rest))).dropWhile isspace = sign ++ (ds ++ rest) := by
    refine (span_append hwhite ?_).2
    rcases hsign with rfl | rfl | rfl
    · exact fun b hb => (hhead b hb).1
    · rintro b ⟨⟩
      decide
    · rintro b ⟨⟩
      decide
  unfold leadingNumber
  rw [hskip]
  rcases hsign with rfl | rfl | rfl
  · have h45 : ((ds ++ rest).head? == some 45) = false := by
      rw [beq_eq_false_iff_ne]
      exact fun hc => (hhead 45 hc).2.2 rfl
    have h43 : ((ds ++ rest).head? == some 43) = false := by
      rw [beq_eq_false_iff_ne]
      exact fun hc => (hhead 43 hc).2.1 rfl
    simp only [List.nil_append, h45, h43, Bool.or_false, Bool.false_eq_true, if_false, hdigits]
    rfl
  · exact congrArg (fun l => ((digitsValue base l : Nat) : Int)) hdigits
  · exact congrArg (fun l => -((digitsValue base l : Nat) : Int)) hdigits

/-- A row of digits alone. -/
theorem leadingNumber_digits {base : Nat} (hbase : base ≤ 10) {ds : List UInt8}
    (hds : ∀ b ∈ ds, 48 ≤ b.toNat ∧ b.toNat < 48 + base) :
    leadingNumber base ds = digitsValue base ds := by
  have hread := @leadingNumber_spelled base hbase [] [] ds [] (List.forall_mem_nil _)
    (Or.inl rfl) hds (by simp) (by simp)
  rwa [List.nil_append, List.nil_append, List.append_nil,
    if_neg (List.cons_ne_nil _ _).symm] at hread

/-- The byte of a digit. -/
theorem digit_byte {c : Char} (hc : c.isDigit = true) :
    (UInt8.ofNat c.toNat).toNat = c.toNat ∧ 48 ≤ c.toNat ∧ c.toNat < 58 := by
  obtain ⟨hlow, hhigh⟩ := Char.isDigit_iff_toNat.mp hc
  have hlow : 48 ≤ c.toNat := hlow
  have hhigh : c.toNat ≤ 57 := hhigh
  refine ⟨?_, hlow, by omega⟩
  rw [UInt8.toNat_ofNat']
  exact Nat.mod_eq_of_lt (by omega)

/-- A row of digits has the value that they spell. -/
theorem digitsValue_ofDigitChars {cs : List Char} (hcs : ∀ c ∈ cs, c.isDigit = true) :
    digitsValue 10 (cs.map fun c => UInt8.ofNat c.toNat) = Nat.ofDigitChars 10 cs 0 := by
  have hfold : ∀ v, (cs.map fun c => UInt8.ofNat c.toNat).foldl
      (fun v b => v * 10 + (b.toNat - 48)) v = Nat.ofDigitChars 10 cs v := by
    induction cs with
    | nil => exact fun v => rfl
    | cons c cs ih =>
        intro v
        rw [List.map_cons, List.foldl_cons, ih fun c' h => hcs c' (List.mem_cons_of_mem c h),
          Nat.ofDigitChars_cons, (digit_byte (hcs c List.mem_cons_self)).1, Nat.mul_comm v 10]
        rfl
  exact hfold 0

theorem decimal_natCast (n : Nat) :
    decimal n = (Nat.toDigits 10 n).map fun c => UInt8.ofNat c.toNat := by
  show str (toString n) = _
  rw [str, Nat.toString_eq_ofList_toDigits, String.toList_ofList]

/-- **A NUMBER THAT IS PRINTED IS READ BACK.** -/
theorem leadingNumber_decimal (n : Nat) : leadingNumber 10 (decimal n) = n := by
  have hdigit : ∀ c ∈ Nat.toDigits 10 n, c.isDigit = true :=
    fun c hc => Nat.isDigit_of_mem_toDigits (by decide) (by decide) hc
  have hds : ∀ b ∈ decimal n, 48 ≤ b.toNat ∧ b.toNat < 58 := by
    intro b hb
    rw [decimal_natCast] at hb
    obtain ⟨c, hc, rfl⟩ := List.mem_map.mp hb
    obtain ⟨hbyte, hrange⟩ := digit_byte (hdigit c hc)
    rw [hbyte]
    exact hrange
  rw [leadingNumber_digits (by decide) hds, decimal_natCast, digitsValue_ofDigitChars hdigit,
    Nat.ofDigitChars_ten_toDigits]

/-- `atoi` gives an `int`. -/
theorem atoi_range (s : CString) : -2 ^ 31 ≤ atoi s ∧ atoi s < 2 ^ 31 := by
  unfold atoi toInt
  rw [Int.bmod_def]
  omega

/-- In the range of `int`, `atoi` is the leading number. -/
theorem atoi_eq {s : CString} (h : -2 ^ 31 ≤ leadingNumber 10 s ∧ leadingNumber 10 s < 2 ^ 31) :
    atoi s = leadingNumber 10 s := by
  unfold atoi toInt
  rw [strtol_eq, Int.bmod_def]
  omega

/-- **The cast keeps the number modulo 2^32**, so `atoi` is 0 or 1 on the
numbers with that remainder; behind the ends of the range it sees
`LONG_MAX` and `LONG_MIN`, whose low halves are all ones and all zeros. -/
theorem atoi_ne_zero_one_iff (s : CString) :
    (atoi s ≠ 0 ∧ atoi s ≠ 1) ↔
      2 ^ 63 ≤ leadingNumber 10 s ∨
        -2 ^ 63 ≤ leadingNumber 10 s ∧
          leadingNumber 10 s % 2 ^ 32 ≠ 0 ∧ leadingNumber 10 s % 2 ^ 32 ≠ 1 := by
  unfold atoi toInt
  rw [strtol_eq]
  generalize leadingNumber 10 s = n
  have hbmod : ∀ x : Int, (x.bmod (2 ^ 32) ≠ 0 ∧ x.bmod (2 ^ 32) ≠ 1)
      ↔ (x % 2 ^ 32 ≠ 0 ∧ x % 2 ^ 32 ≠ 1) := by
    intro x
    rw [Int.bmod_def]
    omega
  rw [hbmod]
  omega

end ConcurrencyCrypto.Library
