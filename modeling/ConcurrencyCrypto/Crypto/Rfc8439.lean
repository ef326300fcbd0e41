/-
  ConcurrencyCrypto.Crypto.Rfc8439
  ────────────────────────────────
  **CHACHA20 AS RFC 8439 STATES IT**, in row-vector form — the reference
  `chacha20.c` and the loop of `file_io.c` are compared with.  Nothing here
  is read off the C code:

    • the state is a 4×4 matrix of words, four rows of four,
    • a quarter-round acts on all four columns at once, row against row; the
      diagonals are the columns of the matrix with its rows rotated,
    • encryption is a function of the whole text: whole blocks, then the
      rest of the text.
-/
import Mathlib

namespace ConcurrencyCrypto.Crypto.Rfc8439

/-! ## §1. Words. -/

/-- `x <<<= n`. -/
def rotateLeft (x : UInt32) (n : Nat) : UInt32 := ⟨x.toBitVec.rotateLeft n⟩

/-- Word number `i` of a byte string, little-endian. -/
def leWord (bytes : List UInt8) (i : Nat) : UInt32 :=
  ⟨(bytes.getD (4 * i + 3) 0).toBitVec ++ (bytes.getD (4 * i + 2) 0).toBitVec
    ++ (bytes.getD (4 * i + 1) 0).toBitVec ++ (bytes.getD (4 * i) 0).toBitVec⟩

/-- The four bytes of a word, little-endian. -/
def leBytes (x : UInt32) : List UInt8 :=
  (List.range 4).map fun k => UInt8.ofNat (x.toNat / 256 ^ k)

/-! ## §2. Rows and matrices. -/

/-- Four words side by side. -/
abbrev Row := Vector UInt32 4

/-- Word-wise addition modulo 2^32. -/
def addRow (x y : Row) : Row := Vector.zipWith (· + ·) x y
/-- Word-wise exclusive or. -/
def xorRow (x y : Row) : Row := Vector.zipWith (· ^^^ ·) x y
/-- Every word of the row rotated by `n` bits. -/
def rotateWords (x : Row) (n : Nat) : Row := x.map (rotateLeft · n)
/-- The row rotated left by `k` places. -/
def rotateRow (x : Row) (k : Fin 4) : Row := Vector.ofFn fun i => x.get (i + k)

/-- The state, row after row. -/
structure WordMatrix where
  a : Row
  b : Row
  c : Row
  d : Row
  deriving DecidableEq

/-- A quarter-round on the four columns in parallel. -/
def quarterRounds (M : WordMatrix) : WordMatrix :=
  let M := { M with a := addRow M.a M.b }
  let M := { M with d := rotateWords (xorRow M.d M.a) 16 }
  let M := { M with c := addRow M.c M.d }
  let M := { M with b := rotateWords (xorRow M.b M.c) 12 }
  let M := { M with a := addRow M.a M.b }
  let M := { M with d := rotateWords (xorRow M.d M.a) 8 }
  let M := { M with c := addRow M.c M.d }
  { M with b := rotateWords (xorRow M.b M.c) 7 }

/-- Rows 1, 2, 3 rotated left by 1, 2, 3: the diagonals become columns. -/
def rotateRows (M : WordMatrix) : WordMatrix :=
  ⟨M.a, rotateRow M.b 1, rotateRow M.c 2, rotateRow M.d 3⟩

/-- Rows 1, 2, 3 rotated back. -/
def rotateRowsBack (M : WordMatrix) : WordMatrix :=
  ⟨M.a, rotateRow M.b (-1), rotateRow M.c (-2), rotateRow M.d (-3)⟩

/-- Column rounds, then diagonal rounds. -/
def doubleRound (M : WordMatrix) : WordMatrix :=
  rotateRowsBack (quarterRounds (rotateRows (quarterRounds M)))

/-! ## §3. The block function. -/

/-- Constants, key, key, and counter with nonce. -/
def initialMatrix (key : List UInt8) (counter : UInt32) (nonce : List UInt8) : WordMatrix where
  a := #v[0x61707865, 0x3320646e, 0x79622d32, 0x6b206574]
  b := Vector.ofFn fun i => leWord key i
  c := Vector.ofFn fun i => leWord key (4 + i)
  d := #v[counter, leWord nonce 0, leWord nonce 1, leWord nonce 2]

/-- Word-wise addition of matrices. -/
def addMatrix (M N : WordMatrix) : WordMatrix :=
  ⟨addRow M.a N.a, addRow M.b N.b, addRow M.c N.c, addRow M.d N.d⟩

/-- The sixteen words of the block: twenty rounds and the initial matrix. -/
def blockMatrix (key : List UInt8) (counter : UInt32) (nonce : List UInt8) : WordMatrix :=
  let M := initialMatrix key counter nonce
  addMatrix (doubleRound^[10] M) M

/-- The sixteen words in order. -/
def WordMatrix.toList (M : WordMatrix) : List UInt32 :=
  M.a.toList ++ M.b.toList ++ M.c.toList ++ M.d.toList

/-- The block function: 64 bytes of keystream. -/
def block (key : List UInt8) (counter : UInt32) (nonce : List UInt8) : List UInt8 :=
  (blockMatrix key counter nonce).toList.flatMap leBytes

/-! ## §4. Encryption. -/

/-- The text from byte `64 * j` on, up to a block of it, under keystream block
`counter + j`. -/
def encryptBlock (key : List UInt8) (counter : UInt32) (nonce text : List UInt8) (j : Nat) :
    List UInt8 :=
  List.zipWith (· ^^^ ·) ((text.drop (64 * j)).take 64)
    (block key (counter + UInt32.ofNat j) nonce)

/-- Whole blocks, and what is left of the text if it ends inside a block. -/
def encrypt (key : List UInt8) (counter : UInt32) (nonce text : List UInt8) : List UInt8 :=
  let whole := (List.range (text.length / 64)).flatMap (encryptBlock key counter nonce text)
  if text.length % 64 ≠ 0 then
    whole ++ encryptBlock key counter nonce text (text.length / 64)
  else whole

end ConcurrencyCrypto.Crypto.Rfc8439
