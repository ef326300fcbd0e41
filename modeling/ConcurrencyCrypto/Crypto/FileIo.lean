/-
  ConcurrencyCrypto.Crypto.FileIo
  ───────────────────────────────
  `file_io.c`: file encryption and decryption over the streams of
  `Library.Stdio`.

  The endless `for` of `chacha20_xor_stream` is `xorStep` iterated at most
  `fuel` times; `none` means that it had not left the loop by then.  The
  field `counters` is a history variable: the counter of every
  `chacha20_block` call, in order.  No code reads it.
-/
import ConcurrencyCrypto.Crypto.ChaCha20
import ConcurrencyCrypto.Library.Loops
import ConcurrencyCrypto.Library.Stdio

namespace ConcurrencyCrypto.Crypto

open ConcurrencyCrypto.Library

/-! ## §1. `fill_random`. -/

/-- `fill_random(nonce, NONCE_SIZE)`: the nonce, or `none` for the result 0. -/
def fill_random (L : Libc) (w : World) : Option (Vector UInt8 12) × World :=
  -- three calls: fopen, fread, and an fclose whose result is ignored
  let opened := L.fault w.calls
  let w := w.tick
  match opened with
  | some _ => (none, w)
  | none =>
      let got := L.fault w.calls
      let out := Vector.ofFn fun i : Fin 12 => L.urandom w.calls i
      let w := fcloseRead w.tick
      match got with
      | some _ => (none, w)
      | none => (some out, w)

/-! ## §2. `chacha20_xor_stream`. -/

/-- The locals of `chacha20_xor_stream`, its two streams, and the world. -/
structure XorState where
  counter : UInt32
  keystream : Vector UInt8 64
  buffer : Vector UInt8 64
  fin : RStream
  fout : WStream
  world : World
  counters : List UInt32

/-- How an iteration ends: go round, `break` out, or `return 0`. -/
inductive Flow where
  | next
  | leave
  | return0
  deriving DecidableEq

/-- `for (i = 0; i < n; i++) buffer[i] ^= keystream[i]`. -/
def xorBuffer (n : Nat) (buffer keystream : Vector UInt8 64) : Vector UInt8 64 :=
  Vector.ofFn fun i : Fin 64 =>
    if i.val < n then buffer[i] ^^^ keystream[i] else buffer[i]

/-- One iteration of the loop. -/
def xorStep (L : Libc) (key : Vector UInt8 32) (nonce : Vector UInt8 12)
    (s : XorState) : Flow × XorState :=
  -- size_t n = fread(buffer, 1, CHACHA_BLOCK, fin);
  let (bytes, fin, world) := fread L 64 s.fin s.world
  let buffer := blit s.buffer 0 bytes
  let n := bytes.length
  let s := { s with fin := fin, buffer := buffer, world := world }
  if n = 0 then
    -- if (ferror(fin)) return 0; break;
    if fin.err then (.return0, s) else (.leave, s)
  else
    let keystream := chacha20_block key nonce s.counter
    let buffer := xorBuffer n buffer keystream
    -- if (fwrite(buffer, 1, n, fout) != n) return 0;
    let (m, fout, world) := fwrite L (buffer.toList.take n) s.fout world
    let s := { s with
      keystream := keystream, buffer := buffer, fout := fout, world := world
      counters := s.counters ++ [s.counter] }
    if m ≠ n then (.return0, s)
    -- counter++ wraps: it is a uint32_t
    else (.next, { s with counter := s.counter + 1 })

/-- The loop, and the two `explicit_bzero` calls behind it: the value
returned and the locals at that point. -/
def xorLoop (L : Libc) (key : Vector UInt8 32) (nonce : Vector UInt8 12) :
    Nat → XorState → Option (Int × XorState)
  | 0, _ => none
  | fuel + 1, s =>
      match xorStep L key nonce s with
      | (.next, s) => xorLoop L key nonce fuel s
      | (.return0, s) => some (0, s)
      | (.leave, s) =>
          some (1, { s with
            keystream := Vector.replicate 64 0, buffer := Vector.replicate 64 0 })

/-- What the stack holds where the locals of a call are allocated. -/
structure Stack where
  keystream : Vector UInt8 64
  buffer : Vector UInt8 64

/-- `chacha20_xor_stream(key, nonce, fin, fout)`. -/
def chacha20_xor_stream (L : Libc) (fuel : Nat) (key : Vector UInt8 32)
    (nonce : Vector UInt8 12) (st : Stack) (fin : RStream) (fout : WStream)
    (w : World) : Option (Int × XorState) :=
  xorLoop L key nonce fuel
    { counter := 0, keystream := st.keystream, buffer := st.buffer
      fin := fin, fout := fout, world := w, counters := [] }

/-! ## §3. `encrypt_file` and `decrypt_file`. -/

/-- What a call returns and leaves behind. -/
structure FileResult where
  ok : Int
  world : World
  /-- History: counters of the `chacha20_block` calls. -/
  counters : List UInt32

/-- `fprintf(stderr, "open %s: %s\n", path, strerror(errno))`. -/
def openError (L : Libc) (path : CString) (w : World) : CString :=
  str "open " ++ path ++ str ": " ++ L.strerror w.calls ++ str "\n"

/-- `encrypt_file(key, in_path, out_path)`. -/
def encrypt_file (L : Libc) (fuel : Nat) (st : Stack) (key : Vector UInt8 32)
    (in_path out_path : CString) (w : World) : Option FileResult :=
  match fill_random L w with
  | (none, w) =>
      some ⟨0, w.print (str "failed to read from /dev/urandom: "
        ++ L.strerror w.calls ++ str "\n"), []⟩
  | (some nonce, w) =>
    match fopenRead L in_path w with
    | (none, w) => some ⟨0, w.print (openError L in_path w), []⟩
    | (some fin, w) =>
      match fopenWrite L out_path w with
      | (none, w) => some ⟨0, fcloseRead (w.print (openError L out_path w)), []⟩
      | (some fout, w) =>
        -- the nonce is the header of the file
        let (m, fout, w) := fwrite L nonce.toList fout w
        if m = NONCE_SIZE then
          match chacha20_xor_stream L fuel key nonce st fin fout w with
          | none => none
          | some (ok, s) =>
              some ⟨ok, (fcloseWrite L s.fout (fcloseRead s.world)).2, s.counters⟩
        else some ⟨0, (fcloseWrite L fout (fcloseRead w)).2, []⟩

/-- `decrypt_file(key, in_path, out_path)`. -/
def decrypt_file (L : Libc) (fuel : Nat) (st : Stack) (key : Vector UInt8 32)
    (in_path out_path : CString) (w : World) : Option FileResult :=
  match fopenRead L in_path w with
  | (none, w) => some ⟨0, w.print (openError L in_path w), []⟩
  | (some fin, w) =>
    -- the output is not opened before the header is complete
    let (bytes, fin, w) := fread L NONCE_SIZE fin w
    if bytes.length ≠ NONCE_SIZE then
      some ⟨0, fcloseRead (w.print
        (str "input file is too short to contain a nonce\n")), []⟩
    else
      let nonce := blit (Vector.replicate 12 0) 0 bytes
      match fopenWrite L out_path w with
      | (none, w) => some ⟨0, fcloseRead (w.print (openError L out_path w)), []⟩
      | (some fout, w) =>
        match chacha20_xor_stream L fuel key nonce st fin fout w with
        | none => none
        | some (ok, s) =>
            some ⟨ok, (fcloseWrite L s.fout (fcloseRead s.world)).2, s.counters⟩

end ConcurrencyCrypto.Crypto
