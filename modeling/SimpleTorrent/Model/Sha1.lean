/-
The SHA-1 class of the repository (`sha1.hpp`), translated from its source.

`uint32_t` and `uint64_t` values are `UInt32` and `UInt64`. The eighty calls of `transform` stand in `calls` as they are
written there: which of the five local variables goes where, and which entry of the sixteen-word block is used. An
object keeps less than a block in its buffer, which is a field of `Sha1`, and `bufferToBlock` can only be applied to a
full one. An `std::istream` over a string is the list of the bytes still to be read.
-/
import SimpleTorrent.Model.Types

namespace SimpleTorrent

namespace Sha1

def BLOCK_INTS : ℕ := 16

def BLOCK_BYTES : ℕ := BLOCK_INTS * 4

abbrev Block := Vector UInt32 16

abbrev Digest := Vector UInt32 5

/-- the place of a number in the ring of sixteen words -/
def index (i : ℕ) : Fin 16 := Fin.ofNat 16 i

/-- `block[i] = value` -/
def Block.put (block : Block) (i : Fin 16) (value : UInt32) : Block := block.set i.val value i.isLt

/-- what `reset` puts into the digest -/
def initialDigest : Digest := #v[0x67452301, 0xefcdab89, 0x98badcfe, 0x10325476, 0xc3d2e1f0]

def rol (value bits : UInt32) : UInt32 := (value <<< bits) ||| (value >>> (32 - bits))

/-- the sums wrap at 16, as the `& 15` of the source does -/
def blk (block : Block) (i : Fin 16) : UInt32 :=
  rol (block.get (i + 13) ^^^ block.get (i + 8) ^^^ block.get (i + 2) ^^^ block.get i) 1

/-! ## The operations of a round -/

/-- what an operation leaves behind: the block, and the variables it takes by reference -/
structure Result where
  block : Block
  w : UInt32
  z : UInt32

/-- the common body of the operations: `z += f(w, x, y) + block[i] + k + rol(v, 5); w = rol(w, 30)` -/
def operation (f : UInt32 → UInt32 → UInt32 → UInt32) (k : UInt32) (block : Block) (v w x y z : UInt32)
    (i : Fin 16) : Result :=
  ⟨block, rol w 30, z + (f w x y + block.get i + k + rol v 5)⟩

def R0 (block : Block) (v w x y z : UInt32) (i : Fin 16) : Result :=
  operation (fun w x y => (w &&& (x ^^^ y)) ^^^ y) 0x5a827999 block v w x y z i

def R1 (block : Block) (v w x y z : UInt32) (i : Fin 16) : Result :=
  operation (fun w x y => (w &&& (x ^^^ y)) ^^^ y) 0x5a827999 (block.put i (blk block i)) v w x y z i

def R2 (block : Block) (v w x y z : UInt32) (i : Fin 16) : Result :=
  operation (fun w x y => w ^^^ x ^^^ y) 0x6ed9eba1 (block.put i (blk block i)) v w x y z i

def R3 (block : Block) (v w x y z : UInt32) (i : Fin 16) : Result :=
  operation (fun w x y => ((w ||| x) &&& y) ||| (w &&& x)) 0x8f1bbcdc (block.put i (blk block i)) v w x y z i

def R4 (block : Block) (v w x y z : UInt32) (i : Fin 16) : Result :=
  operation (fun w x y => w ^^^ x ^^^ y) 0xca62c1d6 (block.put i (blk block i)) v w x y z i

/-! ## `transform` -/

/-- the local variables of `transform` -/
inductive Variable where
  | a | b | c | d | e
deriving DecidableEq, Repr

structure Locals where
  a : UInt32
  b : UInt32
  c : UInt32
  d : UInt32
  e : UInt32
deriving DecidableEq, Repr

def Locals.get (l : Locals) : Variable → UInt32
  | .a => l.a
  | .b => l.b
  | .c => l.c
  | .d => l.d
  | .e => l.e

def Locals.set (l : Locals) (value : UInt32) : Variable → Locals
  | .a => { l with a := value }
  | .b => { l with b := value }
  | .c => { l with c := value }
  | .d => { l with d := value }
  | .e => { l with e := value }

/-- one of the unrolled calls: it reads three variables, and updates the block and two variables -/
def call (R : Block → UInt32 → UInt32 → UInt32 → UInt32 → UInt32 → Fin 16 → Result) (v w x y z : Variable) (i : Fin 16)
    (s : Locals × Block) : Locals × Block :=
  let r := R s.2 (s.1.get v) (s.1.get w) (s.1.get x) (s.1.get y) (s.1.get z) i
  ((s.1.set r.z z).set r.w w, r.block)

def calls : List (Locals × Block → Locals × Block) := [
  call R0 .a .b .c .d .e 0, call R0 .e .a .b .c .d 1, call R0 .d .e .a .b .c 2, call R0 .c .d .e .a .b 3,
  call R0 .b .c .d .e .a 4, call R0 .a .b .c .d .e 5, call R0 .e .a .b .c .d 6, call R0 .d .e .a .b .c 7,
  call R0 .c .d .e .a .b 8, call R0 .b .c .d .e .a 9, call R0 .a .b .c .d .e 10, call R0 .e .a .b .c .d 11,
  call R0 .d .e .a .b .c 12, call R0 .c .d .e .a .b 13, call R0 .b .c .d .e .a 14, call R0 .a .b .c .d .e 15,
  call R1 .e .a .b .c .d 0, call R1 .d .e .a .b .c 1, call R1 .c .d .e .a .b 2, call R1 .b .c .d .e .a 3,
  call R2 .a .b .c .d .e 4, call R2 .e .a .b .c .d 5, call R2 .d .e .a .b .c 6, call R2 .c .d .e .a .b 7,
  call R2 .b .c .d .e .a 8, call R2 .a .b .c .d .e 9, call R2 .e .a .b .c .d 10, call R2 .d .e .a .b .c 11,
  call R2 .c .d .e .a .b 12, call R2 .b .c .d .e .a 13, call R2 .a .b .c .d .e 14, call R2 .e .a .b .c .d 15,
  call R2 .d .e .a .b .c 0, call R2 .c .d .e .a .b 1, call R2 .b .c .d .e .a 2, call R2 .a .b .c .d .e 3,
  call R2 .e .a .b .c .d 4, call R2 .d .e .a .b .c 5, call R2 .c .d .e .a .b 6, call R2 .b .c .d .e .a 7,
  call R3 .a .b .c .d .e 8, call R3 .e .a .b .c .d 9, call R3 .d .e .a .b .c 10, call R3 .c .d .e .a .b 11,
  call R3 .b .c .d .e .a 12, call R3 .a .b .c .d .e 13, call R3 .e .a .b .c .d 14, call R3 .d .e .a .b .c 15,
  call R3 .c .d .e .a .b 0, call R3 .b .c .d .e .a 1, call R3 .a .b .c .d .e 2, call R3 .e .a .b .c .d 3,
  call R3 .d .e .a .b .c 4, call R3 .c .d .e .a .b 5, call R3 .b .c .d .e .a 6, call R3 .a .b .c .d .e 7,
  call R3 .e .a .b .c .d 8, call R3 .d .e .a .b .c 9, call R3 .c .d .e .a .b 10, call R3 .b .c .d .e .a 11,
  call R4 .a .b .c .d .e 12, call R4 .e .a .b .c .d 13, call R4 .d .e .a .b .c 14, call R4 .c .d .e .a .b 15,
  call R4 .b .c .d .e .a 0, call R4 .a .b .c .d .e 1, call R4 .e .a .b .c .d 2, call R4 .d .e .a .b .c 3,
  call R4 .c .d .e .a .b 4, call R4 .b .c .d .e .a 5, call R4 .a .b .c .d .e 6, call R4 .e .a .b .c .d 7,
  call R4 .d .e .a .b .c 8, call R4 .c .d .e .a .b 9, call R4 .b .c .d .e .a 10, call R4 .a .b .c .d .e 11,
  call R4 .e .a .b .c .d 12, call R4 .d .e .a .b .c 13, call R4 .c .d .e .a .b 14, call R4 .b .c .d .e .a 15]

/-- the local variables at the start of `transform` -/
def Locals.ofDigest (digest : Digest) : Locals := ⟨digest[0], digest[1], digest[2], digest[3], digest[4]⟩

/-- hash one block: the digest, and what the calls leave in the block -/
def transform (digest : Digest) (block : Block) : Digest × Block :=
  let s := calls.foldl (fun s f => f s) (.ofDigest digest, block)
  (#v[digest[0] + s.1.a, digest[1] + s.1.b, digest[2] + s.1.c, digest[3] + s.1.d, digest[4] + s.1.e], s.2)

/-! ## The buffer -/

theorem index_lt {buffer : Bytes} (full : buffer.length = BLOCK_BYTES) (i : Fin 16) (k : Fin 4) :
    4 * i.val + k.val < buffer.length := by
  rw [full, BLOCK_BYTES, BLOCK_INTS]
  omega

/-- the bytes of a full buffer as sixteen words, most significant byte first -/
def bufferToBlock (buffer : Bytes) (full : buffer.length = BLOCK_BYTES) : Block :=
  Vector.ofFn fun i =>
    (buffer.get ⟨4 * i.val + (3 : Fin 4).val, index_lt full i 3⟩).toUInt32 |||
      (buffer.get ⟨4 * i.val + (2 : Fin 4).val, index_lt full i 2⟩).toUInt32 <<< 8 |||
      (buffer.get ⟨4 * i.val + (1 : Fin 4).val, index_lt full i 1⟩).toUInt32 <<< 16 |||
      (buffer.get ⟨4 * i.val + (0 : Fin 4).val, index_lt full i 0⟩).toUInt32 <<< 24

end Sha1

/-- `class SHA1`; between two calls the buffer never holds a whole block -/
structure Sha1 where
  digest : Sha1.Digest
  buffer : Bytes
  transforms : UInt64
  short : buffer.length < Sha1.BLOCK_BYTES

namespace Sha1

theorem empty_short : ([] : Bytes).length < BLOCK_BYTES := by decide

/-- `reset`, which is also the constructor -/
def new : Sha1 := ⟨initialDigest, [], 0, empty_short⟩

theorem filled_short {buffer input : Bytes} (short : buffer.length < BLOCK_BYTES)
    (full : ¬(buffer ++ input.take (BLOCK_BYTES - buffer.length)).length = BLOCK_BYTES) :
    (buffer ++ input.take (BLOCK_BYTES - buffer.length)).length < BLOCK_BYTES := by
  rw [List.length_append, List.length_take] at full ⊢
  omega

theorem drop_lt {buffer input : Bytes} (short : buffer.length < BLOCK_BYTES)
    (full : (buffer ++ input.take (BLOCK_BYTES - buffer.length)).length = BLOCK_BYTES) :
    (input.drop (BLOCK_BYTES - buffer.length)).length < input.length := by
  rw [List.length_append, List.length_take] at full
  rw [List.length_drop]
  omega

theorem padded_full {buffer : Bytes} (short : buffer.length < BLOCK_BYTES) :
    (buffer ++ ([0x80] : Bytes) ++ List.replicate (BLOCK_BYTES - (buffer ++ ([0x80] : Bytes)).length) 0).length =
      BLOCK_BYTES := by
  simp only [List.length_append, List.length_singleton, List.length_replicate]
  omega

/-- `update`: the buffer is filled up from the stream, hashed when it is full, and filled again; what the stream does
not fill stays in it -/
def update (s : Sha1) (input : Bytes) : Sha1 :=
  let buffer := s.buffer ++ input.take (BLOCK_BYTES - s.buffer.length)
  if full : buffer.length = BLOCK_BYTES then
    update ⟨(transform s.digest (bufferToBlock buffer full)).1, [], s.transforms + 1, empty_short⟩
      (input.drop (BLOCK_BYTES - s.buffer.length))
  else ⟨s.digest, buffer, s.transforms, filled_short s.short full⟩
termination_by input.length
decreasing_by exact drop_lt s.short full

/-- eight lower-case hex digits, as `std::hex`, `std::setfill('0')` and `std::setw(8)` print a word -/
def hexWord (w : UInt32) : Bytes := (List.range 8).map fun j => hexDigit (w.toNat / 16 ^ (7 - j) % 16)

/-- `final`: the padding, the length in bits, the digest in hex, and the object reset for the next run -/
def final (s : Sha1) : Bytes × Sha1 :=
  let total_bits := (s.transforms * UInt64.ofNat BLOCK_BYTES + UInt64.ofNat s.buffer.length) * 8
  let buffer := s.buffer ++ ([0x80] : Bytes)
  let orig_size := buffer.length
  let block := bufferToBlock (buffer ++ List.replicate (BLOCK_BYTES - buffer.length) 0) (padded_full s.short)
  let (digest, block) :=
    if orig_size > BLOCK_BYTES - 8 then
      let (digest, block) := transform s.digest block
      (digest, (List.range (BLOCK_INTS - 2)).foldl (fun block i => block.put (index i) 0) block)
    else (s.digest, block)
  let block := block.put (index (BLOCK_INTS - 1)) total_bits.toUInt32
  let block := block.put (index (BLOCK_INTS - 2)) (total_bits >>> 32).toUInt32
  let digest := (transform digest block).1
  (digest.toList.flatMap hexWord, new)

/-! ## Runs -/

inductive Op where
  | update (piece : Bytes)
  | final
deriving DecidableEq, Repr

/-- what the calls of `final` among some calls return -/
def digests (s : Sha1) : List Op → List Bytes
  | [] => []
  | .update piece :: ops => digests (s.update piece) ops
  | .final :: ops => s.final.1 :: digests s.final.2 ops

end Sha1

end SimpleTorrent
