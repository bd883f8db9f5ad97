/-
Data shared by the whole client (`Constant.h`, `Metadata.h`, `FastRandom.h`) and the hex codec of `Util.h`.

Strings and byte vectors are lists of bytes, `uint32_t` and `uint64_t` values are naturals with the wrap-around written
out where it can occur. SHA-1 is a parameter of the development: `checksumFinal` renders its digest the way
`SHA1::final` does, as lower-case hex, and `hexDecode_toHexString` is the round trip that `is_verified_piece` relies on.
-/
import SimpleTorrent.Core.Checked

namespace SimpleTorrent

open Checked

abbrev Bytes := List UInt8

/-! ## Constant.h -/

inductive PieceState where
  | notStarted
  | allRequested
  | buffered
  | completed
deriving DecidableEq, Repr

inductive PeerPieceState where
  | havePiece
  | dontHave
deriving DecidableEq, Repr

inductive BlockState where
  | haveBlock
  | dontHave
  | requested
deriving DecidableEq, Repr

/-! ## Metadata.h -/

structure FileMetadata where
  fileLength : ℕ
  paths : List Bytes
deriving DecidableEq, Repr

structure TorrentMetadata where
  trackerUrlList : List Bytes
  pieceHashes : List Bytes
  pieceLength : ℕ
  totalLength : ℕ
  outputPath : Bytes
  infoHash : Bytes
  files : List FileMetadata
deriving DecidableEq, Repr

/-- a single-file torrent, with what the piece manager and the file manager read of it; the file is "a" -/
def TorrentMetadata.ofHashes (pieceHashes : List Bytes) (pieceLength totalLength : ℕ) : TorrentMetadata :=
  ⟨[], pieceHashes, pieceLength, totalLength, [97], [], []⟩

/-- the address of a peer; the port is a `uint16_t` -/
structure PeerConnInfo where
  ip : Bytes
  port : ℕ
deriving DecidableEq, Repr

/-- what we ask a peer for -/
structure BlockRequest where
  pieceIndex : ℕ
  blockOffset : ℕ
  blockLength : ℕ
deriving DecidableEq, Repr

/-- what a peer sends; `data` is the range from `data_begin` to `data_end` -/
structure Block where
  pieceIndex : ℕ
  blockOffset : ℕ
  data : Bytes
deriving DecidableEq, Repr

structure PieceMetadata where
  pieceHash : Bytes
  currentPieceLength : ℕ
  numBlocks : ℕ
  state : PieceState
deriving DecidableEq, Repr

/-! ## FastRandom.h -/

def FastRandom.init : ℕ := 12345

/-- `FastRandom::operator()`: the new state and the result, narrowed to `int` -/
def FastRandom.next (state max : ℕ) : Except Fault (ℕ × ℤ) :=
  let state := (1664525 * state + 1013904223) % 2 ^ 64 % 2 ^ 32
  if max = 0 then .error .zeroModulus else .ok (state, toInt (state % max))

/-- a modulus that is not zero gives a value below it, narrowed -/
theorem FastRandom.next_ok {max : ℕ} (h0 : max ≠ 0) (state : ℕ) :
    ∃ state' r, r < max ∧ FastRandom.next state max = .ok (state', toInt r) := by
  refine ⟨(1664525 * state + 1013904223) % 2 ^ 64 % 2 ^ 32, (1664525 * state + 1013904223) % 2 ^ 64 % 2 ^ 32 % max,
    Nat.mod_lt _ (Nat.pos_of_ne_zero h0), ?_⟩
  simp only [FastRandom.next, h0, if_false]

/-! ## Util.h: hex -/

/-- one hex digit, as `std::hex` prints it -/
def hexDigit (d : ℕ) : UInt8 := UInt8.ofNat (if d < 10 then 48 + d else 87 + d)

/-- a hex digit as `std::from_chars` reads it -/
def hexValue (c : UInt8) : Option ℕ :=
  let n := c.toNat
  if 48 ≤ n ∧ n ≤ 57 then some (n - 48)
  else if 97 ≤ n ∧ n ≤ 102 then some (n - 87)
  else if 65 ≤ n ∧ n ≤ 70 then some (n - 55)
  else none

/-- `to_hex_string`: two lower-case digits a byte -/
def toHexString (arr : Bytes) : Bytes := arr.flatMap fun b => [hexDigit (b.toNat / 16), hexDigit (b.toNat % 16)]

/-- `std::from_chars` on two characters, base 16: the longest run of digits is read, and without one the target byte
keeps its indeterminate value -/
def fromChars (a b : UInt8) : Except Fault UInt8 :=
  match hexValue a, hexValue b with
  | some x, some y => .ok (UInt8.ofNat (16 * x + y))
  | some x, none => .ok (UInt8.ofNat x)
  | none, _ => .error .uninitialised

/-- `hex_decode`; after an odd number of characters the second one read is the terminating zero -/
def hexDecode : Bytes → Except Fault Bytes
  | [] => .ok []
  | [a] => do
    let x ← fromChars a 0
    return [x]
  | a :: b :: rest => do
    let x ← fromChars a b
    let xs ← hexDecode rest
    return x :: xs

theorem hexValue_hexDigit {d : ℕ} (h : d < 16) : hexValue (hexDigit d) = some d := by
  interval_cases d <;> decide

/-- **Hex round trip.** Decoding the hex rendering of a byte string gives it back. -/
theorem hexDecode_toHexString (arr : Bytes) : hexDecode (toHexString arr) = .ok arr := by
  induction arr with
  | nil => rfl
  | cons b arr ih =>
    have hb := b.toNat_lt
    have hhi := hexValue_hexDigit (d := b.toNat / 16) (by omega)
    have hlo := hexValue_hexDigit (d := b.toNat % 16) (by omega)
    have hbyte : UInt8.ofNat (16 * (b.toNat / 16) + b.toNat % 16) = b := by
      rw [Nat.div_add_mod]; exact UInt8.ofNat_toNat
    simp only [toHexString, List.flatMap_cons, List.cons_append, List.nil_append, hexDecode, fromChars, hhi, hlo, hbyte,
      ok_bind]
    rw [show hexDecode (arr.flatMap _) = .ok arr from ih]
    rfl

section Sha1

variable (sha1 : Bytes → Bytes)

/-- `SHA1::final`: the digest as lower-case hex -/
def checksumFinal (data : Bytes) : Bytes := toHexString (sha1 data)

end Sha1

end SimpleTorrent
