/-
Wire format (`MessageUtil.h`): four-byte big-endian numbers, the handshake, the length header, bitfields and block
positions.

- `length_getPeerBitfield`: a bitfield has one entry per piece, whatever the payload.
- `getElem?_getPeerBitfield`: the entry of a piece is its bit in the payload, most significant bit first, as long as
  bit numbers do not exceed 32 bits.
- `readUint32_writeUint32`: a number is read back.
-/
import SimpleTorrent.Model.Types

namespace SimpleTorrent.MessageUtil

open Checked

/-! ## Numbers -/

/-- the four bytes at `off`, read by `memcpy` and put in host order by `convert_bo` -/
def readUint32 (bytes : Bytes) (off : ℕ) : ℕ := ((bytes.drop off).take 4).foldl (fun n b => n * 256 + b.toNat) 0

/-- the four bytes of a `uint32_t` in network order -/
def writeUint32 (n : ℕ) : Bytes :=
  [UInt8.ofNat (n / 2 ^ 24 % 256), UInt8.ofNat (n / 2 ^ 16 % 256), UInt8.ofNat (n / 2 ^ 8 % 256), UInt8.ofNat (n % 256)]

/-- `get_header_length`; the header always has four bytes -/
def getHeaderLength (header : Bytes) : ℕ := readUint32 header 0

theorem foldl_bytes_lt (l : Bytes) : l.foldl (fun n b => n * 256 + b.toNat) 0 < 256 ^ l.length := by
  induction l using List.reverseRecOn with
  | nil => simp
  | append_singleton l b ih =>
    have hb := b.toNat_lt
    rw [List.foldl_append, List.length_append, List.length_singleton, Nat.pow_succ]
    simp only [List.foldl_cons, List.foldl_nil]
    omega

/-- a number written in front of any bytes is read back -/
theorem readUint32_writeUint32 {n : ℕ} (h : n < 2 ^ 32) (rest : Bytes) : readUint32 (writeUint32 n ++ rest) 0 = n := by
  have hbyte : ∀ m : ℕ, m % 256 % 2 ^ 8 = m % 256 := fun m => Nat.mod_eq_of_lt (by have := Nat.mod_lt m (y := 256); omega)
  simp only [readUint32, writeUint32, List.drop_zero, List.cons_append, List.nil_append, List.take_succ_cons,
    List.take_zero, List.foldl_cons, List.foldl_nil, UInt8.toNat_ofNat', hbyte]
  omega

@[simp] theorem length_writeUint32 (n : ℕ) : (writeUint32 n).length = 4 := rfl

/-- a number is read back behind any other bytes -/
theorem readUint32_append (pre bytes : Bytes) (off : ℕ) : readUint32 (pre ++ bytes) (pre.length + off) = readUint32 bytes off := by
  rw [readUint32, readUint32, List.drop_append, List.drop_eq_nil_of_le (Nat.le_add_right _ _), List.nil_append,
    Nat.add_sub_cancel_left]

theorem readUint32_behind {n : ℕ} (h : n < 2 ^ 32) (pre rest : Bytes) :
    readUint32 (pre ++ (writeUint32 n ++ rest)) pre.length = n :=
  (readUint32_append pre _ 0).trans (readUint32_writeUint32 h rest)

/-! ## Handshake -/

/-- "BitTorrent protocol" -/
def protocolIdentifier : Bytes := [66, 105, 116, 84, 111, 114, 114, 101, 110, 116, 32, 112, 114, 111, 116, 111, 99, 111, 108]

/-- the `n` bytes that a copy from `begin() + off` reads -/
def copyFrom (bytes : Bytes) (off n : ℕ) : Except Fault Bytes :=
  if off + n ≤ bytes.length then .ok ((bytes.drop off).take n) else .error .badCopy

/-- `parse_handshake_response`: the id of the peer, in hex; the response is an array of 68 bytes -/
def parseHandshakeResponse (handshakeResponse infoHash : Bytes) : Except Fault (Option Bytes) := do
  let protocolNameLength ← vecIdx handshakeResponse 0
  let idx := 1
  if handshakeResponse.length < idx + protocolNameLength.toNat then return none
  let protocolName ← copyFrom handshakeResponse idx protocolNameLength.toNat
  let idx := idx + protocolNameLength.toNat
  if protocolName ≠ protocolIdentifier then return none
  let _reservedBytes ← copyFrom handshakeResponse idx 8
  let idx := idx + 8
  let binaryInfoHash ← copyFrom handshakeResponse idx 20
  let idx := idx + 20
  if toHexString binaryInfoHash ≠ infoHash then return none
  let binaryPeerId ← copyFrom handshakeResponse idx 20
  return some (toHexString binaryPeerId)

def createHandshake (reservedBytes binaryInfoHash ourId : Bytes) : Bytes :=
  UInt8.ofNat protocolIdentifier.length :: protocolIdentifier ++ reservedBytes ++ binaryInfoHash ++ ourId

/-! ## Messages -/

/-- `construct_message` -/
def constructMessage (type : UInt8) (payload : Bytes) : Bytes :=
  writeUint32 ((payload.length + 1) % 2 ^ 32) ++ type :: payload

/-- `construct_request_message`: three words after the type `Request` -/
def constructRequestMessage (request : BlockRequest) : Bytes :=
  constructMessage 6 (writeUint32 request.pieceIndex ++ writeUint32 request.blockOffset ++ writeUint32 request.blockLength)

/-- the piece index and the block offset at the start of a Piece payload -/
def retrievePieceIndexAndBlockOffset (payload : Bytes) : ℕ × ℕ := (readUint32 payload 0, readUint32 payload 4)

/-! ## Bitfields -/

/-- bit `j` of a byte, the most significant one first: `(byte & (0x80 >> j)) != 0` -/
def bit (byte : UInt8) (j : ℕ) : UInt8 := if byte &&& (0x80 >>> UInt8.ofNat j) != 0 then 1 else 0

/-- the inner loop of `get_peer_bitfield`: the bits of byte `i`, up to bit `m` -/
def setBits (numPieces : ℕ) (bitfield : List UInt8) (i : ℕ) (byte : UInt8) (m : ℕ) : List UInt8 :=
  (List.range m).foldl (fun bf j =>
    let pieceIndex := (i * 8 + j) % 2 ^ 32
    if pieceIndex < numPieces then bf.set pieceIndex (bit byte j) else bf) bitfield

def getPeerBitfield (payload : Bytes) (numPieces : ℕ) : List UInt8 :=
  payload.zipIdx.foldl (fun bf e => setBits numPieces bf e.2 e.1 8) (List.replicate numPieces 0)

section Bitfield

variable {n : ℕ} {bf : List UInt8} {byte : UInt8}

theorem setBits_succ (i m : ℕ) : setBits n bf i byte (m + 1) =
    if (i * 8 + m) % 2 ^ 32 < n then (setBits n bf i byte m).set ((i * 8 + m) % 2 ^ 32) (bit byte m)
    else setBits n bf i byte m := by
  simp only [setBits, List.range_succ, List.foldl_append, List.foldl_cons, List.foldl_nil]

@[simp] theorem length_setBits (i m : ℕ) : (setBits n bf i byte m).length = bf.length := by
  induction m with
  | zero => rfl
  | succ m ih => rw [setBits_succ]; split_ifs <;> simp [ih]

theorem getPeerBitfield_snoc (payload : Bytes) (byte : UInt8) (n : ℕ) :
    getPeerBitfield (payload ++ [byte]) n = setBits n (getPeerBitfield payload n) payload.length byte 8 := by
  simp [getPeerBitfield, List.zipIdx_append]

/-- **One entry per piece**, whatever the payload -/
@[simp] theorem length_getPeerBitfield (payload : Bytes) (n : ℕ) : (getPeerBitfield payload n).length = n := by
  induction payload using List.reverseRecOn with
  | nil => simp [getPeerBitfield]
  | append_singleton payload byte ih => rw [getPeerBitfield_snoc, length_setBits, ih]

/-- the bits of a byte land in eight entries, and nowhere else; the entry numbers are 32-bit values -/
theorem getElem?_setBits_mod {i m x : ℕ} (hm : m ≤ 8) (hbf : bf.length = n) (hx : x < n) :
    (setBits n bf i byte m)[x]? = if x / 8 = i % 2 ^ 29 ∧ x % 8 < m then some (bit byte (x % 8)) else bf[x]? := by
  induction m with
  | zero => simp [setBits]
  | succ m ih =>
    rw [setBits_succ]
    by_cases hxm : x = (i * 8 + m) % 2 ^ 32
    · subst hxm
      rw [if_pos hx, List.getElem?_set_self (by simpa [hbf] using hx), if_pos (by omega)]
      congr 2
      omega
    · have hstep : (if (i * 8 + m) % 2 ^ 32 < n then (setBits n bf i byte m).set ((i * 8 + m) % 2 ^ 32) (bit byte m)
          else setBits n bf i byte m)[x]? = (setBits n bf i byte m)[x]? := by
        split_ifs
        · exact List.getElem?_set_ne fun e => hxm e.symm
        · rfl
      rw [hstep, ih (by omega)]
      split_ifs <;> first | rfl | omega

theorem getElem?_setBits {i m x : ℕ} (hm : m ≤ 8) (hi : i * 8 + 8 ≤ 2 ^ 32) (hbf : bf.length = n) (hx : x < n) :
    (setBits n bf i byte m)[x]? = if x / 8 = i ∧ x % 8 < m then some (bit byte (x % 8)) else bf[x]? := by
  rw [getElem?_setBits_mod hm hbf hx, Nat.mod_eq_of_lt (by omega)]

/-- **Bit by bit**: the entry of piece `x` is bit `x` of the payload, and 0 past its end. -/
theorem getElem?_getPeerBitfield {payload : Bytes} (h : payload.length ≤ 2 ^ 29) {x : ℕ} (hx : x < n) :
    (getPeerBitfield payload n)[x]? = some ((payload[x / 8]?.map fun byte => bit byte (x % 8)).getD 0) := by
  induction payload using List.reverseRecOn with
  | nil => simp [getPeerBitfield, hx]
  | append_singleton payload byte ih =>
    rw [List.length_append, List.length_singleton] at h
    rw [getPeerBitfield_snoc, getElem?_setBits le_rfl (by omega) (length_getPeerBitfield payload n) hx, ih (by omega)]
    have hmod : x % 8 < 8 := Nat.mod_lt x (by decide)
    by_cases hxi : x / 8 = payload.length
    · rw [if_pos ⟨hxi, hmod⟩, hxi, List.getElem?_append_right le_rfl]
      simp
    · rw [if_neg fun hc => hxi hc.1]
      by_cases hlt : x / 8 < payload.length
      · rw [List.getElem?_append_left hlt]
      · rw [List.getElem?_eq_none (by omega), List.getElem?_eq_none (by simp; omega)]

/-- the last byte of the payload that is written to the entries of byte `r` -/
def lastByte (payload : Bytes) (r : ℕ) : Option UInt8 := payload[r + 2 ^ 29 * ((payload.length - 1 - r) / 2 ^ 29)]?

theorem lastByte_of_le {payload : Bytes} (h : payload.length ≤ 2 ^ 29) (r : ℕ) : lastByte payload r = payload[r]? := by
  rw [lastByte, Nat.div_eq_of_lt (by omega), Nat.mul_zero, Nat.add_zero]

/-- what a payload of any length leaves in the entry of piece `x` -/
theorem getElem?_getPeerBitfield_last (payload : Bytes) {x : ℕ} (hx : x < n) (hx32 : x < 2 ^ 32) :
    (getPeerBitfield payload n)[x]? = some (((lastByte payload (x / 8)).map fun byte => bit byte (x % 8)).getD 0) := by
  induction payload using List.reverseRecOn with
  | nil => simp [getPeerBitfield, lastByte, hx]
  | append_singleton payload byte ih =>
    rw [getPeerBitfield_snoc, getElem?_setBits_mod le_rfl (length_getPeerBitfield payload n) hx, ih]
    have hmod : x % 8 < 8 := Nat.mod_lt x (by decide)
    have hlen : (payload ++ [byte]).length - 1 = payload.length := by simp
    by_cases hxi : x / 8 = payload.length % 2 ^ 29
    · have hpos : x / 8 + 2 ^ 29 * ((payload.length - x / 8) / 2 ^ 29) = payload.length := by omega
      rw [if_pos ⟨hxi, hmod⟩, lastByte, hlen, hpos, List.getElem?_append_right le_rfl]
      simp
    · have hsame : x / 8 + 2 ^ 29 * ((payload.length - x / 8) / 2 ^ 29) =
          x / 8 + 2 ^ 29 * ((payload.length - 1 - x / 8) / 2 ^ 29) := by omega
      rw [if_neg fun hc => hxi hc.1, lastByte, lastByte, hlen, hsame]
      by_cases hlt : x / 8 + 2 ^ 29 * ((payload.length - 1 - x / 8) / 2 ^ 29) < payload.length
      · rw [List.getElem?_append_left hlt]
      · rw [List.getElem?_eq_none (by omega), List.getElem?_eq_none (by simp; omega)]

end Bitfield

end SimpleTorrent.MessageUtil
