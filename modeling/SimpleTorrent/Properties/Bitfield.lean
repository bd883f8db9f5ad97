/-
What a Bitfield message makes a peer have.

- `hasBit`: whether a payload offers a piece, most significant bit first, with no bits past its end.
- `Decodes`: the decoded bitfield has one entry per piece, each entry is the bit of its piece, and the peer is recorded
  with exactly these pieces.
- `decodes_iff`: this holds exactly if, for each piece, the last byte that is written to its entry has the same bit. A
  payload of at most 2^29 bytes writes each entry once.
- `excess_bit_wraps`: in a longer payload, bit number 2^32 is written to the entry of piece 0.
-/
import Mathlib.Data.Nat.Bitwise
import SimpleTorrent.Manager.Refinement
import SimpleTorrent.Model.Peer
import SimpleTorrent.Properties.Coherence

namespace SimpleTorrent

open MessageUtil PieceManager

/-! ## Bits -/

/-- bit `7 - k % 8` of a byte -/
def bitOf (byte : Option UInt8) (k : ℕ) : Bool := (byte.map fun b => b.toNat.testBit (7 - k % 8)).getD false

/-- the payload offers piece `k` -/
def hasBit (payload : Bytes) (k : ℕ) : Bool := bitOf payload[k / 8]? k

/-- the bit that is written last to the entry of piece `k` -/
def finalBit (payload : Bytes) (k : ℕ) : Bool := bitOf (lastByte payload (k / 8)) k

theorem bit_eq (byte : UInt8) {j : ℕ} (hj : j < 8) : bit byte j = if byte.toNat.testBit (7 - j) then 1 else 0 := by
  have hmask : (0x80 >>> UInt8.ofNat j : UInt8).toNat = 2 ^ (7 - j) := by interval_cases j <;> rfl
  have hand : (byte &&& (0x80 >>> UInt8.ofNat j)).toNat = (byte.toNat.testBit (7 - j)).toNat * 2 ^ (7 - j) := by
    rw [UInt8.toNat_and, hmask, Nat.and_two_pow]
  rw [bit]
  cases hbit : byte.toNat.testBit (7 - j) with
  | false =>
    have hzero : byte &&& (0x80 >>> UInt8.ofNat j) = 0 := UInt8.toNat_inj.1 (by rw [hand, hbit]; simp)
    simp [hzero]
  | true =>
    have hne : byte &&& (0x80 >>> UInt8.ofNat j) ≠ 0 := by
      intro hzero
      have hpos := Nat.two_pow_pos (7 - j)
      rw [hzero, hbit, Bool.toNat_true, Nat.one_mul] at hand
      exact hpos.ne hand
    simp [hne]

theorem getElem?_bitfield (payload : Bytes) {n k : ℕ} (hk : k < n) (hn : n ≤ 2 ^ 32) :
    (getPeerBitfield payload n)[k]? = some (if finalBit payload k then 1 else 0) := by
  rw [getElem?_getPeerBitfield_last payload hk (Nat.lt_of_lt_of_le hk hn), finalBit]
  cases lastByte payload (k / 8) with
  | none => rfl
  | some byte =>
    have hbit := bit_eq byte (Nat.mod_lt k (by decide : 8 > 0))
    simp only [bitOf, Option.map_some, Option.getD_some]
    exact congrArg some hbit

/-- a payload of at most 2^29 bytes writes each entry once -/
theorem finalBit_of_le {payload : Bytes} (h : payload.length ≤ 2 ^ 29) (k : ℕ) :
    finalBit payload k = hasBit payload k := by
  rw [finalBit, lastByte_of_le h, hasBit]

namespace Peer

variable {s : Peer} {payload : Bytes}

/-- the pieces that a payload offers -/
def offered (s : Peer) (payload : Bytes) : Set ℕ := {k | k < s.numPieces ∧ hasBit payload k}

/-- a Bitfield message is decoded bit by bit, and recorded as what the peer has, unless it offers nothing -/
structure Decodes (s : Peer) (payload : Bytes) : Prop where
  length : (getPeerBitfield payload s.numPieces).length = s.numPieces
  entry : ∀ k < s.numPieces, (getPeerBitfield payload s.numPieces)[k]? = some (if hasBit payload k then 1 else 0)
  recorded : (s.offered payload).Nonempty → ∃ bitfield,
    (s.handleBitfieldMessage payload).pieceManager.peersBitfieldMap.lookup s.peerNumId = some bitfield ∧
      bitfield.length = s.numPieces ∧ haveSet bitfield = s.offered payload
  refused : ¬ (s.offered payload).Nonempty → s.handleBitfieldMessage payload = s.finish

section Entries

variable (h : ∀ k < s.numPieces,
  (getPeerBitfield payload s.numPieces)[k]? = some (if hasBit payload k then 1 else 0))

include h

theorem entry_iff (k : ℕ) (v : UInt8) : (getPeerBitfield payload s.numPieces)[k]? = some v ↔
    k < s.numPieces ∧ v = if hasBit payload k then 1 else 0 := by
  by_cases hk : k < s.numPieces
  · simp only [h k hk, hk, true_and, Option.some.injEq, eq_comm]
  · have hlen : (getPeerBitfield payload s.numPieces).length = s.numPieces := length_getPeerBitfield _ _
    rw [List.getElem?_eq_none (by omega)]
    simp [hk]

theorem all_zero_iff :
    (getPeerBitfield payload s.numPieces).all (· == 0) = true ↔ ¬ (s.offered payload).Nonempty := by
  simp only [List.all_eq_true, List.mem_iff_getElem?, entry_iff h, offered, Set.not_nonempty_iff_eq_empty,
    Set.eq_empty_iff_forall_notMem, Set.mem_ofPred_eq, not_and]
  constructor
  · intro hzero k hk hbit
    have hv := hzero _ ⟨k, hk, rfl⟩
    simp [hbit] at hv
  · intro hnone v hv
    obtain ⟨k, hk, rfl⟩ := hv
    simp [hnone k hk]

theorem haveSet_convert : haveSet (convert (getPeerBitfield payload s.numPieces)) = s.offered payload := by
  ext k
  simp only [haveSet, convert, List.getElem?_map, Option.map_eq_some_iff, entry_iff h, offered, Set.mem_ofPred_eq]
  constructor
  · intro hv
    obtain ⟨v, ⟨hk, hv⟩, hhave⟩ := hv
    refine ⟨hk, ?_⟩
    by_contra hbit
    rw [if_neg hbit] at hv
    subst hv
    cases hhave
  · intro hk
    exact ⟨1, ⟨hk.1, by rw [if_pos hk.2]⟩, rfl⟩

/-- what is recorded follows from the entries -/
theorem decodes_of_entry : s.Decodes payload where
  length := length_getPeerBitfield _ _
  entry := h
  recorded := by
    intro hsome
    refine ⟨convert (getPeerBitfield payload s.numPieces), ?_, by simp [convert], haveSet_convert h⟩
    rw [handleBitfieldMessage, if_neg (fun hz => (all_zero_iff h).1 hz hsome), lookup_updatePieceFrequencies, if_pos rfl]
  refused := by
    intro hnone
    rw [handleBitfieldMessage, if_pos ((all_zero_iff h).2 hnone)]

end Entries

theorem Decodes.agrees (h : s.Decodes payload) (hn : s.numPieces < 2 ^ 32) {k : ℕ} (hk : k < s.numPieces) :
    hasBit payload k = finalBit payload k := by
  have hentry := h.entry k hk
  rw [getElem?_bitfield payload hk hn.le, Option.some.injEq] at hentry
  cases hb : hasBit payload k <;> cases hl : finalBit payload k <;> simp [hb, hl] at hentry ⊢

theorem decodes_of_finalBit (hn : s.numPieces < 2 ^ 32)
    (h : ∀ k < s.numPieces, hasBit payload k = finalBit payload k) : s.Decodes payload := by
  refine decodes_of_entry fun k hk => ?_
  rw [getElem?_bitfield payload hk hn.le, h k hk]

/-- **Which Bitfield messages are decoded exactly**: those in which, for each piece, the byte written last to its entry
agrees with the byte of the piece. -/
theorem decodes_iff (s : Peer) (payload : Bytes) (hn : s.numPieces < 2 ^ 32) :
    s.Decodes payload ↔ ∀ k < s.numPieces, hasBit payload k = finalBit payload k :=
  ⟨fun h _ hk => h.agrees hn hk, decodes_of_finalBit hn⟩

theorem decodes_iff_onePiece : ∃ m, onePiece.run id [] = .ok m ∧
    ((init m 0 9).Decodes [0x80, 0x80] ↔ ∀ k < 9, hasBit [0x80, 0x80] k = finalBit [0x80, 0x80] k) :=
  ⟨_, rfl, decodes_iff (init _ 0 9) [0x80, 0x80] (by decide)⟩

/-- in particular, all messages of up to 2^29 bytes -/
theorem decodes_of_le (hn : s.numPieces < 2 ^ 32) (h : payload.length ≤ 2 ^ 29) : s.Decodes payload :=
  decodes_of_finalBit hn fun k _ => (finalBit_of_le h k).symm

/-- 2^29 bytes without a bit, and one more byte -/
def wrappingPayload : Bytes := List.replicate (2 ^ 29) 0 ++ [0x80]

/-- **An excess bit**: a payload that offers nothing is recorded as an offer of piece 0. -/
theorem excess_bit_wraps : wrappingPayload.length ≤ 2 ^ 32 - 2 ∧ hasBit wrappingPayload 0 = false ∧
    (getPeerBitfield wrappingPayload 1)[0]? = some 1 ∧
    ∃ m, onePiece.run id [] = .ok m ∧ ¬ (init m 0 1).Decodes wrappingPayload := by
  have hlen : wrappingPayload.length = 2 ^ 29 + 1 := by
    rw [wrappingPayload, List.length_append, List.length_replicate, List.length_singleton]
  have hbit : hasBit wrappingPayload 0 = false := by
    rw [hasBit, wrappingPayload, List.getElem?_append_left (by rw [List.length_replicate]; omega),
      List.getElem?_replicate_of_lt (by omega)]
    rfl
  have hlast : finalBit wrappingPayload 0 = true := by
    have hpos : 0 / 8 + 2 ^ 29 * ((wrappingPayload.length - 1 - 0 / 8) / 2 ^ 29) = 2 ^ 29 := by omega
    rw [finalBit, lastByte, hpos, wrappingPayload, List.getElem?_append_right (by rw [List.length_replicate]),
      List.length_replicate, Nat.sub_self]
    rfl
  refine ⟨by omega, hbit, ?_, _, rfl, ?_⟩
  · rw [getElem?_bitfield wrappingPayload (by decide) (by decide), hlast]
    rfl
  · intro h
    have hsame := h.agrees (by decide) Nat.zero_lt_one
    rw [hbit, hlast] at hsame
    cases hsame

end Peer

end SimpleTorrent
