/-
Which ranges of a piece `select_next_block` asks for.

The constructor rounds the number of blocks up for every piece. `calculate_block_length` shortens the last block of the
last piece only.

- `requestFor`: the request for a block, and `issued_of_select`: there are no other requests.
- `Tiled`, `Answerable`: the requests for a piece lie end to end and end with it; an exact answer to each is valid data.
- `tiling_iff`: both hold for the last piece, and for the others exactly if the piece length is a multiple of the block
  length.
- `request_past_end`: if it is not, the last request for a piece reaches past its end, and its answer is refused.
-/
import SimpleTorrent.Properties.Coherence

namespace SimpleTorrent

open Checked Buffer Store

/-! ## Lengths -/

namespace Config

variable (c : Config) {i k : ℕ}

/-- the requests of the last piece end where its blocks end -/
theorem request_end_last (hi : i + 1 = c.numPieces) (hk : k < c.layout.blocks i) :
    k * c.layout.blockLength + c.requestLength i k = blockEnd c.layout.blockLength (c.layout.len i) k := by
  have hb := c.layout.blockLength_pos
  have hlt := c.layout.mul_lt_len hk
  have hdiv : c.layout.blockLength * (c.layout.len i / c.layout.blockLength) +
      c.layout.len i % c.layout.blockLength = c.layout.len i := Nat.div_add_mod _ _
  have hmod := Nat.mod_lt (c.layout.len i) hb
  rw [requestLength, blockEnd, Nat.succ_mul]
  by_cases hfull : k < c.layout.len i / c.layout.blockLength
  · have hle := (Nat.le_div_iff_mul_le hb).1 (Nat.succ_le_of_lt hfull)
    rw [Nat.succ_mul] at hle
    rw [if_neg (fun h => absurd h.2 (Nat.not_le.2 hfull)), Nat.min_eq_left hle]
  · -- the block after the last full one is the remainder
    have heq : k = c.layout.len i / c.layout.blockLength :=
      Nat.le_antisymm ((Nat.le_div_iff_mul_le hb).2 hlt.le) (Nat.not_lt.1 hfull)
    rw [if_pos ⟨hi, Nat.not_lt.1 hfull⟩, Nat.min_eq_right]
    · rw [heq, Nat.mul_comm]
      exact hdiv
    · rw [heq, Nat.mul_comm]
      omega

/-- the requests of the other pieces have the full block length -/
theorem requestLength_of_ne (hi : i + 1 ≠ c.numPieces) : c.requestLength i k = c.layout.blockLength := by
  rw [requestLength, if_neg fun h => hi h.1]

theorem len_of_ne (hi : i + 1 ≠ c.numPieces) (h : i < c.numPieces) : c.layout.len i = c.data.pieceLength := by
  have hnot : ¬ (i = c.data.pieceHashes.length - 1 ∧ c.data.totalLength % c.data.pieceLength ≠ 0) := by
    rintro ⟨heq, -⟩
    exact hi (by rw [numPieces] at h ⊢; omega)
  calc c.layout.len i = sizeOfPiece c.data i := c.currentPieceLength_eq i
    _ = c.data.pieceLength % 2 ^ 32 := by simp only [sizeOfPiece, if_neg hnot]
    _ = c.data.pieceLength := Nat.mod_eq_of_lt c.pieceLength_lt

/-- what decides where the requests end -/
theorem request_end_iff (hi : i < c.numPieces) :
    (∀ k < c.layout.blocks i, k * c.layout.blockLength + c.requestLength i k =
      blockEnd c.layout.blockLength (c.layout.len i) k) ↔
    i + 1 = c.numPieces ∨ c.blockLength.toNat ∣ c.data.pieceLength := by
  by_cases hlast : i + 1 = c.numPieces
  · exact ⟨fun _ => Or.inl hlast, fun _ k hk => c.request_end_last hlast hk⟩
  · have hlen := c.len_of_ne hlast hi
    simp only [c.requestLength_of_ne hlast, hlast, false_or, ← Nat.succ_mul]
    constructor
    · intro h
      have hpos := c.layout.blocks_pos i
      have hend := h (c.layout.blocks i - 1) (by omega)
      rw [c.layout.blockEnd_last (Nat.sub_add_cancel hpos), hlen] at hend
      exact ⟨_, (hend.symm.trans (Nat.mul_comm _ _))⟩
    · rintro ⟨q, hq⟩ k hk
      have hlt := c.layout.mul_lt_len hk
      rw [hlen, hq, show c.layout.blockLength = c.blockLength.toNat from rfl, Nat.mul_comm,
        Nat.mul_lt_mul_left c.blockLength_pos] at hlt
      refine (Nat.min_eq_left ?_).symm
      rw [hlen, hq, Nat.mul_comm]
      exact Nat.mul_le_mul_left _ (Nat.succ_le_of_lt hlt)

end Config

/-! ## Requests -/

namespace PieceManager

variable {c : Config} {sha1 : Bytes → Bytes} {s t : PieceManager} {i k p : ℕ} {m : PieceMetadata}

/-- the request that `select_next_block` makes for block `k` of piece `i` -/
def requestFor (s : PieceManager) (i k : ℕ) : BlockRequest :=
  ⟨i, k * s.blockLength % 2 ^ 32, s.calculateBlockLength i k⟩

/-- the requests for the blocks of a piece are not empty, lie end to end, and end with the piece -/
structure Tiled (s : PieceManager) (i : ℕ) (m : PieceMetadata) : Prop where
  nonempty : ∀ k < m.numBlocks, 0 < (s.requestFor i k).blockLength
  first : (s.requestFor i 0).blockOffset = 0
  adjacent : ∀ k, k + 1 < m.numBlocks →
    (s.requestFor i (k + 1)).blockOffset = (s.requestFor i k).blockOffset + (s.requestFor i k).blockLength
  last : ∃ k, k + 1 = m.numBlocks ∧
    (s.requestFor i k).blockOffset + (s.requestFor i k).blockLength = m.currentPieceLength

/-- an exact answer to any request for a piece is valid data -/
def Answerable (s : PieceManager) (i : ℕ) (m : PieceMetadata) : Prop :=
  ∀ k < m.numBlocks, ∀ data : Bytes, data.length = (s.requestFor i k).blockLength →
    s.isValidBlockData ⟨i, (s.requestFor i k).blockOffset, data⟩ = .ok true

/-- no offset of a block wraps -/
theorem Shape.requestFor_eq (h : s.Shape c) (hm : s.pieces[i]? = some m) (hk : k < m.numBlocks) :
    s.requestFor i k = ⟨i, k * c.layout.blockLength, c.requestLength i k⟩ := by
  rw [(h.piece i m hm).2.2] at hk
  have hlt := c.layout.mul_lt_len hk
  have hlen : c.layout.len i < 2 ^ 32 := Nat.mod_lt _ (by decide)
  rw [requestFor, h.calculateBlockLength hm, h.blockLength, Nat.mod_eq_of_lt (by omega)]

/-- if every request ends where its block ends, they are tiled -/
theorem Shape.tiled (h : s.Shape c) (hm : s.pieces[i]? = some m)
    (hend : ∀ k < c.layout.blocks i, k * c.layout.blockLength + c.requestLength i k =
      blockEnd c.layout.blockLength (c.layout.len i) k) : s.Tiled i m := by
  obtain ⟨-, hlen, hnum⟩ := h.piece i m hm
  have hpos := c.layout.blocks_pos i
  refine ⟨?_, by simp [requestFor], ?_, ⟨c.layout.blocks i - 1, by omega, ?_⟩⟩
  · intro k hk
    have hlt := c.layout.mul_lt_blockEnd (x := i) (k := k) (by omega)
    have hk' := hend k (by omega)
    rw [h.requestFor_eq hm hk]
    show 0 < c.requestLength i k
    omega
  · intro k hk
    rw [h.requestFor_eq hm hk, h.requestFor_eq hm (Nat.lt_of_succ_lt hk)]
    show (k + 1) * c.layout.blockLength = k * c.layout.blockLength + c.requestLength i k
    rw [hend k (by omega), c.layout.blockEnd_of_succ_lt (by omega)]
  · rw [h.requestFor_eq hm (by omega), hlen]
    show (c.layout.blocks i - 1) * c.layout.blockLength + c.requestLength i (c.layout.blocks i - 1) = _
    rw [hend _ (by omega), c.layout.blockEnd_last (Nat.sub_add_cancel hpos)]

/-- and can be answered -/
theorem Shape.answerable (h : s.Shape c) (hm : s.pieces[i]? = some m)
    (hend : ∀ k < c.layout.blocks i, k * c.layout.blockLength + c.requestLength i k =
      blockEnd c.layout.blockLength (c.layout.len i) k) : s.Answerable i m := by
  obtain ⟨-, hlen, hnum⟩ := h.piece i m hm
  intro k hk data hdata
  rw [h.requestFor_eq hm hk] at hdata ⊢
  have hk' := hend k (by omega)
  have hlt := c.layout.mul_lt_len (x := i) (k := k) (by omega)
  have hle : blockEnd c.layout.blockLength (c.layout.len i) k ≤ c.layout.len i := Nat.min_le_right _ _
  rw [isValidBlockData_eq, hm, Except.ok.injEq]
  simp only [decide_eq_true_eq] at hdata ⊢
  omega

/-- if the last request ends with the piece, the requests end where the blocks end -/
theorem Tiled.condition (ht : s.Tiled i m) (h : s.Shape c) (hm : s.pieces[i]? = some m) :
    i + 1 = c.numPieces ∨ c.blockLength.toNat ∣ c.data.pieceLength := by
  obtain ⟨-, hlen, -⟩ := h.piece i m hm
  have hi : i < c.numPieces := h.size ▸ (List.getElem?_eq_some_iff.1 hm).1
  obtain ⟨k, hk, hend⟩ := ht.last
  rw [h.requestFor_eq hm (by omega), hlen] at hend
  by_cases hlast : i + 1 = c.numPieces
  · exact Or.inl hlast
  · right
    simp only [c.requestLength_of_ne hlast, c.len_of_ne hlast hi, ← Nat.succ_mul] at hend
    exact ⟨_, (hend.symm.trans (Nat.mul_comm _ _))⟩

/-- a request that is issued is one of those -/
theorem issued_of_select (h : s.Inv c sha1) {order : List ℕ} {r : BlockRequest}
    (hr : s.selectNextBlock p order = .ok (some r, t)) :
    ∃ k m, s.pieces[r.pieceIndex]? = some m ∧ k < m.numBlocks ∧ r = s.requestFor r.pieceIndex k := by
  have hmoves := selectNextBlock_moves h hr
  rcases selectNextBlock_cases h hr with
    ⟨-, hnone, -⟩ | ⟨bf, chosen, u, -, -, humoves, hukeeps, ⟨-, hnone, -⟩ | ⟨x, sl, -, hx, hsl, hreq, -⟩⟩
  · cases hnone
  · cases hnone
  · obtain ⟨k, hk, rfl⟩ := Option.map_eq_some_iff.1 hreq.symm
    have huinv := humoves.inv h
    have hblocks : sl.blocks.length = c.layout.blocks x := (huinv.good.inv.piece x).blocks sl hsl
    obtain ⟨mu, hmu, -⟩ := state_toStore hx
    have hxlt : x < s.pieces.length := by
      rw [h.shape.size, ← huinv.shape.size]
      exact (List.getElem?_eq_some_iff.1 hmu).1
    have hm : s.pieces[x]? = some s.pieces[x] := List.getElem?_eq_getElem hxlt
    have hnum := (h.shape.piece x _ hm).2.2
    have hklt : k < s.pieces[x].numBlocks := by
      rw [hnum, ← hblocks]
      exact firstMissing_lt hk
    refine ⟨k, _, hm, hklt, ?_⟩
    show c.request x k = s.requestFor x k
    rw [requestFor, Config.request, h.shape.calculateBlockLength hm, h.shape.blockLength]

/-- **Tiling.** All requests issued are requests for blocks of pieces, and those for the blocks of piece `i` tile it and
have valid exact answers if and only if it is the last piece or the piece length is a multiple of the block length. -/
theorem tiling_iff (c : Config) (sha1 : Bytes → Bytes) (ops : List Op) (hops : ∀ o ∈ ops, o.Narrow c)
    (s : PieceManager) (hs : c.run sha1 ops = .ok s) :
    (∀ p order r t, s.selectNextBlock p order = .ok (some r, t) →
      ∃ k m, s.pieces[r.pieceIndex]? = some m ∧ k < m.numBlocks ∧ r = s.requestFor r.pieceIndex k) ∧
    ∀ i m, s.pieces[i]? = some m →
      (s.Tiled i m ∧ s.Answerable i m ↔ i + 1 = c.numPieces ∨ c.blockLength.toNat ∣ c.data.pieceLength) := by
  have h := run_inv hops hs
  refine ⟨fun p order r t hr => issued_of_select h hr, fun i m hm => ⟨fun ht => ht.1.condition h.shape hm, ?_⟩⟩
  intro hcond
  have hi : i < c.numPieces := h.shape.size ▸ (List.getElem?_eq_some_iff.1 hm).1
  have hend := (c.request_end_iff hi).2 hcond
  exact ⟨h.shape.tiled hm hend, h.shape.answerable hm hend⟩

theorem tiling_iff_onePiece : ∃ s m, onePiece.run id onePieceOps = .ok s ∧ s.pieces[0]? = some m ∧
    (s.Tiled 0 m ∧ s.Answerable 0 m ↔ 0 + 1 = onePiece.numPieces ∨ 1 ∣ 2) := by
  obtain ⟨s, hs, m, hm⟩ : ∃ s, onePiece.run id onePieceOps = .ok s ∧ ∃ m, s.pieces[0]? = some m := ⟨_, rfl, _, rfl⟩
  exact ⟨s, m, hs, hm, (tiling_iff onePiece id onePieceOps (by simp [onePieceOps, Op.Narrow, onePiece]) s hs).2 0 m hm⟩

/-- two pieces of three bytes, in blocks of two -/
def oddPieces : Config := ⟨.ofHashes [[], []] 3 6, 2, 1, Nat.succ_pos 2, by decide, by decide⟩

/-- the second request for the first of these pieces is for its last byte and one more, and an exact answer is not
valid -/
theorem request_past_end : ∃ s t m, oddPieces.run id [.updatePieceFrequencies [1, 1] 0, .selectNextBlock 0 []] = .ok s ∧
    s.selectNextBlock 0 [] = .ok (some ⟨0, 2, 2⟩, t) ∧ s.pieces[0]? = some m ∧ m.currentPieceLength = 3 ∧
    ¬ s.Tiled 0 m ∧ ¬ s.Answerable 0 m := by
  refine ⟨_, _, _, rfl, rfl, rfl, rfl, ?_, ?_⟩
  · intro h
    obtain ⟨k, hk, hend⟩ := h.last
    obtain rfl : k = 1 := Nat.succ.inj hk
    exact absurd hend (by decide)
  · intro h
    exact absurd (h 1 (by decide) [0, 0] rfl) (by decide)

end PieceManager

end SimpleTorrent
