/-
`add_block`, read on the piece store.

- `finishPiece_spec`: a piece whose last block has arrived is saved or started anew.
- `addBlock_spec`: `add_block` never fails; it ignores the block, or delivers it to the slot of its piece.
-/
import SimpleTorrent.Manager.Abstraction

namespace SimpleTorrent

open Checked Buffer Splice

namespace PieceManager

variable {c : Config} {sha1 : Bytes → Bytes} {s t : PieceManager} {x p : ℕ}

/-! ## add_block -/

theorem isValidBlockData_eq {block : Block} :
    s.isValidBlockData block = .ok (match s.pieces[block.pieceIndex]? with
      | none => false
      | some m => decide (block.blockOffset < m.currentPieceLength ∧
          block.data.length ≤ m.currentPieceLength - block.blockOffset)) := by
  rw [isValidBlockData]
  split_ifs with hlen
  · rw [List.getElem?_eq_none hlen]
  · rw [List.getElem?_eq_getElem (Nat.not_le.1 hlen), vecAt_eq_ok.2 (List.getElem?_eq_getElem (Nat.not_le.1 hlen)),
      ok_bind]
    split_ifs with hoff
    · simp [Nat.not_lt.2 hoff]
    · simp [Nat.not_le.1 hoff]

theorem isVerifiedPiece_eq {m : PieceMetadata} (hm : s.pieces[x]? = some m) (data : Bytes) :
    s.isVerifiedPiece sha1 x data = .ok (sha1 data == m.pieceHash) := by
  rw [isVerifiedPiece, vecAt_eq_ok.2 hm, ok_bind, checksumFinal, hexDecode_toHexString, ok_bind]
  rfl

/-- removing the slot of a piece whose state was set, together with its affinities -/
theorem removePiece_spec (h : s.Shape c) {q : BufferPiece} (hq : s.buffer.slotOf x = some q) :
    ∃ t, s.removePieceFromBuffer x = .ok t ∧ Keeps c s t ∧ t.toStore = (s.toStore.dropAffinity x).setSlot x none := by
  rw [removePieceFromBuffer, show (s.removeAffinity x).buffer = s.buffer from rfl, removePieceFromBuffer_spec h.wf hq]
  refine ⟨(s.removeAffinity x).putBuffer (s.buffer.dropSlot x), rfl, ?_, ?_⟩
  · exact ⟨h.removeAffinity.putBuffer (h.wf.dropSlot hq) (by simp [removeAffinity]) (by simp [removeAffinity]), rfl⟩
  · rw [toStore_buffer (s := s.removeAffinity x) (h.wf.slotOf_dropSlot hq), toStore_removeAffinity]
    rfl

/-- a complete piece is saved, or started anew -/
theorem finishPiece_spec (sha1 : Bytes → Bytes) (h : s.Shape c) {m : PieceMetadata} (hm : s.pieces[x]? = some m)
    (hms : m.state ≠ .completed) {q : BufferPiece} (hq : s.buffer.slotOf x = some q) (data : Bytes) :
    ∃ t, s.finishPiece sha1 x data = .ok t ∧ Keeps c s t ∧
      t.toStore = if sha1 data = c.layout.hash x then
          (s.toStore.log (.savePiece x (c.layout.offset x) data)).close x .completed
        else (s.toStore.log (.hashMismatch x)).close x .notStarted := by
  rw [finishPiece, isVerifiedPiece_eq hm, ok_bind, (h.piece x m hm).1]
  by_cases hver : sha1 data = c.layout.hash x
  · have hlog : (s.savePiece x data).toStore = s.toStore.log (.savePiece x (c.layout.offset x) data) := by
      rw [savePiece, h.pieceLength]; rfl
    have hset := setState_eq (s := s.savePiece x data) hm .completed
    have hshape := (h.log (.savePiece x (fileOffset s.pieceLength x) data)).complete hm hms
    obtain ⟨t, ht, htshape, htstore⟩ := removePiece_spec hshape hq
    refine ⟨t, ?_, ⟨htshape.shape, htshape.bitfields⟩, ?_⟩
    · rw [if_pos (by simpa using hver), hset]
      exact ht
    · rw [if_pos hver, htstore, Store.close, ← hlog, ← toStore_putState (s := s.savePiece x data) hm]
      rfl
  · have hset := setState_eq (s := s.log (.hashMismatch x)) hm .notStarted
    have hshape := (h.log (.hashMismatch x)).putState hm hms .notStarted (by simp)
    obtain ⟨t, ht, htshape, htstore⟩ := removePiece_spec hshape hq
    refine ⟨t, ?_, ⟨htshape.shape, htshape.bitfields⟩, ?_⟩
    · rw [if_neg (by simpa using hver), hset]
      exact ht
    · rw [if_neg hver, htstore, Store.close, toStore_putState (s := s.log (.hashMismatch x)) hm]
      rfl

/-- a block that fits its piece is written, and the last one finishes the piece -/
theorem writeBlock_spec (h : s.Inv c sha1) {block : Block} {q : BufferPiece}
    (hq : s.buffer.slotOf block.pieceIndex = some q) (hoff : block.blockOffset < c.layout.len block.pieceIndex)
    (hlen : block.blockOffset + block.data.length ≤ c.layout.len block.pieceIndex) :
    ∃ t, (do
        let ((completed, data), buffer) ← s.buffer.writeBlockToBuffer block
        let s := { s with buffer := buffer }.log
          (.writeBlock block.pieceIndex (block.blockOffset / s.buffer.blockLength))
        if completed then s.finishPiece sha1 block.pieceIndex data else return s) = .ok t ∧ Keeps c s t ∧
      t.toStore = s.toStore.deliver c.layout sha1 block.pieceIndex (toSlot q) block.blockOffset block.data := by
  obtain ⟨m, hm, hms, hqb, hqd⟩ := h.slotOf_eq_some hq
  have hbl := h.shape.bufferBlock
  have hk := c.layout.div_lt_blocks hoff
  rw [writeBlockToBuffer_spec h.shape.wf hq (by omega) (by rw [hbl]; omega), ok_bind, hbl]
  set k := block.blockOffset / c.layout.blockLength with hkdef
  set blocks := q.blocksState.set k .haveBlock with hblocks
  set data := splice q.data block.blockOffset block.data with hdata
  set u := (s.putBuffer (s.buffer.putSlot block.pieceIndex { q with data := data, blocksState := blocks })).log
    (.writeBlock block.pieceIndex k) with hu
  have hushape : u.Shape c := (h.shape.putSlot hq data blocks).log _
  have hustore : u.toStore = (s.toStore.log (.writeBlock block.pieceIndex k)).setSlot block.pieceIndex
      (some ⟨blocks, data⟩) := by
    rw [hu, toStore_log, toStore_putSlot h.shape.wf hq]; rfl
  have huq : u.buffer.slotOf block.pieceIndex = some { q with data := data, blocksState := blocks } := by
    change (s.buffer.putSlot _ _).slotOf _ = _
    rw [h.shape.wf.slotOf_putSlot hq, Function.update_self]
  have hmc : m.state ≠ .completed := by rcases hms with hms | hms <;> simp [hms]
  simp only [Store.deliver, toSlot, ← hkdef, ← hblocks, ← hdata]
  by_cases hall : blocks.all (· == .haveBlock) = true
  · obtain ⟨t, ht, htshape, htstore⟩ := finishPiece_spec sha1 hushape hm hmc huq data
    refine ⟨t, ?_, ⟨htshape.shape, htshape.bitfields⟩, ?_⟩
    · rw [if_pos hall]
      exact ht
    · rw [if_pos hall, htstore, hustore]
      split_ifs
      · refine Store.ext' rfl ?_ rfl rfl rfl
        simp [Store.close]
      · refine Store.ext' rfl ?_ rfl rfl rfl
        simp [Store.close]
  · refine ⟨u, ?_, ⟨hushape, rfl⟩, ?_⟩
    · rw [if_neg hall]
      rfl
    · rw [if_neg hall, hustore]

/-- **What `add_block` does**: it always succeeds, and either ignores the block or delivers it. -/
theorem addBlock_spec (h : s.Inv c sha1) (p : ℕ) (block : Block) :
    ∃ t, s.addBlock sha1 p block = .ok t ∧ Keeps c s t ∧
      (t = s ∧ (∀ sl, s.toStore.slot block.pieceIndex = some sl → block.blockOffset < c.layout.len block.pieceIndex →
          block.blockOffset + block.data.length ≤ c.layout.len block.pieceIndex →
          sl.blocks[block.blockOffset / c.layout.blockLength]? = some .haveBlock) ∨
        ∃ sl, s.toStore.slot block.pieceIndex = some sl ∧ block.blockOffset < c.layout.len block.pieceIndex ∧
          block.blockOffset + block.data.length ≤ c.layout.len block.pieceIndex ∧
          sl.blocks[block.blockOffset / c.layout.blockLength]? ≠ some .haveBlock ∧
          t.toStore = s.toStore.deliver c.layout sha1 block.pieceIndex sl block.blockOffset block.data) := by
  rw [addBlock, isValidBlockData_eq, ok_bind]
  cases hq : s.buffer.slotOf block.pieceIndex with
  | none =>
    have hnone : s.toStore.slot block.pieceIndex = none := by simp [toStore, hq]
    refine ⟨s, ?_, ⟨h.shape, rfl⟩, Or.inl ⟨rfl, by simp [hnone]⟩⟩
    rw [shouldWriteBlock_none h.shape.wf hq, ok_bind, if_pos (by rfl : (!false) = true)]
    split_ifs <;> rfl
  | some q =>
    obtain ⟨m, hm, -, hqb, -⟩ := h.slotOf_eq_some hq
    have hlenm := (h.shape.piece _ m hm).2.1
    simp only [hm, hlenm]
    by_cases hvalid : block.blockOffset < c.layout.len block.pieceIndex ∧
        block.data.length ≤ c.layout.len block.pieceIndex - block.blockOffset
    · have hk := c.layout.div_lt_blocks hvalid.1
      obtain ⟨st, hst⟩ : ∃ st, q.blocksState[block.blockOffset / c.layout.blockLength]? = some st :=
        ⟨_, List.getElem?_eq_getElem (by omega)⟩
      rw [shouldWriteBlock_spec h.shape.wf hq (h.shape.bufferBlock.symm ▸ hst), ok_bind,
        if_neg (by simpa using hvalid)]
      by_cases hhave : st = .haveBlock
      · subst hhave
        refine ⟨s, rfl, ⟨h.shape, rfl⟩, Or.inl ⟨rfl, ?_⟩⟩
        intro sl hsl _ _
        rw [toStore_slot hq, Option.some.injEq] at hsl
        exact hsl ▸ hst
      · have hwrite : (!(st == .requested || st == .dontHave)) = false := by cases st <;> simp_all
        obtain ⟨t, ht, htshape, htstore⟩ := writeBlock_spec h hq hvalid.1 (by omega)
        refine ⟨t, ?_, htshape, Or.inr ⟨toSlot q, toStore_slot hq, hvalid.1, by omega, ?_, htstore⟩⟩
        · rw [hwrite, if_neg (by decide)]
          exact ht
        · rw [show (toSlot q).blocks = q.blocksState from rfl, hst]
          simpa using hhave
    · refine ⟨s, ?_, ⟨h.shape, rfl⟩, Or.inl ⟨rfl, fun sl _ hoff hlen => absurd ⟨hoff, by omega⟩ hvalid⟩⟩
      rw [if_pos (by rw [decide_eq_false hvalid]; rfl)]
      rfl

theorem addBlock_moves (h : s.Inv c sha1) {block : Block} (hr : s.addBlock sha1 p block = .ok t) : Moves c sha1 s t := by
  obtain ⟨t', ht', hshape, hcase⟩ := addBlock_spec h p block
  obtain rfl : t' = t := Except.ok.inj (ht'.symm.trans hr)
  rcases hcase with ⟨rfl, -⟩ | ⟨sl, hsl, hoff, hlen, hk, hstore⟩
  · exact .refl hshape.shape
  · exact .single hshape.shape (hstore ▸ .deliver _ sl _ _ hsl hoff hlen hk)

end PieceManager

end SimpleTorrent
