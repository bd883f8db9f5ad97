/-
`add_block` on a linked manager, for any block.

- `accepts`: the block passes both tests of `add_block`. `accepts_iff` says what that means for its piece and slot.
- `addBlock_accepted`, `addBlock_refused`: the result is `received`, or the manager as it was. A block can fail in one
  other way only: its slot number is beyond those of its piece.
- `run_linked`: every run keeps the links.
-/
import SimpleTorrent.Manager.Linked

namespace SimpleTorrent

open Checked Buffer Splice

/-- the slot when the block has been written to it -/
def BufferPiece.write (q : BufferPiece) (blockLength : ℕ) (block : Block) : BufferPiece :=
  { q with
    data := splice q.data block.blockOffset block.data
    blocksState := q.blocksState.set (block.blockOffset / blockLength) .haveBlock }

def BufferPiece.complete (q : BufferPiece) : Bool := q.blocksState.all (· == .haveBlock)

namespace PieceManager

variable {sha1 : Bytes → Bytes} {s t : PieceManager} {x p : ℕ} {m : PieceMetadata} {q : BufferPiece} {block : Block}

/-! ## The two tests -/

def accepts (s : PieceManager) (block : Block) : Bool :=
  match s.isValidBlockData block, s.buffer.shouldWriteBlock block.blockOffset block.pieceIndex with
  | .ok true, .ok true => true
  | _, _ => false

theorem accepts_eq_true : s.accepts block = true ↔
    s.isValidBlockData block = .ok true ∧ s.buffer.shouldWriteBlock block.blockOffset block.pieceIndex = .ok true := by
  unfold accepts
  split
  · rename_i hvalid hshould
    exact ⟨fun _ => ⟨hvalid, hshould⟩, fun _ => rfl⟩
  · rename_i hno
    exact ⟨fun h => absurd h (by decide), fun h => absurd h.2 (hno h.1)⟩

/-- the block lies within its piece, and its slot is not HAVE -/
structure Fitting (s : PieceManager) (block : Block) (m : PieceMetadata) (q : BufferPiece) : Prop where
  piece : s.pieces[block.pieceIndex]? = some m
  slot : s.buffer.slotOf block.pieceIndex = some q
  start : block.blockOffset < m.currentPieceLength
  stop : block.blockOffset + block.data.length ≤ m.currentPieceLength
  index : block.blockOffset / s.blockLength < q.blocksState.length
  missing : q.blocksState[block.blockOffset / s.blockLength]? ≠ some .haveBlock

theorem isValidBlockData_iff (hm : s.pieces[block.pieceIndex]? = some m) : s.isValidBlockData block = .ok true ↔
    block.blockOffset < m.currentPieceLength ∧ block.blockOffset + block.data.length ≤ m.currentPieceLength := by
  rw [isValidBlockData_eq, hm, Except.ok.injEq]
  simp only [decide_eq_true_eq]
  omega

/-- the answer of `should_write_block` for a piece of the buffer -/
theorem shouldWriteBlock_iff (h : s.Linked) (hq : s.buffer.slotOf block.pieceIndex = some q) :
    s.buffer.shouldWriteBlock block.blockOffset block.pieceIndex = .ok true ↔
      block.blockOffset / s.blockLength < q.blocksState.length ∧
        q.blocksState[block.blockOffset / s.blockLength]? ≠ some .haveBlock := by
  have hbl := h.bufferBlock
  cases hst : q.blocksState[block.blockOffset / s.blockLength]? with
  | none =>
    obtain ⟨j, hj, hbj, -⟩ := h.wf.slotOf_eq_some hq
    have hno : vecAt q.blocksState (block.blockOffset / s.buffer.blockLength) = .error .outOfRange := by
      rw [hbl, vecAt, hst]
    have hlen := List.getElem?_eq_none_iff.1 hst
    simp only [shouldWriteBlock, hj, Option.isSome_some, if_true, mapAt_eq_ok.2 hj, ok_bind, vecAt_eq_ok.2 hbj, hno,
      error_bind, reduceCtorEq, false_iff]
    omega
  | some st =>
    rw [shouldWriteBlock_spec h.wf hq (hbl.symm ▸ hst), Except.ok.injEq]
    have hlt := (List.getElem?_eq_some_iff.1 hst).1
    cases st <;> simp [hlt]

/-- **What it means to pass both tests** -/
theorem accepts_iff (h : s.Linked) : s.accepts block = true ↔ ∃ m q, s.Fitting block m q := by
  rw [accepts_eq_true]
  constructor
  · rintro ⟨hvalid, hshould⟩
    cases hq : s.buffer.slotOf block.pieceIndex with
    | none =>
      rw [shouldWriteBlock_none h.wf hq] at hshould
      cases hshould
    | some q =>
      obtain ⟨m, hm, -⟩ := h.slot _ q hq
      obtain ⟨hstart, hstop⟩ := (isValidBlockData_iff hm).1 hvalid
      obtain ⟨hindex, hmissing⟩ := (shouldWriteBlock_iff h hq).1 hshould
      exact ⟨m, q, hm, hq, hstart, hstop, hindex, hmissing⟩
  · rintro ⟨m, q, hm, hq, hstart, hstop, hindex, hmissing⟩
    exact ⟨(isValidBlockData_iff hm).2 ⟨hstart, hstop⟩, (shouldWriteBlock_iff h hq).2 ⟨hindex, hmissing⟩⟩

/-! ## The result -/

section Sha1

variable (sha1 : Bytes → Bytes)

/-- the manager when piece `x`, complete with these bytes, has been saved or started anew -/
def closed (s : PieceManager) (x : ℕ) (m : PieceMetadata) (data : Bytes) : PieceManager :=
  if sha1 data = m.pieceHash then
    (({ (s.savePiece x data).putState x m .completed with
      numPiecesCompleted := (s.numPiecesCompleted + 1) % 2 ^ 32 }).removeAffinity x).putBuffer (s.buffer.dropSlot x)
  else (((s.log (.hashMismatch x)).putState x m .notStarted).removeAffinity x).putBuffer (s.buffer.dropSlot x)

/-- the manager when the block has been written to slot `q` -/
def stored (s : PieceManager) (block : Block) (q : BufferPiece) : PieceManager :=
  (s.putBuffer (s.buffer.putSlot block.pieceIndex (q.write s.blockLength block))).log
    (.writeBlock block.pieceIndex (block.blockOffset / s.blockLength))

/-- the manager when an accepted block has been dealt with -/
def received (s : PieceManager) (block : Block) (m : PieceMetadata) (q : BufferPiece) : PieceManager :=
  if (q.write s.blockLength block).complete then
    (s.stored block q).closed sha1 block.pieceIndex m (q.write s.blockLength block).data
  else s.stored block q

end Sha1

theorem finishPiece_eq (h : s.buffer.WF) (hm : s.pieces[x]? = some m) (hq : s.buffer.slotOf x = some q)
    (data : Bytes) : s.finishPiece sha1 x data = .ok (s.closed sha1 x m data) := by
  have hremove : ∀ u : PieceManager, u.buffer = s.buffer →
      u.removePieceFromBuffer x = .ok ((u.removeAffinity x).putBuffer (s.buffer.dropSlot x)) := by
    intro u hu
    rw [removePieceFromBuffer, show (u.removeAffinity x).buffer = s.buffer from hu, removePieceFromBuffer_spec h hq]
    rfl
  rw [finishPiece, isVerifiedPiece_eq hm, ok_bind, closed]
  by_cases hver : sha1 data = m.pieceHash
  · have hset := setState_eq (s := s.savePiece x data) hm .completed
    rw [if_pos (by simpa using hver), if_pos hver, hset]
    exact hremove _ rfl
  · have hset := setState_eq (s := s.log (.hashMismatch x)) hm .notStarted
    rw [if_neg (by simpa using hver), if_neg hver, hset]
    exact hremove _ rfl

theorem Linked.stored (h : s.Linked) (hf : s.Fitting block m q) : (s.stored block q).Linked := by
  obtain ⟨m', hm', -, -, hdata⟩ := h.slot _ q hf.slot
  rw [hf.piece, Option.some.injEq] at hm'
  subst hm'
  exact (h.putSlot hf.slot _ (length_splice (by rw [hdata]; exact hf.stop)) List.length_set).log _

theorem stored_slot (h : s.Linked) (hf : s.Fitting block m q) :
    (s.stored block q).buffer.slotOf = Function.update s.buffer.slotOf block.pieceIndex
      (some (q.write s.blockLength block)) := h.wf.slotOf_putSlot hf.slot

theorem Linked.closed (h : s.Linked) (hm : s.pieces[x]? = some m) (hq : s.buffer.slotOf x = some q) (data : Bytes) :
    (s.closed sha1 x m data).Linked := by
  have hdrop := h.dropSlot hq
  have hnone : (s.putBuffer (s.buffer.dropSlot x)).buffer.slotOf x = none := by
    change (s.buffer.dropSlot x).slotOf x = none
    rw [h.wf.slotOf_dropSlot hq, Function.update_self]
  rw [PieceManager.closed]
  split_ifs
  · exact { (hdrop.putState hm .completed (Or.inr hnone)).removeAffinity (x := x) with }
  · exact { (hdrop.putState hm .notStarted (Or.inr hnone)).removeAffinity (x := x) with }

theorem closed_buffer (s : PieceManager) (x : ℕ) (m : PieceMetadata) (data : Bytes) :
    (s.closed sha1 x m data).buffer = s.buffer.dropSlot x := by
  rw [closed]
  split_ifs <;> rfl

/-- in the map of slots -/
theorem received_slotOf (sha1 : Bytes → Bytes) (h : s.Linked) (hf : s.Fitting block m q) :
    (s.received sha1 block m q).buffer.slotOf = Function.update s.buffer.slotOf block.pieceIndex
      (if (q.write s.blockLength block).complete then none else some (q.write s.blockLength block)) := by
  have hput := stored_slot h hf
  have hslot : (s.stored block q).buffer.slotOf block.pieceIndex = some (q.write s.blockLength block) := by
    rw [hput, Function.update_self]
  rw [received]
  split_ifs
  · rw [closed_buffer, (h.stored hf).wf.slotOf_dropSlot hslot, hput, Function.update_idem]
  · exact hput

/-- in the array of slots: a released slot keeps its marks and bytes -/
theorem received_buffer (sha1 : Bytes → Bytes) (h : s.Linked) (hf : s.Fitting block m q) :
    ∃ j e, s.buffer.pieceBufferMap.lookup block.pieceIndex = some j ∧ s.buffer.buffer[j]? = some q ∧
      (s.received sha1 block m q).buffer.buffer =
        s.buffer.buffer.set j { q.write s.blockLength block with empty := e } := by
  obtain ⟨j, hj, hbj, -, hlt, hempty, -⟩ := h.wf.slotOf_eq_some hf.slot
  have hput : (s.stored block q).buffer.buffer = s.buffer.buffer.set j (q.write s.blockLength block) := by
    simp only [PieceManager.stored, log, putBuffer, putSlot, hj]
  rw [received]
  split_ifs
  · refine ⟨j, true, hj, hbj, ?_⟩
    have hmap : (s.stored block q).buffer.pieceBufferMap.lookup block.pieceIndex = some j := by
      simp only [PieceManager.stored, log, putBuffer, putSlot_map, hj]
    simp only [closed_buffer, dropSlot, hmap, hput, List.modify_eq_set_getElem?, List.getElem?_set_self hlt]
    exact List.set_set _
  · exact ⟨j, q.empty, hj, hbj, hput⟩

/-- **An accepted block** is written, and completes its piece or not. -/
theorem addBlock_accepted (sha1 : Bytes → Bytes) (h : s.Linked) (hf : s.Fitting block m q) (p : ℕ) :
    s.addBlock sha1 p block = .ok (s.received sha1 block m q) ∧ (s.received sha1 block m q).Linked := by
  obtain ⟨hvalid, hshould⟩ := accepts_eq_true.1 ((accepts_iff h).2 ⟨m, q, hf⟩)
  obtain ⟨m', hm', -, -, hdata⟩ := h.slot _ q hf.slot
  rw [hf.piece, Option.some.injEq] at hm'
  subst hm'
  have hbl := h.bufferBlock
  have hwrite := writeBlockToBuffer_spec h.wf hf.slot (by rw [hdata]; exact hf.stop) (by rw [hbl]; exact hf.index)
  rw [hbl] at hwrite
  have hslot : (s.stored block q).buffer.slotOf block.pieceIndex = some (q.write s.blockLength block) := by
    rw [stored_slot h hf, Function.update_self]
  have hlinked := h.stored hf
  rw [addBlock, hvalid, ok_bind, hshould]
  simp only [Bool.not_true, Bool.false_eq_true, if_false, ok_bind, hwrite]
  rw [received]
  by_cases hall : (q.write s.blockLength block).complete = true
  · rw [if_pos hall, if_pos (show (q.blocksState.set _ _).all _ = true from hall), hbl]
    exact ⟨finishPiece_eq hlinked.wf hf.piece hslot _, hlinked.closed hf.piece hslot _⟩
  · rw [if_neg hall, if_neg (show ¬ (q.blocksState.set _ _).all _ = true from hall), hbl]
    exact ⟨rfl, hlinked⟩

/-- **A refused block** changes nothing. -/
theorem addBlock_refused (hno : s.accepts block = false) (hr : s.addBlock sha1 p block = .ok t) : t = s := by
  rw [addBlock, bind_eq_ok] at hr
  obtain ⟨valid, hvalid, hr⟩ := hr
  cases valid with
  | false =>
    cases hr
    rfl
  | true =>
    rw [if_neg (by decide), bind_eq_ok] at hr
    obtain ⟨should, hshould, hr⟩ := hr
    cases should with
    | false =>
      cases hr
      rfl
    | true =>
      rw [accepts_eq_true.2 ⟨hvalid, hshould⟩] at hno
      cases hno

/-- both together -/
theorem addBlock_cases (h : s.Linked) (hr : s.addBlock sha1 p block = .ok t) :
    (s.accepts block = false ∧ t = s) ∨ ∃ m q, s.Fitting block m q ∧ t = s.received sha1 block m q ∧ t.Linked := by
  cases ha : s.accepts block with
  | true =>
    obtain ⟨m, q, hf⟩ := (accepts_iff h).1 ha
    obtain ⟨hok, hlinked⟩ := addBlock_accepted sha1 h hf p
    obtain rfl := Except.ok.inj (hok.symm.trans hr)
    exact Or.inr ⟨m, q, hf, rfl, hlinked⟩
  | false => exact Or.inl ⟨rfl, addBlock_refused ha hr⟩

/-- a block for a slot that its piece has is dealt with without a fault -/
theorem addBlock_total (h : s.Linked)
    (hk : ∀ q, s.buffer.slotOf block.pieceIndex = some q → block.blockOffset / s.blockLength < q.blocksState.length)
    (p : ℕ) : ∃ t, s.addBlock sha1 p block = .ok t := by
  obtain ⟨should, hshould⟩ : ∃ should, s.buffer.shouldWriteBlock block.blockOffset block.pieceIndex = .ok should := by
    cases hq : s.buffer.slotOf block.pieceIndex with
    | none => exact ⟨false, shouldWriteBlock_none h.wf hq⟩
    | some q =>
      have hlt := hk q hq
      rw [← h.bufferBlock] at hlt
      exact ⟨_, shouldWriteBlock_spec h.wf hq (List.getElem?_eq_getElem hlt)⟩
  cases ha : s.accepts block with
  | true =>
    obtain ⟨m, q, hf⟩ := (accepts_iff h).1 ha
    exact ⟨_, (addBlock_accepted sha1 h hf p).1⟩
  | false =>
    obtain ⟨valid, hvalid⟩ : ∃ valid, s.isValidBlockData block = .ok valid := ⟨_, isValidBlockData_eq⟩
    rw [addBlock, hvalid, ok_bind, hshould]
    cases valid with
    | false => exact ⟨s, rfl⟩
    | true =>
      cases should with
      | false => exact ⟨s, rfl⟩
      | true =>
        rw [accepts_eq_true.2 ⟨hvalid, hshould⟩] at ha
        cases ha

/-! ## Runs -/

/-- for `n` pieces: indices of pieces are 32 bits wide, and so is the number of pieces or of the entries of a bitfield -/
def Op.Indexed (n : ℕ) : Op → Prop
  | .updatePieceFrequencies bitfield _ => n ≤ 2 ^ 32 ∨ bitfield.length ≤ 2 ^ 32
  | _ => True

theorem removePeer_linked (h : s.Linked) (p : ℕ) : (s.removePeer p).Linked :=
  { h with narrow := h.narrow.imp_right fun hn => removePeer_bitfields hn p }

theorem updatePieceFrequencies_linked (h : s.Linked) {bitfield : List UInt8}
    (hb : s.pieces.length ≤ 2 ^ 32 ∨ bitfield.length ≤ 2 ^ 32) (p : ℕ) :
    (s.updatePieceFrequencies bitfield p).Linked := by
  refine { h with narrow := ?_ }
  rcases hb with hn | hb
  · exact Or.inl hn
  · rw [← length_convert] at hb
    exact h.narrow.imp_right fun hn => updatePieceFrequencies_bitfields (P := fun bf => bf.length ≤ 2 ^ 32) hb hn p

theorem received_static (sha1 : Bytes → Bytes) (s : PieceManager) (block : Block) (m : PieceMetadata) (q : BufferPiece) :
    (s.received sha1 block m q).blockLength = s.blockLength ∧
      (s.received sha1 block m q).pieces.length = s.pieces.length := by
  rw [received]
  split_ifs
  · rw [closed]
    split_ifs <;> exact ⟨rfl, List.length_set⟩
  · exact ⟨rfl, rfl⟩

/-- **Every step keeps the links**, the number of pieces and the block length. -/
theorem step_linked {n : ℕ} (h : s.Linked) (hn : s.pieces.length = n) {o : Op} (ho : o.Indexed n)
    (hs : step sha1 s o = .ok t) : t.Linked ∧ t.pieces.length = n ∧ t.blockLength = s.blockLength := by
  cases o with
  | updatePieceFrequencies bitfield p =>
    cases hs
    exact ⟨updatePieceFrequencies_linked h (hn ▸ ho) p, hn, rfl⟩
  | selectNextBlock p order =>
    obtain ⟨r, hu⟩ := step_select hs
    have hf := h.select hu
    exact ⟨hf.linked, hf.size.trans hn, hf.blockLength⟩
  | addBlock p block =>
    rcases addBlock_cases (p := p) h hs with ⟨-, rfl⟩ | ⟨m, q, -, rfl, hlinked⟩
    · exact ⟨h, hn, rfl⟩
    · obtain ⟨hbl, hsize⟩ := received_static sha1 s block m q
      exact ⟨hlinked, hsize.trans hn, hbl⟩
  | removePeer p =>
    cases hs
    exact ⟨removePeer_linked h p, hn, rfl⟩

theorem new_linked {data : TorrentMetadata} {blockLength bufferSize : UInt32}
    (h : new data blockLength bufferSize = .ok s) :
    s.Linked ∧ s.pieces.length = data.pieceHashes.length ∧ s.blockLength = blockLength.toNat ∧
      s.peersBitfieldMap = ∅ ∧ s.peerPieceAffinityMap = ∅ := by
  rw [new] at h
  split_ifs at h with hzero
  cases h
  refine ⟨⟨wf_new _ _ bufferSize.toNat_lt, rfl, by simp only; omega, ?_, Or.inr (by simp)⟩, by simp, rfl, rfl, rfl⟩
  intro x q hq
  simp [slotOf, Buffer.new] at hq

theorem run_linked {data : TorrentMetadata} {blockLength bufferSize : UInt32} {ops : List Op}
    (hops : ∀ o ∈ ops, o.Indexed data.pieceHashes.length) (h : run sha1 data blockLength bufferSize ops = .ok s) :
    s.Linked := by
  rw [run, bind_eq_ok] at h
  obtain ⟨s₀, hnew, h⟩ := h
  obtain ⟨h0, hsize, -⟩ := new_linked hnew
  have hstep : ∀ u o v, (u.Linked ∧ u.pieces.length = data.pieceHashes.length) →
      Op.Indexed data.pieceHashes.length o → step sha1 u o = .ok v →
      v.Linked ∧ v.pieces.length = data.pieceHashes.length := by
    intro u o v hu ho hv
    obtain ⟨hlinked, hlen, -⟩ := step_linked hu.1 hu.2 ho hv
    exact ⟨hlinked, hlen⟩
  exact (runM_inv hstep ⟨h0, hsize⟩ hops h).1

end PieceManager

end SimpleTorrent
