/-
Two blocks for different slots, in either order.

`Standing` is what a manager has done so far: piece states, slots with their marks and bytes, affinities, the count of
completed pieces and what was handed to the file manager. A block has an effect on the piece it is for (`Effect`), which
depends on the metadata and the slot of that piece only.

- `addBlock_standing`: `add_block` applies the effect of the block, if it has one.
- `deliver_comm_ne`: effects on different pieces commute.
- `deliver_comm_eq`: so do the deliveries of two blocks for different slots of a piece. If one of them completes the
  piece, the other one comes too late in either order.
- `arrival_order`: for any two blocks that each have the exact extent of a slot, and any state reached.
-/
import SimpleTorrent.Manager.Receive

namespace SimpleTorrent

open Checked Buffer Splice

/-! ## Standings -/

/-- what is handed to the file manager in a trace -/
def saves (tr : List (Event ℕ)) : Multiset (ℕ × Bytes) := ↑(tr.filterMap fun
  | .savePiece _ off data => some (off, data)
  | _ => none)

@[ext] structure Standing where
  pieces : List PieceMetadata
  slot : ℕ → Option BufferPiece
  affinity : ℕ → Option ℕ
  numPiecesCompleted : ℕ
  saved : Multiset (ℕ × Bytes)

/-- what a block does to its piece -/
structure Effect where
  state : PieceState
  slot : Option BufferPiece
  closes : Bool
  saved : Option (ℕ × Bytes)

/-- the effect of an accepted block: its piece stays in the buffer, is saved, or is started anew -/
def effect (sha1 : Bytes → Bytes) (blockLength pieceLength : ℕ) (m : PieceMetadata) (q : BufferPiece) (block : Block) :
    Effect :=
  let q' := q.write blockLength block
  if q'.complete then
    if sha1 q'.data = m.pieceHash then
      ⟨.completed, none, true, some (fileOffset pieceLength block.pieceIndex, q'.data)⟩
    else ⟨.notStarted, none, true, none⟩
  else ⟨m.state, some q', false, none⟩

/-- the block lies within its piece, and its slot is not HAVE -/
def Accepted (blockLength : ℕ) (m : PieceMetadata) (q : BufferPiece) (block : Block) : Prop :=
  block.blockOffset < m.currentPieceLength ∧ block.blockOffset + block.data.length ≤ m.currentPieceLength ∧
    block.blockOffset / blockLength < q.blocksState.length ∧
    q.blocksState[block.blockOffset / blockLength]? ≠ some .haveBlock

instance (blockLength : ℕ) (m : PieceMetadata) (q : BufferPiece) (block : Block) :
    Decidable (Accepted blockLength m q block) := by unfold Accepted; infer_instance

namespace Standing

variable (sha1 : Bytes → Bytes) (blockLength pieceLength : ℕ)

/-- the metadata of the piece with its new state, its new slot, and what else changes -/
def apply (o : Standing) (x : ℕ) (m : PieceMetadata) (e : Effect) : Standing where
  pieces := o.pieces.set x { m with state := e.state }
  slot := Function.update o.slot x e.slot
  affinity p := if e.closes ∧ o.affinity p = some x then none else o.affinity p
  numPiecesCompleted := if e.saved.isSome then (o.numPiecesCompleted + 1) % 2 ^ 32 else o.numPiecesCompleted
  saved := o.saved + ↑e.saved.toList

/-- the metadata of the block's piece and the effect of the block, if it has one -/
def effectOf (o : Standing) (block : Block) : Option (PieceMetadata × Effect) := do
  let m ← o.pieces[block.pieceIndex]?
  let q ← o.slot block.pieceIndex
  if Accepted blockLength m q block then some (m, effect sha1 blockLength pieceLength m q block) else none

def deliver (o : Standing) (block : Block) : Standing :=
  match o.effectOf sha1 blockLength pieceLength block with
  | some (m, e) => o.apply block.pieceIndex m e
  | none => o

variable {sha1 blockLength pieceLength} {o : Standing} {b₁ b₂ : Block} {m : PieceMetadata} {q : BufferPiece}
  {e e₁ e₂ : Effect}

theorem effectOf_eq_some : o.effectOf sha1 blockLength pieceLength b₁ = some (m, e) ↔
    o.pieces[b₁.pieceIndex]? = some m ∧ ∃ q, o.slot b₁.pieceIndex = some q ∧ Accepted blockLength m q b₁ ∧
      e = effect sha1 blockLength pieceLength m q b₁ := by
  simp only [effectOf, Option.bind_eq_bind, Option.bind_eq_some_iff]
  constructor
  · rintro ⟨m', hm, q, hq, hif⟩
    split_ifs at hif with hacc
    cases hif
    exact ⟨hm, q, hq, hacc, rfl⟩
  · rintro ⟨hm, q, hq, hacc, rfl⟩
    exact ⟨m, hm, q, hq, by rw [if_pos hacc]⟩

/-- after an effect that changes the slot only, another one for the same piece -/
theorem apply_kept {x : ℕ} (slot : Option BufferPiece) :
    (o.apply x m ⟨m.state, slot, false, none⟩).apply x m e = o.apply x m e := by
  ext1
  · exact List.set_set _
  · exact Function.update_idem _ _ _
  · funext p
    simp [apply]
  · simp [apply]
  · simp [apply]

/-! ## Different pieces -/

/-- the effect of a block does not depend on other pieces -/
theorem effectOf_apply_ne {x : ℕ} (hx : x ≠ b₁.pieceIndex) :
    (o.apply x m e).effectOf sha1 blockLength pieceLength b₁ = o.effectOf sha1 blockLength pieceLength b₁ := by
  simp only [effectOf, apply, List.getElem?_set_ne hx, Function.update_of_ne (Ne.symm hx)]

theorem apply_comm {x y : ℕ} (hxy : x ≠ y) (m₁ m₂ : PieceMetadata) :
    (o.apply x m₁ e₁).apply y m₂ e₂ = (o.apply y m₂ e₂).apply x m₁ e₁ := by
  ext1
  · exact List.set_comm _ _ hxy
  · exact Function.update_comm hxy _ _ _
  · funext p
    -- an affinity is to one of the two pieces at most
    have hboth : ¬ (o.affinity p = some x ∧ o.affinity p = some y) := fun ⟨hx, hy⟩ =>
      hxy (Option.some.inj (hx.symm.trans hy))
    simp only [apply]
    split_ifs <;> simp_all
  · simp only [apply]
    cases e₁.saved <;> cases e₂.saved <;> rfl
  · exact add_right_comm _ _ _

theorem deliver_comm_ne (h : b₁.pieceIndex ≠ b₂.pieceIndex) :
    (o.deliver sha1 blockLength pieceLength b₁).deliver sha1 blockLength pieceLength b₂ =
      (o.deliver sha1 blockLength pieceLength b₂).deliver sha1 blockLength pieceLength b₁ := by
  simp only [deliver]
  cases h₁ : o.effectOf sha1 blockLength pieceLength b₁ with
  | none =>
    cases h₂ : o.effectOf sha1 blockLength pieceLength b₂ with
    | none => simp only [h₁]
    | some r₂ => simp only [effectOf_apply_ne (Ne.symm h), h₁]
  | some r₁ =>
    cases h₂ : o.effectOf sha1 blockLength pieceLength b₂ with
    | none => simp only [effectOf_apply_ne h, h₂, h₁]
    | some r₂ =>
      simp only [effectOf_apply_ne h, effectOf_apply_ne (Ne.symm h), h₁, h₂]
      exact apply_comm h _ _

/-! ## The same piece -/

/-- a block that would complete no piece stays in its slot -/
theorem effect_kept (h : (q.write blockLength b₁).complete = false) :
    effect sha1 blockLength pieceLength m q b₁ = ⟨m.state, some (q.write blockLength b₁), false, none⟩ := by
  simp only [effect, h, Bool.false_eq_true, if_false]

/-- a write to one slot leaves a missing one missing -/
theorem not_complete (hlt : b₂.blockOffset / blockLength < q.blocksState.length)
    (hmiss : q.blocksState[b₂.blockOffset / blockLength]? ≠ some .haveBlock)
    (hne : b₁.blockOffset / blockLength ≠ b₂.blockOffset / blockLength) : (q.write blockLength b₁).complete = false := by
  rw [BufferPiece.complete, Bool.eq_false_iff]
  intro hall
  rw [List.all_eq_true] at hall
  have hlen : b₂.blockOffset / blockLength < (q.write blockLength b₁).blocksState.length :=
    lt_of_lt_of_eq hlt List.length_set.symm
  have hhave := hall _ (List.getElem_mem hlen)
  rw [beq_iff_eq] at hhave
  apply hmiss
  calc q.blocksState[b₂.blockOffset / blockLength]?
      = (q.write blockLength b₁).blocksState[b₂.blockOffset / blockLength]? := (List.getElem?_set_ne hne).symm
    _ = some .haveBlock := by rw [List.getElem?_eq_getElem hlen, hhave]

/-- a write to one slot does not change whether a block for another one is accepted -/
theorem accepted_write (hne : b₁.blockOffset / blockLength ≠ b₂.blockOffset / blockLength) (st : PieceState) :
    Accepted blockLength { m with state := st } (q.write blockLength b₁) b₂ ↔ Accepted blockLength m q b₂ := by
  simp only [Accepted, BufferPiece.write, List.length_set, List.getElem?_set_ne hne]

/-- a refused block is refused still after another block for its piece -/
theorem effectOf_deliver_none (hx : b₁.pieceIndex = b₂.pieceIndex)
    (hne : b₁.blockOffset / blockLength ≠ b₂.blockOffset / blockLength)
    (h : o.effectOf sha1 blockLength pieceLength b₂ = none) :
    (o.deliver sha1 blockLength pieceLength b₁).effectOf sha1 blockLength pieceLength b₂ = none := by
  rw [deliver]
  cases h₁ : o.effectOf sha1 blockLength pieceLength b₁ with
  | none => exact h
  | some r =>
    obtain ⟨m, e⟩ := r
    obtain ⟨hm, q, hq, hacc, rfl⟩ := effectOf_eq_some.1 h₁
    have hlt : b₁.pieceIndex < o.pieces.length := (List.getElem?_eq_some_iff.1 hm).1
    simp only [effectOf, apply, ← hx, List.getElem?_set_self hlt, Function.update_self, Option.bind_eq_bind,
      Option.bind_some]
    simp only [effectOf, ← hx, hm, hq, Option.bind_eq_bind, Option.bind_some, ite_eq_right_iff, reduceCtorEq,
      imp_false] at h
    cases hc : (q.write blockLength b₁).complete with
    | false =>
      rw [effect_kept hc, Option.bind_some, if_neg]
      rwa [accepted_write hne]
    | true =>
      -- the piece has left the buffer
      have hslot : (effect sha1 blockLength pieceLength m q b₁).slot = none := by
        simp only [effect, hc, if_true]
        split_ifs <;> rfl
      rw [hslot]
      rfl

/-- two writes to disjoint ranges of a slot -/
theorem write_comm (h₁ : b₁.blockOffset + b₁.data.length ≤ q.data.length)
    (h₂ : b₂.blockOffset + b₂.data.length ≤ q.data.length)
    (hne : b₁.blockOffset / blockLength ≠ b₂.blockOffset / blockLength)
    (hdisj : b₁.blockOffset + b₁.data.length ≤ b₂.blockOffset ∨ b₂.blockOffset + b₂.data.length ≤ b₁.blockOffset) :
    (q.write blockLength b₁).write blockLength b₂ = (q.write blockLength b₂).write blockLength b₁ := by
  simp only [BufferPiece.write]
  rw [splice_comm h₁ h₂ hdisj, List.set_comm _ _ hne]

/-- the second of two accepted blocks for different slots of a piece finds its slot as it was left -/
theorem deliver_deliver (hx : b₁.pieceIndex = b₂.pieceIndex) (hm : o.pieces[b₁.pieceIndex]? = some m)
    (hq : o.slot b₁.pieceIndex = some q) (h₁ : Accepted blockLength m q b₁) (h₂ : Accepted blockLength m q b₂)
    (hne : b₁.blockOffset / blockLength ≠ b₂.blockOffset / blockLength) :
    (o.deliver sha1 blockLength pieceLength b₁).deliver sha1 blockLength pieceLength b₂ =
      o.apply b₁.pieceIndex m (effect sha1 blockLength pieceLength m (q.write blockLength b₁) b₂) := by
  have hlt : b₁.pieceIndex < o.pieces.length := (List.getElem?_eq_some_iff.1 hm).1
  have hfirst : o.deliver sha1 blockLength pieceLength b₁ =
      o.apply b₁.pieceIndex m ⟨m.state, some (q.write blockLength b₁), false, none⟩ := by
    rw [deliver, effectOf_eq_some.2 ⟨hm, q, hq, h₁, rfl⟩, effect_kept (not_complete h₂.2.2.1 h₂.2.2.2 hne)]
  have hsecond : (o.deliver sha1 blockLength pieceLength b₁).effectOf sha1 blockLength pieceLength b₂ =
      some (m, effect sha1 blockLength pieceLength m (q.write blockLength b₁) b₂) := by
    rw [hfirst]
    refine effectOf_eq_some.2 ⟨?_, _, ?_, (accepted_write hne m.state).2 h₂, rfl⟩
    · rw [← hx]
      exact List.getElem?_set_self hlt
    · rw [← hx]
      exact Function.update_self _ _ _
  rw [deliver, hsecond, hfirst, ← hx]
  exact apply_kept _

theorem deliver_comm_eq (hx : b₁.pieceIndex = b₂.pieceIndex)
    (hne : b₁.blockOffset / blockLength ≠ b₂.blockOffset / blockLength)
    (hdisj : b₁.blockOffset + b₁.data.length ≤ b₂.blockOffset ∨ b₂.blockOffset + b₂.data.length ≤ b₁.blockOffset)
    (hlen : ∀ m q, o.pieces[b₁.pieceIndex]? = some m → o.slot b₁.pieceIndex = some q →
      q.data.length = m.currentPieceLength) :
    (o.deliver sha1 blockLength pieceLength b₁).deliver sha1 blockLength pieceLength b₂ =
      (o.deliver sha1 blockLength pieceLength b₂).deliver sha1 blockLength pieceLength b₁ := by
  cases h₁ : o.effectOf sha1 blockLength pieceLength b₁ with
  | none =>
    have h₁' := effectOf_deliver_none hx.symm (Ne.symm hne) h₁
    rw [show o.deliver sha1 blockLength pieceLength b₁ = o by rw [deliver, h₁],
      show (o.deliver sha1 blockLength pieceLength b₂).deliver sha1 blockLength pieceLength b₁ = _ by rw [deliver, h₁']]
  | some r₁ =>
    cases h₂ : o.effectOf sha1 blockLength pieceLength b₂ with
    | none =>
      have h₂' := effectOf_deliver_none hx hne h₂
      rw [show o.deliver sha1 blockLength pieceLength b₂ = o by rw [deliver, h₂],
        show (o.deliver sha1 blockLength pieceLength b₁).deliver sha1 blockLength pieceLength b₂ = _ by
          rw [deliver, h₂']]
    | some r₂ =>
      obtain ⟨m, e₁⟩ := r₁
      obtain ⟨m₂, e₂⟩ := r₂
      obtain ⟨hm, q, hq, hacc₁, rfl⟩ := effectOf_eq_some.1 h₁
      obtain ⟨hm₂, q₂, hq₂, hacc₂, rfl⟩ := effectOf_eq_some.1 h₂
      rw [← hx] at hm₂ hq₂
      obtain rfl : m = m₂ := Option.some.inj (hm.symm.trans hm₂)
      obtain rfl : q = q₂ := Option.some.inj (hq.symm.trans hq₂)
      have hqlen := hlen m q hm hq
      have hwrite := write_comm (hqlen ▸ hacc₁.2.1) (hqlen ▸ hacc₂.2.1) hne hdisj
      rw [deliver_deliver hx hm hq hacc₁ hacc₂ hne,
        deliver_deliver hx.symm (hx ▸ hm) (hx ▸ hq) hacc₂ hacc₁ (Ne.symm hne), ← hx]
      -- the same slot, so the same verdict
      congr 1
      simp only [effect, hwrite, hx]

end Standing

/-! ## The manager -/

namespace PieceManager

variable {sha1 : Bytes → Bytes} {s t : PieceManager} {p x : ℕ} {m : PieceMetadata} {q : BufferPiece} {block : Block}

def standing (s : PieceManager) : Standing where
  pieces := s.pieces
  slot := s.buffer.slotOf
  affinity p := s.peerPieceAffinityMap.lookup p
  numPiecesCompleted := s.numPiecesCompleted
  saved := saves s.trace

theorem effectOf_standing {e : Effect} :
    s.standing.effectOf sha1 s.blockLength s.pieceLength block = some (m, e) ↔
      ∃ q, s.Fitting block m q ∧ e = effect sha1 s.blockLength s.pieceLength m q block := by
  rw [Standing.effectOf_eq_some]
  constructor
  · rintro ⟨hm, q, hq, ⟨hstart, hstop, hindex, hmissing⟩, he⟩
    exact ⟨q, ⟨hm, hq, hstart, hstop, hindex, hmissing⟩, he⟩
  · rintro ⟨q, hf, he⟩
    exact ⟨hf.piece, q, hf.slot, ⟨hf.start, hf.stop, hf.index, hf.missing⟩, he⟩

theorem lookup_removeAffinity (s : PieceManager) (x p : ℕ) : (s.removeAffinity x).peerPieceAffinityMap.lookup p =
    if s.peerPieceAffinityMap.lookup p = some x then none else s.peerPieceAffinityMap.lookup p := lookup_eraseValue _ _ _

theorem saves_append (tr tr' : List (Event ℕ)) : saves (tr ++ tr') = saves tr + saves tr' := by
  rw [saves, List.filterMap_append, ← Multiset.coe_add]
  rfl

/-- a block written to its slot -/
theorem stored_standing (h : s.Linked) (hf : s.Fitting block m q) : (s.stored block q).standing =
    s.standing.apply block.pieceIndex m ⟨m.state, some (q.write s.blockLength block), false, none⟩ := by
  have hsame : s.pieces.set block.pieceIndex { m with state := m.state } = s.pieces := by
    obtain ⟨hlt, hget⟩ := List.getElem?_eq_some_iff.1 hf.piece
    exact (congrArg _ hget.symm).trans (List.set_getElem_self hlt)
  have hstored : saves (s.stored block q).trace = saves s.trace + 0 := by
    rw [show (s.stored block q).trace = s.trace ++ [.writeBlock _ _] from rfl, saves_append]
    rfl
  refine Standing.ext hsame.symm (stored_slot h hf) ?_ rfl hstored
  funext p
  simp [standing, Standing.apply, PieceManager.stored, log, putBuffer]

/-- a piece closed with these bytes; the effect depends on its hash only -/
theorem closed_standing {data : Bytes}
    (hslots : (s.closed sha1 x m data).buffer.slotOf = Function.update s.buffer.slotOf x none) :
    (s.closed sha1 x m data).standing = s.standing.apply x m (if sha1 data = m.pieceHash then
      ⟨.completed, none, true, some (fileOffset s.pieceLength x, data)⟩ else ⟨.notStarted, none, true, none⟩) := by
  by_cases hver : sha1 data = m.pieceHash
  · rw [if_pos hver]
    rw [closed, if_pos hver] at hslots ⊢
    refine Standing.ext rfl hslots ?_ rfl (saves_append _ _)
    funext p
    exact (lookup_removeAffinity s x p).trans (by simp [Standing.apply, standing])
  · rw [if_neg hver]
    rw [closed, if_neg hver] at hslots ⊢
    refine Standing.ext rfl hslots ?_ rfl (saves_append _ _)
    funext p
    exact (lookup_removeAffinity s x p).trans (by simp [Standing.apply, standing])

/-- an accepted block has its effect -/
theorem received_standing (h : s.Linked) (hf : s.Fitting block m q) : (s.received sha1 block m q).standing =
    s.standing.apply block.pieceIndex m (effect sha1 s.blockLength s.pieceLength m q block) := by
  have hslots := received_slotOf sha1 h hf
  cases hall : (q.write s.blockLength block).complete with
  | false =>
    rw [Standing.effect_kept hall, received, hall, if_neg (by decide)]
    exact stored_standing h hf
  | true =>
    rw [received, hall, if_pos rfl] at hslots ⊢
    have hupdate : Function.update (s.stored block q).buffer.slotOf block.pieceIndex none =
        Function.update s.buffer.slotOf block.pieceIndex none := by
      rw [stored_slot h hf, Function.update_idem]
    rw [closed_standing (by rw [hslots, hupdate]; rfl), stored_standing h hf, Standing.apply_kept]
    simp only [effect, hall, if_true]
    rfl

/-- **`add_block` delivers the block**: to the standing, its effect is all that it does. -/
theorem addBlock_standing (h : s.Linked) (hr : s.addBlock sha1 p block = .ok t) :
    t.standing = s.standing.deliver sha1 s.blockLength s.pieceLength block := by
  rw [Standing.deliver]
  rcases addBlock_cases (p := p) h hr with ⟨hno, rfl⟩ | ⟨m, q, hf, rfl, -⟩
  · cases he : t.standing.effectOf sha1 t.blockLength t.pieceLength block with
    | none => rfl
    | some r =>
      obtain ⟨q, hf, -⟩ := effectOf_standing.1 he
      rw [(accepts_iff h).2 ⟨_, q, hf⟩] at hno
      cases hno
  · rw [effectOf_standing.2 ⟨q, hf, rfl⟩]
    exact received_standing h hf

/-! ## Exact blocks -/

/-- the block covers a slot of its piece exactly -/
structure ExactSlot (s : PieceManager) (block : Block) : Prop where
  aligned : s.blockLength ∣ block.blockOffset
  slot : ∃ m, s.pieces[block.pieceIndex]? = some m ∧ block.blockOffset / s.blockLength < m.numBlocks ∧
    block.data.length =
      blockEnd s.blockLength m.currentPieceLength (block.blockOffset / s.blockLength) - block.blockOffset

theorem ExactSlot.addBlock (sha1 : Bytes → Bytes) (he : s.ExactSlot block) (h : s.Linked) (p : ℕ) :
    ∃ t, s.addBlock sha1 p block = .ok t := by
  refine addBlock_total h ?_ p
  intro q hq
  obtain ⟨m, hm, hk, -⟩ := he.slot
  obtain ⟨m', hm', -, hblocks, -⟩ := h.slot _ q hq
  obtain rfl : m = m' := Option.some.inj (hm.symm.trans hm')
  exact hblocks.symm ▸ hk

/-- a delivery changes states of pieces only -/
theorem deliver_piece (sha1 : Bytes → Bytes) (o : Standing) (blockLength pieceLength : ℕ) (block : Block)
    (hm : o.pieces[x]? = some m) :
    ∃ m', (o.deliver sha1 blockLength pieceLength block).pieces[x]? = some m' ∧ m'.numBlocks = m.numBlocks ∧
      m'.currentPieceLength = m.currentPieceLength := by
  rw [Standing.deliver]
  cases he : o.effectOf sha1 blockLength pieceLength block with
  | none => exact ⟨m, hm, rfl, rfl⟩
  | some r =>
    obtain ⟨mb, e⟩ := r
    obtain ⟨hmb, -⟩ := Standing.effectOf_eq_some.1 he
    have hlt : block.pieceIndex < o.pieces.length := (List.getElem?_eq_some_iff.1 hmb).1
    by_cases hx : block.pieceIndex = x
    · subst hx
      obtain rfl : mb = m := Option.some.inj (hmb.symm.trans hm)
      exact ⟨_, List.getElem?_set_self hlt, rfl, rfl⟩
    · exact ⟨m, (List.getElem?_set_ne hx).trans hm, rfl, rfl⟩

/-- an exact block is exact still after another one -/
theorem ExactSlot.after {block' : Block} (he : s.ExactSlot block) (h : s.Linked)
    (hr : s.addBlock sha1 p block' = .ok t) (hbl : t.blockLength = s.blockLength) : t.ExactSlot block := by
  obtain ⟨m, hm, hk, hlen⟩ := he.slot
  obtain ⟨m', hm', hblocks, hcpl⟩ := deliver_piece sha1 s.standing s.blockLength s.pieceLength block' hm
  rw [← addBlock_standing h hr] at hm'
  refine ⟨hbl ▸ he.aligned, m', hm', ?_, ?_⟩
  · rw [hblocks, hbl]
    exact hk
  · rw [hcpl, hbl]
    exact hlen

theorem addBlock_static (h : s.Linked) (hr : s.addBlock sha1 p block = .ok t) :
    t.Linked ∧ t.blockLength = s.blockLength ∧ t.pieceLength = s.pieceLength := by
  rcases addBlock_cases (p := p) h hr with ⟨-, rfl⟩ | ⟨m, q, -, rfl, hlinked⟩
  · exact ⟨h, rfl, rfl⟩
  · refine ⟨hlinked, (received_static sha1 s block m q).1, ?_⟩
    rw [received]
    split_ifs
    · rw [closed]
      split_ifs <;> rfl
    · rfl

/-- one exact block after the other: neither faults, and the standing is that of both deliveries -/
theorem addBlock_addBlock (sha1 : Bytes → Bytes) {b₁ b₂ : Block} (h : s.Linked) (h₁ : s.ExactSlot b₁)
    (h₂ : s.ExactSlot b₂) (p₁ p₂ : ℕ) :
    ∃ t, (s.addBlock sha1 p₁ b₁ >>= fun u => u.addBlock sha1 p₂ b₂) = .ok t ∧
      t.standing =
        (s.standing.deliver sha1 s.blockLength s.pieceLength b₁).deliver sha1 s.blockLength s.pieceLength b₂ := by
  obtain ⟨u, hu⟩ := h₁.addBlock sha1 h p₁
  obtain ⟨hul, hbl, hpl⟩ := addBlock_static h hu
  obtain ⟨t, ht⟩ := (h₂.after h hu hbl).addBlock sha1 hul p₂
  refine ⟨t, by rw [hu, ok_bind, ht], ?_⟩
  rw [addBlock_standing hul ht, hbl, hpl, addBlock_standing h hu]

/-- exact blocks for different slots of a piece have no byte in common -/
theorem exact_disjoint {b₁ b₂ : Block} (h₁ : s.ExactSlot b₁)
    (hlt : b₁.blockOffset / s.blockLength < b₂.blockOffset / s.blockLength) :
    b₁.blockOffset + b₁.data.length ≤ b₂.blockOffset := by
  obtain ⟨m, -, -, hlen⟩ := h₁.slot
  have hstart : b₁.blockOffset < b₂.blockOffset := Nat.lt_of_div_lt_div hlt
  have hend : blockEnd s.blockLength m.currentPieceLength (b₁.blockOffset / s.blockLength) ≤ b₂.blockOffset :=
    calc blockEnd s.blockLength m.currentPieceLength (b₁.blockOffset / s.blockLength)
        ≤ (b₁.blockOffset / s.blockLength + 1) * s.blockLength := Nat.min_le_left _ _
      _ ≤ b₂.blockOffset / s.blockLength * s.blockLength := Nat.mul_le_mul_right _ hlt
      _ ≤ b₂.blockOffset := Nat.div_mul_le_self _ _
  omega

/-- **Arrival order does not matter.** From any state reached, two blocks that each cover a slot exactly, for different
slots, are both dealt with without a fault in either order, and the standing is the same. -/
theorem arrival_order (sha1 : Bytes → Bytes) (data : TorrentMetadata) (blockLength bufferSize : UInt32)
    (ops : List Op) (hops : ∀ o ∈ ops, o.Indexed data.pieceHashes.length) (s : PieceManager)
    (hs : run sha1 data blockLength bufferSize ops = .ok s) (p₁ p₂ : ℕ) (b₁ b₂ : Block) (h₁ : s.ExactSlot b₁)
    (h₂ : s.ExactSlot b₂) (hne : b₁.pieceIndex ≠ b₂.pieceIndex ∨ b₁.blockOffset ≠ b₂.blockOffset) :
    ∃ t u, (s.addBlock sha1 p₁ b₁ >>= fun v => v.addBlock sha1 p₂ b₂) = .ok t ∧
      (s.addBlock sha1 p₂ b₂ >>= fun v => v.addBlock sha1 p₁ b₁) = .ok u ∧ t.standing = u.standing := by
  have h := run_linked hops hs
  obtain ⟨t, ht, htout⟩ := addBlock_addBlock sha1 h h₁ h₂ p₁ p₂
  obtain ⟨u, hu, huout⟩ := addBlock_addBlock sha1 h h₂ h₁ p₂ p₁
  refine ⟨t, u, ht, hu, ?_⟩
  rw [htout, huout]
  by_cases hx : b₁.pieceIndex = b₂.pieceIndex
  · have hk : b₁.blockOffset / s.blockLength ≠ b₂.blockOffset / s.blockLength := by
      intro hk
      refine (hne.resolve_left (not_not.2 hx)) ?_
      calc b₁.blockOffset = b₁.blockOffset / s.blockLength * s.blockLength := (Nat.div_mul_cancel h₁.aligned).symm
        _ = b₂.blockOffset / s.blockLength * s.blockLength := by rw [hk]
        _ = b₂.blockOffset := Nat.div_mul_cancel h₂.aligned
    refine Standing.deliver_comm_eq hx hk ?_ ?_
    · rcases Nat.lt_or_gt_of_ne hk with hlt | hgt
      · exact Or.inl (exact_disjoint h₁ hlt)
      · exact Or.inr (exact_disjoint h₂ hgt)
    · intro m q hm hq
      obtain ⟨m', hm', -, -, hdata⟩ := h.slot _ q hq
      obtain rfl : m = m' := Option.some.inj (hm.symm.trans hm')
      exact hdata
  · exact Standing.deliver_comm_ne hx

/-- two pieces of a byte, one with the right hash -/
def twoBytes : TorrentMetadata := .ofHashes [[1], [9]] 1 2

/-- one block completes a piece, the other makes a piece fail its hash -/
theorem arrival_order_twoBytes : ∃ s, run id twoBytes 1 2 [.updatePieceFrequencies [1, 1] 0, .selectNextBlock 0 [],
      .selectNextBlock 0 []] = .ok s ∧
    ∃ t u, (s.addBlock id 0 ⟨0, 0, [1]⟩ >>= fun v => v.addBlock id 1 ⟨1, 0, [2]⟩) = .ok t ∧
      (s.addBlock id 1 ⟨1, 0, [2]⟩ >>= fun v => v.addBlock id 0 ⟨0, 0, [1]⟩) = .ok u ∧ t.standing = u.standing := by
  refine ⟨_, rfl, arrival_order id twoBytes 1 2
    [.updatePieceFrequencies [1, 1] 0, .selectNextBlock 0 [], .selectNextBlock 0 []] ?_ _ rfl 0 1 _ _ ?_ ?_
    (Or.inl (by decide))⟩
  · simp [Op.Indexed, twoBytes, TorrentMetadata.ofHashes]
  · exact ⟨⟨0, rfl⟩, _, rfl, by decide, rfl⟩
  · exact ⟨⟨0, rfl⟩, _, rfl, by decide, rfl⟩

end PieceManager

end SimpleTorrent
