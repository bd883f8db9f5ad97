/-
The manager for any torrent, whatever its lengths.

The store needs a piece length that is not zero and fits into 32 bits. What is proved here needs neither: it follows the
code, and keeps the links between a piece, its slot and their sizes only.

- `Chosen`, `choosePiece_chosen`: what the three stages that choose a piece can do.
- `requestFrom_ok`, `adoptPiece_ok`: the same for the other parts of `select_next_block`.
- `Linked`: the representation invariant of the buffer, and slots of the size of their pieces.
- `Fresher`: slots come from slots with the same bytes and no fewer HAVE marks, or have no such mark.
- `Linked.select`: `select_next_block` keeps the links, and makes slots fresher at most.
-/
import SimpleTorrent.Manager.Refinement

namespace SimpleTorrent

open Checked Buffer

namespace PieceManager

variable {sha1 : Bytes → Bytes} {s t u : PieceManager} {x p : ℕ}

/-! ## What the code does -/

/-- the piece that the first part of `select_next_block` settles on, and the manager then -/
inductive Chosen (p : ℕ) (bf : List PeerPieceState) (s : PieceManager) : Option ℕ → PieceManager → Prop where
  | affinity (x : ℕ) (hx : s.peerPieceAffinityMap.lookup p = some x) : Chosen p bf s (some x) s
  | opened (x : ℕ) (m : PieceMetadata) (b : Buffer) (added : Bool) (ha : s.peerPieceAffinityMap.lookup p = none)
      (hx : bf[x]? = some .havePiece) (hm : s.pieces[x]? = some m) (hst : m.state = .notStarted)
      (hfull : s.buffer.isFull = false)
      (hadd : s.buffer.addPieceToBuffer x m.numBlocks m.currentPieceLength = .ok (added, b)) :
      Chosen p bf s (some x) ((((s.putBuffer b).log (.addPiece x)).putState x m .buffered).bindPeer p x)
  | adopted (x rng : ℕ) (ha : s.peerPieceAffinityMap.lookup p = none) (hx : bf[x]? = some .havePiece) (u : PieceManager)
      (hu : ({ s with rng := rng } : PieceManager).adoptPiece p x = .ok u) : Chosen p bf s (some x) u
  | nothing (rng : ℕ) (ha : s.peerPieceAffinityMap.lookup p = none) : Chosen p bf s none { s with rng := rng }

section Choose

variable {bf : List PeerPieceState} {order : List ℕ} {r : Option ℕ}

/-- the search for an unstarted piece returns its index, if that fits into 32 bits -/
theorem findUnstarted_found (hw : s.pieces.length ≤ 2 ^ 32 ∨ bf.length ≤ 2 ^ 32)
    (hr : findUnstarted s.pieces bf 0 = .ok (some x)) :
    ∃ m, bf[x]? = some .havePiece ∧ s.pieces[x]? = some m ∧ m.state = .notStarted := by
  obtain ⟨j, m, hj, hm, hst, rfl⟩ := findUnstarted_some hr
  rw [Nat.zero_add] at hm ⊢
  have hjp : j < s.pieces.length := (List.getElem?_eq_some_iff.1 hm).1
  have hjb : j < bf.length := (List.getElem?_eq_some_iff.1 hj).1
  rw [Nat.mod_eq_of_lt (by omega)]
  exact ⟨m, hj, hm, hst⟩

theorem handleBufferNotFullCase_chosen (hbf : s.peersBitfieldMap.lookup p = some bf)
    (ha : s.peerPieceAffinityMap.lookup p = none)
    (hw : s.pieces.length ≤ 2 ^ 32 ∨ bf.length ≤ 2 ^ 32) (hfull : s.buffer.isFull = false)
    (hr : s.handleBufferNotFullCase p = .ok (r, t)) : (r = none ∧ t = s) ∨ ∃ x, r = some x ∧ Chosen p bf s r t := by
  rw [handleBufferNotFullCase, mapAt_eq_ok.2 hbf, ok_bind, bind_eq_ok] at hr
  obtain ⟨chosen, hfind, hr⟩ := hr
  cases chosen with
  | none =>
    cases hr
    exact Or.inl ⟨rfl, rfl⟩
  | some x =>
    obtain ⟨m, hx, hm, hst⟩ := findUnstarted_found hw hfind
    simp only [vecAt_eq_ok.2 hm, ok_bind, bind_eq_ok] at hr
    obtain ⟨⟨added, b⟩, hadd, u, hset, hr⟩ := hr
    rw [setState_eq (show (({ s with buffer := b } : PieceManager).log (.addPiece x)).pieces[x]? = some m from hm)]
      at hset
    cases hset
    cases hr
    exact Or.inr ⟨x, rfl, .opened x m b added ha hx hm hst hfull hadd⟩

theorem handleBufferFullOrNoPieceToAdd_chosen (hbf : s.peersBitfieldMap.lookup p = some bf)
    (ha : s.peerPieceAffinityMap.lookup p = none)
    (hr : s.handleBufferFullOrNoPieceToAdd p order = .ok (r, t)) : Chosen p bf s r t := by
  rw [handleBufferFullOrNoPieceToAdd, mapAt_eq_ok.2 hbf, ok_bind] at hr
  simp only at hr
  split_ifs at hr with hpos
  · rw [bind_eq_ok] at hr
    obtain ⟨⟨rng, start⟩, -, hr⟩ := hr
    rw [bind_eq_ok] at hr
    obtain ⟨chosen, hpick, hr⟩ := hr
    cases chosen with
    | none =>
      cases hr
      exact .nothing rng ha
    | some x =>
      simp only [bind_eq_ok] at hr
      obtain ⟨u, hu, hr⟩ := hr
      cases hr
      exact .adopted x rng ha (pickPiece_some hpick).2 _ hu
  · cases hr
    exact .nothing s.rng ha

/-- **The choice of a piece**, read off the code -/
theorem choosePiece_chosen (hbf : s.peersBitfieldMap.lookup p = some bf)
    (hw : s.pieces.length ≤ 2 ^ 32 ∨ bf.length ≤ 2 ^ 32) (hr : s.choosePiece p order = .ok (r, t)) :
    Chosen p bf s r t := by
  rw [choosePiece] at hr
  simp only at hr
  cases ha : s.peerPieceAffinityMap.lookup p with
  | some x =>
    rw [ha] at hr
    cases hr
    exact .affinity x ha
  | none =>
    simp only [ha, Option.isNone_none, Bool.true_and, Bool.not_eq_true'] at hr
    by_cases hfull : s.buffer.isFull = true
    · rw [if_neg (by simp [hfull])] at hr
      exact handleBufferFullOrNoPieceToAdd_chosen hbf ha hr
    · rw [if_pos (by simpa using hfull), bind_eq_ok] at hr
      obtain ⟨⟨r', u⟩, hu, hr⟩ := hr
      rcases handleBufferNotFullCase_chosen hbf ha hw (by simpa using hfull) hu with ⟨rfl, rfl⟩ | ⟨x, rfl, hchosen⟩
      · exact handleBufferFullOrNoPieceToAdd_chosen hbf ha hr
      · cases hr
        exact hchosen

end Choose

/-- a buffer can only reopen a piece that it holds -/
theorem clearAllRequested_slot {b b' : Buffer} (h : b.WF) (hb : b.clearAllRequested x = .ok b') :
    ∃ q, b.slotOf x = some q := by
  cases hq : b.slotOf x with
  | some q => exact ⟨q, rfl⟩
  | none =>
    simp only [clearAllRequested, h.slotOf_eq_none.1 hq] at hb
    cases hb

/-- a block is only requested of a piece in the buffer -/
theorem requestFrom_slot (h : s.buffer.WF) {r : Option BlockRequest} (hr : s.requestFrom x = .ok (r, t)) :
    ∃ q, s.buffer.slotOf x = some q := by
  cases hq : s.buffer.slotOf x with
  | some q => exact ⟨q, rfl⟩
  | none =>
    simp only [requestFrom, getBlockIndexToRetrieve, h.slotOf_eq_none.1 hq] at hr
    cases hr

/-- a peer takes a piece of the buffer: as it is, or reopened -/
theorem adoptPiece_ok (h : s.buffer.WF) (hr : s.adoptPiece p x = .ok t) :
    t = s.bindPeer p x ∨ ∃ m q, s.pieces[x]? = some m ∧ s.buffer.slotOf x = some q ∧
      t = (((s.bindPeer p x).putBuffer (s.buffer.putSlot x { q with blocksState := clearRequested q.blocksState })).log
        (.clearAllRequested x)).putState x m .buffered := by
  rw [adoptPiece] at hr
  simp only [bind_eq_ok, vecAt_eq_ok] at hr
  obtain ⟨m, hm, hr⟩ := hr
  split_ifs at hr with hst
  · rw [bind_eq_ok] at hr
    obtain ⟨b, hb, hr⟩ := hr
    obtain ⟨q, hq⟩ := clearAllRequested_slot h hb
    rw [clearAllRequested_spec h hq] at hb
    cases hb
    have hset := setState_eq (s := ((s.bindPeer p x).putBuffer
      (s.buffer.putSlot x { q with blocksState := clearRequested q.blocksState })).log (.clearAllRequested x)) hm .buffered
    exact Or.inr ⟨m, q, hm, hq, Except.ok.inj (hr.symm.trans hset)⟩
  · cases hr
    exact Or.inl rfl

/-- the manager when the first missing block of piece `x` has been marked REQUESTED -/
def markNext (s : PieceManager) (x : ℕ) (q : BufferPiece) : PieceManager :=
  s.putBuffer (s.buffer.putSlot x { q with blocksState := markRequested q.blocksState })

/-- a piece of which everything is requested is closed; either way the call goes on -/
theorem closeIfRequested_ok {β : Type} {all : Bool} {rest : PieceManager → Except Fault β} {v : β}
    (hr : (if all = true then (s.setState x .allRequested >>= fun s => pure (s.removeAffinity x)) >>= rest
      else pure s >>= rest) = .ok v) :
    ∃ u, (u = s ∨ ∃ m, s.pieces[x]? = some m ∧ u = (s.putState x m .allRequested).removeAffinity x) ∧
      rest u = .ok v := by
  split_ifs at hr with hall
  · simp only [bind_eq_ok] at hr
    obtain ⟨u, ⟨w, hw, hu⟩, hr⟩ := hr
    cases hu
    rw [setState, bind_eq_ok] at hw
    obtain ⟨m, hm, hw⟩ := hw
    cases hw
    exact ⟨_, Or.inr ⟨m, vecAt_eq_ok.1 hm, rfl⟩, hr⟩
  · exact ⟨s, Or.inl rfl, hr⟩

/-- the second part of `select_next_block`: a block is marked, the piece may be closed, and the trace may grow -/
theorem requestFrom_ok (h : s.buffer.WF) {r : Option BlockRequest} (hr : s.requestFrom x = .ok (r, t)) :
    (∀ request, r = some request → request.pieceIndex = x) ∧ ∃ q u, s.buffer.slotOf x = some q ∧
      (u = s.markNext x q ∨
        ∃ m, s.pieces[x]? = some m ∧ u = ((s.markNext x q).putState x m .allRequested).removeAffinity x) ∧
      (t = u ∨ ∃ k, t = u.log (.request x k)) := by
  obtain ⟨q, hq⟩ := requestFrom_slot h hr
  rw [requestFrom, getBlockIndexToRetrieve_spec h hq, ok_bind] at hr
  obtain ⟨u, hclose, hr⟩ := closeIfRequested_ok (s := s.markNext x q) hr
  cases hmiss : firstMissing q.blocksState with
  | none =>
    simp only [hmiss] at hr
    cases hr
    exact ⟨by simp, q, t, hq, hclose, Or.inl rfl⟩
  | some k =>
    simp only [hmiss] at hr
    cases hr
    refine ⟨?_, q, u, hq, hclose, Or.inr ⟨k, rfl⟩⟩
    intro request hrequest
    cases hrequest
    rfl

/-- **What `select_next_block` does**, read off the code -/
theorem selectNextBlock_ok {order : List ℕ} {r : Option BlockRequest} (hr : s.selectNextBlock p order = .ok (r, t))
    (hw : s.pieces.length ≤ 2 ^ 32 ∨ ∀ bf, s.peersBitfieldMap.lookup p = some bf → bf.length ≤ 2 ^ 32) :
    (s.peersBitfieldMap.lookup p = none ∧ r = none ∧ t = s) ∨
      ∃ bf chosen u, s.peersBitfieldMap.lookup p = some bf ∧ Chosen p bf s chosen u ∧
        (chosen = none ∧ r = none ∧ t = u ∨ ∃ x, chosen = some x ∧ u.requestFrom x = .ok (r, t)) := by
  cases hbf : s.peersBitfieldMap.lookup p with
  | none =>
    rw [selectNextBlock_unregistered hbf] at hr
    cases hr
    exact Or.inl ⟨rfl, rfl, rfl⟩
  | some bf =>
    rw [selectNextBlock_eq hbf, bind_eq_ok] at hr
    obtain ⟨⟨chosen, u⟩, hu, hr⟩ := hr
    refine Or.inr ⟨bf, chosen, u, rfl, choosePiece_chosen hbf (hw.imp_right fun h => h bf hbf) hu, ?_⟩
    cases chosen with
    | none =>
      cases hr
      exact Or.inl ⟨rfl, rfl, rfl⟩
    | some x => exact Or.inr ⟨x, rfl, hr⟩

/-! ## The links -/

/-- the buffer is well formed, and every slot belongs to a piece that has been started and has its size -/
structure Linked (s : PieceManager) : Prop where
  wf : s.buffer.WF
  bufferBlock : s.buffer.blockLength = s.blockLength
  blockLength_pos : 0 < s.blockLength
  slot : ∀ x q, s.buffer.slotOf x = some q → ∃ m, s.pieces[x]? = some m ∧ m.state ≠ .notStarted ∧
    q.blocksState.length = m.numBlocks ∧ q.data.length = m.currentPieceLength
  narrow : s.pieces.length ≤ 2 ^ 32 ∨ ∀ p bf, s.peersBitfieldMap.lookup p = some bf → bf.length ≤ 2 ^ 32

namespace Linked

theorem log (h : s.Linked) (e : Event ℕ) : (s.log e).Linked := { h with }

theorem rng (h : s.Linked) (r : ℕ) : ({ s with rng := r } : PieceManager).Linked := { h with }

theorem bindPeer (h : s.Linked) : (s.bindPeer p x).Linked := { h with }

theorem removeAffinity (h : s.Linked) : (s.removeAffinity x).Linked := { h with }

/-- new bytes and marks in a slot, as many as before -/
theorem putSlot (h : s.Linked) {q : BufferPiece} (hq : s.buffer.slotOf x = some q) (data : Bytes)
    {blocks : List BlockState} (hdata : data.length = q.data.length) (hblocks : blocks.length = q.blocksState.length) :
    (s.putBuffer (s.buffer.putSlot x { q with data := data, blocksState := blocks })).Linked := by
  obtain ⟨-, -, -, -, -, he, hi⟩ := h.wf.slotOf_eq_some hq
  refine { h with wf := h.wf.putSlot hq hi he, bufferBlock := ?_, slot := ?_ }
  · exact putSlot_blockLength.trans h.bufferBlock
  · intro y r hr
    change (s.buffer.putSlot x _).slotOf y = some r at hr
    rw [h.wf.slotOf_putSlot hq] at hr
    rcases update_eq_some hr with ⟨rfl, hnew⟩ | ⟨-, hr⟩
    · cases hnew
      obtain ⟨m, hm, hst, hqb, hqd⟩ := h.slot y q hq
      exact ⟨m, hm, hst, hblocks.trans hqb, hdata.trans hqd⟩
    · exact h.slot y r hr

/-- a released slot -/
theorem dropSlot (h : s.Linked) {q : BufferPiece} (hq : s.buffer.slotOf x = some q) :
    (s.putBuffer (s.buffer.dropSlot x)).Linked := by
  refine { h with wf := h.wf.dropSlot hq, bufferBlock := dropSlot_blockLength.trans h.bufferBlock, slot := ?_ }
  intro y r hr
  change (s.buffer.dropSlot x).slotOf y = some r at hr
  rw [h.wf.slotOf_dropSlot hq] at hr
  rcases update_eq_some hr with ⟨-, hr⟩ | ⟨-, hr⟩
  · cases hr
  · exact h.slot y r hr

/-- a new state for a piece, which may be NOT_STARTED only if the piece has no slot -/
theorem putState (h : s.Linked) {m : PieceMetadata} (hm : s.pieces[x]? = some m) (st : PieceState)
    (hst : st ≠ .notStarted ∨ s.buffer.slotOf x = none) : (s.putState x m st).Linked := by
  have hlt : x < s.pieces.length := (List.getElem?_eq_some_iff.1 hm).1
  refine { h with slot := ?_, narrow := ?_ }
  · intro y r hr
    obtain ⟨m', hm', hst', hsizes⟩ := h.slot y r hr
    by_cases hy : x = y
    · subst hy
      rw [hm, Option.some.injEq] at hm'
      subst hm'
      refine ⟨_, List.getElem?_set_self hlt, hst.resolve_right ?_, hsizes⟩
      rw [show s.buffer.slotOf x = some r from hr]
      exact Option.some_ne_none r
    · exact ⟨m', (List.getElem?_set_ne hy).trans hm', hst', hsizes⟩
  · rw [show (s.putState x m st).pieces.length = s.pieces.length from List.length_set]
    exact h.narrow

/-- a piece that is opened: its slot is new, and of its size -/
theorem openPiece (h : s.Linked) {m : PieceMetadata} (hm : s.pieces[x]? = some m) (hst : m.state = .notStarted)
    (hfull : s.buffer.isFull = false) {b : Buffer} {added : Bool}
    (hadd : s.buffer.addPieceToBuffer x m.numBlocks m.currentPieceLength = .ok (added, b)) :
    ((s.putBuffer b).putState x m .buffered).Linked ∧ ∃ data, data.length = m.currentPieceLength ∧
      b.slotOf = Function.update s.buffer.slotOf x
        (some ⟨x, data, List.replicate m.numBlocks .dontHave, false⟩) := by
  have hnone : s.buffer.slotOf x = none := by
    cases hq : s.buffer.slotOf x with
    | none => rfl
    | some q =>
      obtain ⟨m', hm', hst', -⟩ := h.slot x q hq
      rw [hm, Option.some.injEq] at hm'
      exact absurd hst (hm' ▸ hst')
  have hlt : x < s.pieces.length := (List.getElem?_eq_some_iff.1 hm).1
  rcases addPieceToBuffer_spec h.wf hnone hfull m.numBlocks m.currentPieceLength with
    ⟨b', data, hadd', hwf, hdata, hslot, -, -, hbl⟩ | ⟨hbad, -⟩
  · rw [hadd'] at hadd
    cases hadd
    refine ⟨{ h with wf := hwf, bufferBlock := hbl.trans h.bufferBlock, slot := ?_, narrow := ?_ }, data, hdata, hslot⟩
    · intro y r hr
      change b.slotOf y = some r at hr
      rw [hslot] at hr
      rcases update_eq_some hr with ⟨rfl, hnew⟩ | ⟨hy, hr⟩
      · cases hnew
        exact ⟨_, List.getElem?_set_self hlt, by simp, List.length_replicate, hdata⟩
      · obtain ⟨m', hm', hrest⟩ := h.slot y r hr
        exact ⟨m', (List.getElem?_set_ne (Ne.symm hy)).trans hm', hrest⟩
    · rw [show ((s.putBuffer b).putState x m .buffered).pieces.length = s.pieces.length from List.length_set]
      exact h.narrow
  · rw [hbad] at hadd
    cases hadd

end Linked

/-! ## Where slots come from -/

/-- every slot of `t` has the bytes of a slot of `s` and no HAVE mark that is not there, or has no HAVE mark at all -/
def Fresher (s t : PieceManager) : Prop :=
  ∀ x q, t.buffer.slotOf x = some q → BlockState.haveBlock ∉ q.blocksState ∨
    ∃ q₀, s.buffer.slotOf x = some q₀ ∧ q.data = q₀.data ∧
      ∀ k : ℕ, q.blocksState[k]? = some .haveBlock → q₀.blocksState[k]? = some .haveBlock

/-- with the same buffer nothing is fresher -/
theorem Fresher.of_buffer (h : t.buffer = s.buffer) : Fresher s t := by
  intro x q hq
  rw [h] at hq
  exact Or.inr ⟨q, hq, rfl, fun _ hk => hk⟩

theorem Fresher.refl (s : PieceManager) : Fresher s s := .of_buffer rfl

theorem Fresher.trans (h₁ : Fresher s t) (h₂ : Fresher t u) : Fresher s u := by
  intro x q hq
  rcases h₂ x q hq with hnew | ⟨q₁, hq₁, hdata₁, hmarks₁⟩
  · exact Or.inl hnew
  · rcases h₁ x q₁ hq₁ with hnew | ⟨q₀, hq₀, hdata₀, hmarks₀⟩
    · refine Or.inl fun hmem => hnew ?_
      obtain ⟨k, hk⟩ := List.mem_iff_getElem?.1 hmem
      exact List.mem_iff_getElem?.2 ⟨k, hmarks₁ k hk⟩
    · exact Or.inr ⟨q₀, hq₀, hdata₁.trans hdata₀, fun k hk => hmarks₀ k (hmarks₁ k hk)⟩

/-- new marks, none of them HAVE -/
theorem Fresher.putSlot (h : s.buffer.WF) {q : BufferPiece} (hq : s.buffer.slotOf x = some q)
    {blocks : List BlockState} (hmarks : ∀ k : ℕ, blocks[k]? = some .haveBlock → q.blocksState[k]? = some .haveBlock)
    (ht : t.buffer = s.buffer.putSlot x { q with blocksState := blocks }) : Fresher s t := by
  intro y r hr
  rw [ht, h.slotOf_putSlot hq] at hr
  rcases update_eq_some hr with ⟨rfl, hnew⟩ | ⟨-, hr⟩
  · cases hnew
    exact Or.inr ⟨q, hq, rfl, hmarks⟩
  · exact Fresher.refl s y r hr

theorem markRequested_have {blocks : List BlockState} {k : ℕ} (h : (markRequested blocks)[k]? = some .haveBlock) :
    blocks[k]? = some .haveBlock := by
  rw [getElem?_markRequested] at h
  split_ifs at h with hk
  · cases h
  · exact h

theorem clearRequested_have {blocks : List BlockState} {k : ℕ} (h : (clearRequested blocks)[k]? = some .haveBlock) :
    blocks[k]? = some .haveBlock := by
  rw [getElem?_clearRequested, Option.map_eq_some_iff] at h
  obtain ⟨b, hb, hne⟩ := h
  split_ifs at hne
  exact hne ▸ hb

/-! ## select_next_block -/

/-- `t` is linked, and has the pieces and block length of `s`, and fresher slots -/
structure Follows (s t : PieceManager) : Prop where
  linked : t.Linked
  fresher : Fresher s t
  blockLength : t.blockLength = s.blockLength
  size : t.pieces.length = s.pieces.length

theorem Follows.trans (h₁ : Follows s t) (h₂ : Follows t u) : Follows s u :=
  ⟨h₂.linked, h₁.fresher.trans h₂.fresher, h₂.blockLength.trans h₁.blockLength, h₂.size.trans h₁.size⟩

theorem Linked.chosen (h : s.Linked) {bf : List PeerPieceState} {r : Option ℕ} (hc : Chosen p bf s r t) :
    Follows s t := by
  cases hc with
  | affinity x hx => exact ⟨h, .refl s, rfl, rfl⟩
  | opened x m b added ha hx hm hst hfull hadd =>
    obtain ⟨hlinked, data, -, hslot⟩ := h.openPiece hm hst hfull hadd
    refine ⟨(hlinked.log _).bindPeer, ?_, rfl, List.length_set⟩
    intro y r hr
    change b.slotOf y = some r at hr
    rw [hslot] at hr
    rcases update_eq_some hr with ⟨rfl, hnew⟩ | ⟨-, hr⟩
    · cases hnew
      exact Or.inl fun hmem => by cases List.eq_of_mem_replicate hmem
    · exact Fresher.refl s y r hr
  | adopted x rng ha hx u hu =>
    rcases adoptPiece_ok (h.rng rng).wf hu with rfl | ⟨m, q, hm, hq, rfl⟩
    · exact ⟨(h.rng rng).bindPeer, .of_buffer rfl, rfl, rfl⟩
    · have hput := ((h.rng rng).bindPeer (p := p) (x := x)).putSlot hq q.data rfl length_clearRequested
      refine ⟨(hput.log _).putState hm _ (Or.inl (by simp)), ?_, rfl, List.length_set⟩
      exact Fresher.putSlot h.wf hq (fun k hk => clearRequested_have hk) rfl
  | nothing rng ha => exact ⟨h.rng rng, .of_buffer rfl, rfl, rfl⟩

theorem Linked.requestFrom (h : s.Linked) {r : Option BlockRequest} (hr : s.requestFrom x = .ok (r, t)) :
    Follows s t := by
  obtain ⟨-, q, u, hq, hu, ht⟩ := requestFrom_ok h.wf hr
  have hmark : (s.markNext x q).Linked := h.putSlot hq q.data rfl length_markRequested
  have hfresh : Fresher s (s.markNext x q) := Fresher.putSlot h.wf hq (fun k hk => markRequested_have hk) rfl
  have hfollows : Follows s u := by
    rcases hu with rfl | ⟨m, hm, rfl⟩
    · exact ⟨hmark, hfresh, rfl, rfl⟩
    · exact ⟨(hmark.putState hm _ (Or.inl (by simp))).removeAffinity, hfresh.trans (.of_buffer rfl), rfl, List.length_set⟩
  rcases ht with rfl | ⟨k, rfl⟩
  · exact hfollows
  · exact hfollows.trans ⟨hfollows.linked.log _, .of_buffer rfl, rfl, rfl⟩

/-- **`select_next_block`** keeps the links, and marks nothing HAVE. -/
theorem Linked.select (h : s.Linked) {order : List ℕ} {r : Option BlockRequest}
    (hr : s.selectNextBlock p order = .ok (r, t)) : Follows s t := by
  rcases selectNextBlock_ok hr (h.narrow.imp_right fun hn => hn p) with
    ⟨-, -, rfl⟩ | ⟨bf, chosen, u, -, hchosen, ⟨-, -, rfl⟩ | ⟨x, -, hreq⟩⟩
  · exact ⟨h, .refl _, rfl, rfl⟩
  · exact h.chosen hchosen
  · have hu := h.chosen hchosen
    exact hu.trans (hu.linked.requestFrom hreq)

end PieceManager

end SimpleTorrent
