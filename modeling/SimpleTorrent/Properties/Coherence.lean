/-
Coherence of the piece manager and its buffer, and what reaches the file manager.

- `Coherent`: the links between piece states, slot array, slot map, affinities and the completion count.
- `coherence`: every state reached is coherent, what is completed stays so, and a run cannot fail to reach a state.
- `saves_verified`: every piece handed to the file manager is whole and has the right hash, none is handed over twice,
  and the download is complete when all have been.
-/
import SimpleTorrent.Manager.Refinement

namespace SimpleTorrent

open Checked Buffer Store

namespace PieceManager

variable {c : Config} {sha1 : Bytes → Bytes} {s t : PieceManager} {x p : ℕ}

/-! ## Coherence -/

/-- the state of piece `x`, none when there is no such piece -/
def stateOf (s : PieceManager) (x : ℕ) : Option PieceState := s.pieces[x]?.map (·.state)

/-- all links between the five structures that the manager and its buffer keep -/
structure Coherent (c : Config) (s : PieceManager) : Prop where
  keys : ∀ x, x ∈ s.buffer.pieceBufferMap ↔ s.stateOf x = some .buffered ∨ s.stateOf x = some .allRequested
  injective : ∀ x y j, s.buffer.pieceBufferMap.lookup x = some j → s.buffer.pieceBufferMap.lookup y = some j → x = y
  used : ∀ j q, s.buffer.buffer[j]? = some q →
    (q.empty = false ↔ ∃ x, s.buffer.pieceBufferMap.lookup x = some j)
  slot : ∀ x j, s.buffer.pieceBufferMap.lookup x = some j → ∃ q m, s.buffer.buffer[j]? = some q ∧
    s.pieces[x]? = some m ∧ q.pieceIndex = x ∧ q.blocksState.length = m.numBlocks ∧
    q.data.length = m.currentPieceLength
  requested : ∀ x q, s.stateOf x = some .allRequested → s.buffer.slotOf x = some q → .dontHave ∉ q.blocksState
  missing : ∀ x q, s.buffer.slotOf x = some q → ∃ b ∈ q.blocksState, b ≠ .haveBlock
  affinity : ∀ p x, s.peerPieceAffinityMap.lookup p = some x →
    p ∈ s.peersBitfieldMap ∧ s.stateOf x = some .buffered
  count : s.numPiecesCompleted = s.pieces.countP (fun m => m.state == .completed)
  /-- the static data of the pieces is the torrent's -/
  pieces : s.pieces.length = c.numPieces ∧ ∀ x m, s.pieces[x]? = some m → some m.pieceHash = c.data.pieceHashes[x]? ∧
    m.currentPieceLength = currentPieceLength c.data x ∧ m.numBlocks = numBlocks c.data c.blockLength.toNat x

theorem Inv.pieceHash (h : s.Inv c sha1) {m : PieceMetadata} (hm : s.pieces[x]? = some m) :
    some m.pieceHash = c.data.pieceHashes[x]? := by
  have hx : x < c.numPieces := h.shape.size ▸ (List.getElem?_eq_some_iff.1 hm).1
  rw [(h.shape.piece x m hm).1, List.getElem?_eq_getElem hx]
  simp [Config.layout, List.getElem?_eq_getElem hx]

theorem Inv.count_eq (h : s.Inv c sha1) (hn : c.numPieces < 2 ^ 32) :
    s.numPiecesCompleted = s.pieces.countP (fun m => m.state == .completed) := by
  have hle : s.pieces.countP (fun m => m.state == .completed) ≤ c.numPieces := h.shape.size ▸ List.countP_le_length
  rw [h.shape.count, Nat.mod_eq_of_lt (by omega)]

/-- the invariant, spelled out -/
theorem Inv.coherent (h : s.Inv c sha1) (hn : c.numPieces < 2 ^ 32) : s.Coherent c where
  keys x := by
    rw [← h.shape.wf.slotOf_isSome, ← Option.isSome_map (f := toSlot)]
    exact (h.good.inv.piece x).dom
  injective x y j hx hy := h.shape.wf.inj hx hy
  used j q hq := by
    constructor
    · exact fun he => ⟨q.pieceIndex, h.shape.wf.used j q hq he⟩
    · rintro ⟨x, hx⟩
      obtain ⟨r, hr, he, -⟩ := h.shape.wf.slot x j hx
      rw [hq, Option.some.injEq] at hr
      exact hr ▸ he
  slot x j hx := by
    obtain ⟨q, hq, -, hqx⟩ := h.shape.wf.slot x j hx
    obtain ⟨m, hm, -, hblocks, hdata⟩ := h.slotOf_eq_some (show s.buffer.slotOf x = some q by simp [slotOf, hx, hq])
    obtain ⟨-, hlen, hnum⟩ := h.shape.piece x m hm
    exact ⟨q, m, hq, hm, hqx, hblocks.trans hnum.symm, hdata.trans hlen.symm⟩
  requested x q hst hq := (h.good.inv.piece x).requested _ hst (toStore_slot hq)
  missing x q hq := (h.good.inv.piece x).missing _ (toStore_slot hq)
  affinity p x hp := by
    obtain ⟨hst, hreg⟩ := h.good.inv.affinity p x hp
    refine ⟨AList.lookup_isSome.1 ?_, hst⟩
    simpa [toStore] using hreg
  count := h.count_eq hn
  pieces := ⟨h.shape.size, fun x m hm => ⟨h.pieceHash hm, (h.shape.piece x m hm).2⟩⟩

/-- **Coherence.** Whatever calls are made, the state they lead to is coherent, and a completed piece stays completed
and out of the buffer. The calls do lead to a state unless there can be 2^31 pieces in the buffer at once. -/
theorem coherence (c : Config) (sha1 : Bytes → Bytes) (hn : c.numPieces < 2 ^ 32) (ops : List Op)
    (hops : ∀ o ∈ ops, o.Fits c) :
    (∀ s, c.run sha1 ops = .ok s → s.Coherent c) ∧
      (∀ ops' s t x, (∀ o ∈ ops', o.Fits c) → c.run sha1 ops = .ok s → c.run sha1 (ops ++ ops') = .ok t →
        s.stateOf x = some .completed → t.stateOf x = some .completed ∧ x ∉ t.buffer.pieceBufferMap) ∧
      (min c.bufferSize.toNat c.numPieces < 2 ^ 31 → ∃ s, c.run sha1 ops = .ok s) := by
  refine ⟨fun s hs => (run_fits hops hs).1.coherent hn, ?_, run_total hops⟩
  intro ops' s t x hops' hs ht hx
  have hall : ∀ o ∈ ops ++ ops', o.Fits c := fun o ho => (List.mem_append.1 ho).elim (hops o) (hops' o)
  have hmoves := run_append_moves (fun o ho => (hall o ho).narrow) hs ht
  have hxt : t.stateOf x = some .completed := hmoves.completed (run_fits hops hs).1 hx
  refine ⟨hxt, ?_⟩
  intro hkey
  rcases (((run_fits hall ht).1.coherent hn).keys x).1 hkey with h | h <;> simp [hxt] at h

/-- one piece of two blocks in a buffer for one piece; SHA-1 is the identity -/
def onePiece : Config := ⟨.ofHashes [[1, 2]] 2 2, 1, 1, by decide, by decide, toNat_one_pos⟩

/-- download of the piece, with a block that nobody asked for -/
def onePieceOps : List Op :=
  [.updatePieceFrequencies [1] 0, .selectNextBlock 0 [], .addBlock 0 ⟨0, 1, [2]⟩, .addBlock 0 ⟨0, 0, [1]⟩]

theorem onePiece_run : ∃ s, onePiece.run id onePieceOps = .ok s := run_total (by decide) (by decide)

theorem coherence_onePiece : ∃ s, onePiece.run id onePieceOps = .ok s ∧ s.Coherent onePiece := by
  obtain ⟨h, -, htot⟩ := coherence onePiece id (by decide) onePieceOps (by decide)
  obtain ⟨s, hs⟩ := htot (by decide)
  exact ⟨s, hs, h s hs⟩

/-! ## Saves -/

/-- **Only verified pieces are saved, and each once.** -/
theorem saves_verified (c : Config) (sha1 : Bytes → Bytes) (hn : c.numPieces < 2 ^ 32) (ops : List Op) (s : PieceManager)
    (h : c.run sha1 ops = .ok s) :
    (∀ x off d, .savePiece x off d ∈ s.trace → x < c.numPieces ∧ off = x * c.data.pieceLength ∧
        d.length = currentPieceLength c.data x ∧ some (sha1 d) = c.data.pieceHashes[x]?) ∧
      (savedPieces s.trace).Nodup ∧
      (s.isDownloadComplete = true ↔ ∀ x < c.numPieces, x ∈ savedPieces s.trace) := by
  have hinv := run_inv (fun o _ => o.narrow_of_lt hn) h
  obtain ⟨hcompleted, hnodup, hsaved⟩ := hinv.good.saves
  refine ⟨?_, hnodup, ?_⟩
  · intro x off d hx
    obtain ⟨hoff, hlen, hhash⟩ := hsaved x off d hx
    obtain ⟨m, hm, -⟩ := state_toStore ((hcompleted x).2 (mem_savedPieces.2 ⟨off, d, hx⟩))
    have hxn : x < c.numPieces := hinv.shape.size ▸ (List.getElem?_eq_some_iff.1 hm).1
    have hpl := c.pieceLength_lt
    -- no 64-bit overflow: both factors are below 2^32
    have hlt : x * c.data.pieceLength < 2 ^ 64 :=
      calc x * c.data.pieceLength < 2 ^ 32 * 2 ^ 32 := Nat.mul_lt_mul'' (by omega) hpl
        _ = 2 ^ 64 := by norm_num
    exact ⟨hxn, by rw [hoff]; exact Nat.mod_eq_of_lt hlt, hlen,
      by rw [hhash, ← (hinv.shape.piece x m hm).1]; exact hinv.pieceHash hm⟩
  · rw [isDownloadComplete, beq_iff_eq, hinv.count_eq hn, List.countP_eq_length]
    constructor
    · intro hall x hx
      rw [← hinv.shape.size] at hx
      apply (hcompleted x).1
      rw [toStore_state (List.getElem?_eq_getElem hx)]
      simpa using hall _ (List.getElem_mem hx)
    · intro hall m hm
      obtain ⟨x, hx, rfl⟩ := List.getElem_of_mem hm
      have hst := (hcompleted x).2 (hall x (hinv.shape.size ▸ hx))
      rw [toStore_state (List.getElem?_eq_getElem hx), Option.some.injEq] at hst
      simp [hst]

theorem saves_verified_onePiece :
    ∃ s, onePiece.run id onePieceOps = .ok s ∧ (savedPieces s.trace).Nodup ∧
      (s.isDownloadComplete = true ↔ ∀ x < 1, x ∈ savedPieces s.trace) := by
  obtain ⟨s, hs⟩ := onePiece_run
  exact ⟨s, hs, (saves_verified onePiece id (by decide) onePieceOps s hs).2⟩

/-- the piece goes to the file manager as a whole -/
example : ∃ s, onePiece.run id onePieceOps = .ok s ∧ s.trace = [.addPiece 0, .request 0 0, .writeBlock 0 1,
    .writeBlock 0 0, .savePiece 0 0 [1, 2]] := ⟨_, rfl, by decide⟩

end PieceManager

end SimpleTorrent
