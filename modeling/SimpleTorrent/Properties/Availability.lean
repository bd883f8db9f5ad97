/-
Whether a peer is only asked for pieces it has.

`select_next_block` looks for HAVE in the bitfield of the peer when it opens a piece or picks one from the buffer, but
not when it reuses the affinity piece: `update_piece_frequencies` replaces the bitfield and keeps the affinity.

- `holds_iff`: a request is for a piece that the peer has if and only if its affinity piece, should it have one, is.
- `Faithful`: a new bitfield that still marks the peer's affinity piece.
- `asked_for_held`: in a run of faithful steps, every request is for a piece that the peer has.
- `unfaithful_step`: any other step leaves a peer bound to a piece that it does not have.
- `withdrawn_piece`: a peer that withdraws a piece is asked for it.
-/
import SimpleTorrent.Manager.Receive

namespace SimpleTorrent

open Checked Buffer

namespace PieceManager

variable {sha1 : Bytes → Bytes} {s t : PieceManager} {x p : ℕ}

/-- peer `p` is registered, and the bitfield recorded last for it marks piece `x` HAVE -/
def Holds (s : PieceManager) (p x : ℕ) : Prop :=
  ∃ bf, s.peersBitfieldMap.lookup p = some bf ∧ bf[x]? = some .havePiece

/-- every peer has its affinity piece -/
def AffinityHeld (s : PieceManager) : Prop := ∀ p x, s.peerPieceAffinityMap.lookup p = some x → s.Holds p x

/-! ## One call -/

/-- bitfields stay as they are, and an affinity that was not there before is peer `p`'s, to a piece it has -/
structure Binds (p : ℕ) (s t : PieceManager) : Prop where
  bitfields : t.peersBitfieldMap = s.peersBitfieldMap
  affinity : ∀ q y, t.peerPieceAffinityMap.lookup q = some y →
    s.peerPieceAffinityMap.lookup q = some y ∨ q = p ∧ s.Holds p y

theorem Binds.refl (p : ℕ) (s : PieceManager) : Binds p s s := ⟨rfl, fun _ _ h => Or.inl h⟩

theorem Binds.affinityHeld (h : Binds p s t) (hs : s.AffinityHeld) : t.AffinityHeld := by
  intro q y hy
  have hholds : s.Holds q y := by
    rcases h.affinity q y hy with hold | ⟨rfl, hnew⟩
    · exact hs q y hold
    · exact hnew
  rwa [Holds, h.bitfields]

theorem bindPeer_binds {bf : List PeerPieceState} (hbf : s.peersBitfieldMap.lookup p = some bf)
    (hx : bf[x]? = some .havePiece) (hb : t.peersBitfieldMap = s.peersBitfieldMap)
    (ht : t.peerPieceAffinityMap = s.peerPieceAffinityMap.insert p x) : Binds p s t := by
  refine ⟨hb, ?_⟩
  intro q y hy
  rw [ht] at hy
  by_cases hq : q = p
  · subst hq
    rw [AList.lookup_insert, Option.some.injEq] at hy
    exact Or.inr ⟨rfl, bf, hbf, hy ▸ hx⟩
  · rw [AList.lookup_insert_ne hq] at hy
    exact Or.inl hy

/-- an erased affinity is not a new one -/
theorem removeAffinity_le {q y : ℕ} (h : (s.removeAffinity x).peerPieceAffinityMap.lookup q = some y) :
    s.peerPieceAffinityMap.lookup q = some y := by
  rw [removeAffinity, lookup_eraseValue] at h
  split_ifs at h
  exact h

/-- the choice of a piece binds the peer to pieces it has only -/
theorem Chosen.binds {bf : List PeerPieceState} {r : Option ℕ} (h : s.buffer.WF) (hc : Chosen p bf s r t)
    (hbf : s.peersBitfieldMap.lookup p = some bf) : Binds p s t := by
  cases hc with
  | affinity x hx => exact .refl p s
  | opened x m b added ha hx hm hst hfull hadd => exact bindPeer_binds hbf hx rfl rfl
  | adopted x rng ha hx u hu =>
    rcases adoptPiece_ok (show ({ s with rng := rng } : PieceManager).buffer.WF from h) hu with rfl | ⟨m, q, -, -, rfl⟩
    · exact bindPeer_binds hbf hx rfl rfl
    · exact bindPeer_binds hbf hx rfl rfl
  | nothing rng ha => exact ⟨rfl, fun _ _ h => Or.inl h⟩

/-- the affinity piece is chosen if there is one, and another piece only if the peer has it -/
theorem Chosen.piece {bf : List PeerPieceState} (hc : Chosen p bf s (some x) t) :
    s.peerPieceAffinityMap.lookup p = some x ∨
      s.peerPieceAffinityMap.lookup p = none ∧ bf[x]? = some .havePiece := by
  cases hc with
  | affinity x hx => exact Or.inl hx
  | opened x m b added ha hx hm hst hfull hadd => exact Or.inr ⟨ha, hx⟩
  | adopted x rng ha hx u hu => exact Or.inr ⟨ha, hx⟩

theorem requestFrom_binds (h : s.buffer.WF) {r : Option BlockRequest} (hr : s.requestFrom x = .ok (r, t)) (p : ℕ) :
    Binds p s t := by
  obtain ⟨-, q, u, -, hu, ht⟩ := requestFrom_ok h hr
  have hbinds : Binds p s u := by
    rcases hu with rfl | ⟨m, -, rfl⟩
    · exact ⟨rfl, fun _ _ h => Or.inl h⟩
    · exact ⟨rfl, fun _ _ h => Or.inl (removeAffinity_le h)⟩
  rcases ht with rfl | ⟨k, rfl⟩
  · exact hbinds
  · exact ⟨hbinds.bitfields, hbinds.affinity⟩

/-- **Which piece is asked for**: the affinity piece if there is one, and otherwise one that the peer has. -/
theorem select_piece (h : s.Linked) {order : List ℕ} {request : BlockRequest}
    (hr : s.selectNextBlock p order = .ok (some request, t)) : p ∈ s.peersBitfieldMap ∧
      (s.peerPieceAffinityMap.lookup p = some request.pieceIndex ∨
        s.peerPieceAffinityMap.lookup p = none ∧ s.Holds p request.pieceIndex) := by
  rcases selectNextBlock_ok hr (h.narrow.imp_right fun hn => hn p) with
    ⟨-, hnone, -⟩ | ⟨bf, chosen, u, hbf, hchosen, ⟨-, hnone, -⟩ | ⟨x, rfl, hreq⟩⟩
  · cases hnone
  · cases hnone
  · have hx := (requestFrom_ok (h.chosen hchosen).linked.wf hreq).1 request rfl
    subst hx
    exact ⟨AList.lookup_isSome.1 (by rw [hbf]; rfl),
      hchosen.piece.imp_right fun ⟨ha, hhave⟩ => ⟨ha, bf, hbf, hhave⟩⟩

/-- **When a request is for a piece that the peer has**: if its affinity piece, should it have one, is. -/
theorem holds_iff (h : s.Linked) {order : List ℕ} {request : BlockRequest}
    (hr : s.selectNextBlock p order = .ok (some request, t)) :
    s.Holds p request.pieceIndex ↔ ∀ x, s.peerPieceAffinityMap.lookup p = some x → s.Holds p x := by
  obtain ⟨-, ha | ⟨ha, hholds⟩⟩ := select_piece h hr
  · rw [ha]
    exact ⟨fun hx y hy => Option.some.inj hy ▸ hx, fun hall => hall _ rfl⟩
  · rw [ha]
    exact ⟨fun _ y hy => absurd hy (by simp), fun _ => hholds⟩

theorem select_binds (h : s.Linked) {order : List ℕ} {r : Option BlockRequest}
    (hr : s.selectNextBlock p order = .ok (r, t)) : ∃ u, Binds p s u ∧ Binds p u t := by
  rcases selectNextBlock_ok hr (h.narrow.imp_right fun hn => hn p) with
    ⟨-, -, rfl⟩ | ⟨bf, chosen, u, hbf, hchosen, ⟨-, -, rfl⟩ | ⟨x, -, hreq⟩⟩
  · exact ⟨t, .refl p t, .refl p t⟩
  · exact ⟨t, hchosen.binds h.wf hbf, .refl p t⟩
  · exact ⟨u, hchosen.binds h.wf hbf, requestFrom_binds (h.chosen hchosen).linked.wf hreq p⟩

/-! ## Runs -/

/-- a new bitfield marks the affinity piece of its peer, if there is one -/
def Faithful (s : PieceManager) : Op → Prop
  | .updatePieceFrequencies bitfield p => ∀ x, s.peerPieceAffinityMap.lookup p = some x → bitfield[x]? = some 1
  | _ => True

theorem received_binds (s : PieceManager) (block : Block) (m : PieceMetadata) (q : BufferPiece) :
    Binds p s (s.received sha1 block m q) := by
  rw [received]
  split_ifs
  · rw [closed]
    split_ifs
    · exact ⟨rfl, fun _ _ h => Or.inl (removeAffinity_le h)⟩
    · exact ⟨rfl, fun _ _ h => Or.inl (removeAffinity_le h)⟩
  · exact ⟨rfl, fun _ _ h => Or.inl h⟩

/-- **A faithful step** leaves every peer with its affinity piece. -/
theorem step_affinityHeld (h : s.Linked) (ha : s.AffinityHeld) {o : Op} (ho : s.Faithful o)
    (hs : step sha1 s o = .ok t) : t.AffinityHeld := by
  cases o with
  | updatePieceFrequencies bitfield p =>
    cases hs
    intro q x hx
    rw [Holds, lookup_updatePieceFrequencies]
    by_cases hq : q = p
    · subst hq
      rw [if_pos rfl]
      refine ⟨_, rfl, ?_⟩
      rw [convert, List.getElem?_map, ho x hx]
      rfl
    · rw [if_neg hq]
      exact ha q x hx
  | selectNextBlock p order =>
    obtain ⟨r, hv⟩ := step_select hs
    obtain ⟨u, hsu, hut⟩ := select_binds h hv
    exact hut.affinityHeld (hsu.affinityHeld ha)
  | addBlock p block =>
    rcases addBlock_cases (p := p) h hs with ⟨-, rfl⟩ | ⟨m, q, -, rfl, -⟩
    · exact ha
    · exact (received_binds (p := p) s block m q).affinityHeld ha
  | removePeer p =>
    cases hs
    intro q x hx
    obtain ⟨hq, hx⟩ := lookup_erase_eq_some.1 hx
    obtain ⟨bf, hbf, hhave⟩ := ha q x hx
    exact ⟨bf, lookup_erase_eq_some.2 ⟨hq, hbf⟩, hhave⟩

/-- any other step leaves a peer bound to a piece that it does not have -/
theorem unfaithful_step {o : Op} (ho : ¬ s.Faithful o) (hs : step sha1 s o = .ok t) : ¬ t.AffinityHeld := by
  cases o with
  | updatePieceFrequencies bitfield p =>
    cases hs
    simp only [Faithful, not_forall] at ho
    obtain ⟨x, hx, hno⟩ := ho
    intro hheld
    obtain ⟨bf, hbf, hhave⟩ := hheld p x hx
    rw [lookup_updatePieceFrequencies, if_pos rfl, Option.some.injEq] at hbf
    subst hbf
    rw [convert, List.getElem?_map] at hhave
    cases hv : bitfield[x]? with
    | none =>
      rw [hv] at hhave
      cases hhave
    | some v =>
      have hv1 : v ≠ 1 := fun h1 => hno (h1 ▸ hv)
      rw [hv, Option.map_some, if_neg hv1] at hhave
      cases hhave
  | _ => exact absurd trivial ho

/-- **Peers are asked for what they have.** In a run whose new bitfields all mark the affinity piece of their peer,
every request is for a piece that its peer, which is registered, has by the bitfield recorded last. -/
theorem asked_for_held (sha1 : Bytes → Bytes) (data : TorrentMetadata) (blockLength bufferSize : UInt32)
    (ops : List Op) (hops : ∀ o ∈ ops, o.Indexed data.pieceHashes.length) (s₀ s : PieceManager)
    (hnew : new data blockLength bufferSize = .ok s₀) (hfaithful : Guarded (step sha1) Faithful s₀ ops)
    (hs : runM (step sha1) s₀ ops = .ok s) (p : ℕ) (order : List ℕ) (request : BlockRequest) (t : PieceManager)
    (hr : s.selectNextBlock p order = .ok (some request, t)) : s.Holds p request.pieceIndex := by
  obtain ⟨h0, hsize, -, -, hnone⟩ := new_linked hnew
  have hstep : ∀ u o v, (u.Linked ∧ u.pieces.length = data.pieceHashes.length ∧ u.AffinityHeld) →
      (u.Faithful o ∧ Op.Indexed data.pieceHashes.length o) → step sha1 u o = .ok v →
      v.Linked ∧ v.pieces.length = data.pieceHashes.length ∧ v.AffinityHeld := by
    intro u o v hu ho hv
    obtain ⟨hlinked, hlen, -⟩ := step_linked hu.1 hu.2.1 ho.2 hv
    exact ⟨hlinked, hlen, step_affinityHeld hu.1 hu.2.2 ho.1 hv⟩
  have hheld : s₀.AffinityHeld := fun q x hx => by simp [hnone] at hx
  obtain ⟨hlinked, -, hall⟩ := runM_guarded hstep ⟨h0, hsize, hheld⟩ (hfaithful.and_forall hops) hs
  exact (holds_iff hlinked hr).2 fun x hx => hall p x hx

/-- two pieces of two blocks, and a buffer for both -/
def twoByTwo : TorrentMetadata := .ofHashes [[], []] 2 4

/-- a peer that announces a piece and then both -/
theorem asked_for_held_twoByTwo : ∃ s₀ s t, new twoByTwo 1 2 = .ok s₀ ∧
    runM (step id) s₀ [.updatePieceFrequencies [1, 0] 0, .selectNextBlock 0 [], .updatePieceFrequencies [1, 1] 0] =
      .ok s ∧ s.selectNextBlock 0 [] = .ok (some ⟨0, 1, 1⟩, t) ∧ s.Holds 0 0 := by
  refine ⟨_, _, _, rfl, rfl, rfl, asked_for_held id twoByTwo 1 2
    [.updatePieceFrequencies [1, 0] 0, .selectNextBlock 0 [], .updatePieceFrequencies [1, 1] 0] ?_ _ _ rfl ?_ rfl 0 []
    ⟨0, 1, 1⟩ _ rfl⟩
  · simp [Op.Indexed, twoByTwo, TorrentMetadata.ofHashes]
  · refine ⟨?_, fun s₁ h₁ => ⟨trivial, fun s₂ h₂ => ⟨?_, fun _ _ => trivial⟩⟩⟩
    · intro x hx
      cases hx
    · cases h₁
      cases h₂
      intro x hx
      cases hx
      rfl

/-- a peer that announces piece 0, is asked for a block of it, and then announces piece 1 instead: the next request is
again for piece 0 -/
theorem withdrawn_piece : ∃ s t, run id twoByTwo 1 2
      [.updatePieceFrequencies [1, 0] 0, .selectNextBlock 0 [], .updatePieceFrequencies [0, 1] 0] = .ok s ∧
    s.selectNextBlock 0 [] = .ok (some ⟨0, 1, 1⟩, t) ∧ ¬ s.Holds 0 0 := by
  refine ⟨_, _, rfl, rfl, ?_⟩
  intro hholds
  obtain ⟨bf, hbf, hhave⟩ := hholds
  cases hbf
  cases hhave

end PieceManager

end SimpleTorrent
