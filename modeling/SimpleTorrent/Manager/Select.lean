/-
`select_next_block`, read on the piece store.

`choosePiece` is its first part, the three stages that choose a piece, and `requestFrom` its second.

- `choosePiece_cases`: the choice is one of the five of `Store.Choice`. `choosePiece_total`: it is made without a fault
  as long as the bitfield fits the torrent and slot numbers fit into an `int`.
- `requestFrom_spec`: the second part never fails, and asks for the first missing block.
- `selectNextBlock_cases`: both parts together.
-/
import SimpleTorrent.Manager.Abstraction

namespace SimpleTorrent

open Checked Buffer

namespace PieceManager

variable {c : Config} {sha1 : Bytes → Bytes} {s t : PieceManager} {x p : ℕ}

/-! ## select_next_block -/

/-- the three stages of `selectNextBlock` that choose a piece -/
def choosePiece (s : PieceManager) (peerId : ℕ) (order : List ℕ) : Except Fault (Option ℕ × PieceManager) := do
  let chosenPiece := s.peerPieceAffinityMap.lookup peerId
  let (chosenPiece, s) ← if chosenPiece.isNone && !s.buffer.isFull then s.handleBufferNotFullCase peerId
    else pure (chosenPiece, s)
  if chosenPiece.isNone then s.handleBufferFullOrNoPieceToAdd peerId order else pure (chosenPiece, s)

theorem selectNextBlock_unregistered (h : s.peersBitfieldMap.lookup p = none) (order : List ℕ) :
    s.selectNextBlock p order = .ok (none, s) := by
  simp [selectNextBlock, h]

theorem selectNextBlock_eq {bf : List PeerPieceState} (h : s.peersBitfieldMap.lookup p = some bf) (order : List ℕ) :
    s.selectNextBlock p order = (do
      let (chosenPiece, s) ← s.choosePiece p order
      match chosenPiece with
      | none => return (none, s)
      | some x => s.requestFrom x) := by
  simp only [selectNextBlock, choosePiece, h, Option.isNone_some, Bool.false_eq_true, if_false, pure_eq_ok, ok_bind]
  split_ifs with h1 h2
  · cases s.handleBufferNotFullCase p with
    | error e => rfl
    | ok r => simp only [ok_bind]; split_ifs <;> rfl
  · rfl
  · rfl

section Choose

variable {bf : List PeerPieceState} {order : List ℕ} {r : Option ℕ}

/-- the first search either finds nothing, or a piece that the peer has and nobody has started -/
theorem findUnstarted_cases (h : s.Shape c) (hbf : s.peersBitfieldMap.lookup p = some bf)
    (hr : findUnstarted s.pieces bf 0 = .ok r) :
    (r = none ∧ ∀ x ∈ haveSet bf, s.toStore.state x ≠ some .notStarted) ∨
      ∃ x m, r = some x ∧ x ∈ haveSet bf ∧ s.pieces[x]? = some m ∧ m.state = .notStarted := by
  cases r with
  | none =>
    refine Or.inl ⟨rfl, ?_⟩
    intro x hx hst
    obtain ⟨m, hm, hms⟩ := state_toStore hst
    exact findUnstarted_none hr hx (by simpa using hm) hms
  | some x =>
    obtain ⟨j, m, hj, hm, hst, hx⟩ := findUnstarted_some hr
    rw [Nat.zero_add] at hm hx
    have hjn : j < c.numPieces := h.size ▸ (List.getElem?_eq_some_iff.1 hm).1
    have hjb : j < bf.length := (List.getElem?_eq_some_iff.1 hj).1
    have hj32 : j < 2 ^ 32 := by
      rcases h.narrow with hn | hn
      · omega
      · have := hn p bf hbf; omega
    rw [Nat.mod_eq_of_lt hj32] at hx
    subst hx
    exact Or.inr ⟨x, m, rfl, hj, hm, hst⟩

/-- **Opening a piece** that has not been started: done, unless the buffer's slot numbers overflow -/
theorem openPiece_spec (h : s.Inv c sha1) {m : PieceMetadata} (hm : s.pieces[x]? = some m)
    (hst : m.state = .notStarted) (hfull : s.buffer.isFull = false) :
    (∃ b data, s.buffer.addPieceToBuffer x m.numBlocks m.currentPieceLength = .ok (true, b) ∧
      data.length = c.layout.len x ∧
      ((((s.putBuffer b).log (.addPiece x)).putState x m .buffered).bindPeer p x).Shape c ∧
      ((((s.putBuffer b).log (.addPiece x)).putState x m .buffered).bindPeer p x).toStore =
        s.toStore.openPiece c.layout p x data) ∨
    (s.buffer.addPieceToBuffer x m.numBlocks m.currentPieceLength = .error .badIndex ∧
      2 ^ 31 ≤ s.buffer.pieceBufferMap.keys.length) := by
  have hstore : s.toStore.state x = some .notStarted := hst ▸ toStore_state hm
  have hnone := h.slotOf_eq_none (x := x) (by simp [hstore]) (by simp [hstore])
  obtain ⟨-, hlen, hblocks⟩ := h.shape.piece x m hm
  rcases addPieceToBuffer_spec h.shape.wf hnone hfull m.numBlocks m.currentPieceLength with
    ⟨b, data, hadd, hwf, hdata, hslot, -, hblen, hbl⟩ | hbad
  · refine Or.inl ⟨b, data, hadd, hdata.trans hlen, ?_, ?_⟩
    · exact (((h.shape.putBuffer hwf hblen hbl).log (.addPiece x)).putState hm (by simp [hst]) _ (by simp)).bindPeer
    · rw [toStore_bindPeer, toStore_putState (s := (s.putBuffer b).log (.addPiece x)) hm, toStore_log,
        toStore_buffer hslot, Store.openPiece, ← hblocks]
      rfl
  · exact Or.inr hbad

theorem handleBufferNotFullCase_cases (h : s.Inv c sha1) (hbf : s.peersBitfieldMap.lookup p = some bf)
    (hfull : s.buffer.isFull = false) (hr : s.handleBufferNotFullCase p = .ok (r, t)) :
    (r = none ∧ t = s ∧ ∀ x ∈ haveSet bf, s.toStore.state x ≠ some .notStarted) ∨
      ∃ x data, r = some x ∧ x ∈ haveSet bf ∧ s.toStore.state x = some .notStarted ∧ data.length = c.layout.len x ∧
        Keeps c s t ∧ t.toStore = s.toStore.openPiece c.layout p x data := by
  rw [handleBufferNotFullCase, mapAt_eq_ok.2 hbf, ok_bind, bind_eq_ok] at hr
  obtain ⟨chosen, hfind, hr⟩ := hr
  rcases findUnstarted_cases h.shape hbf hfind with ⟨rfl, hnone⟩ | ⟨x, m, rfl, hx, hm, hst⟩
  · cases hr
    exact Or.inl ⟨rfl, rfl, hnone⟩
  · right
    simp only [vecAt_eq_ok.2 hm, ok_bind] at hr
    rcases openPiece_spec (p := p) h hm hst hfull with ⟨b, data, hadd, hdata, hshape, hstore⟩ | ⟨hbad, -⟩
    · rw [hadd, ok_bind] at hr
      have hset := setState_eq (s := (s.putBuffer b).log (.addPiece x)) hm .buffered
      rw [show (({ s with buffer := b } : PieceManager).log (.addPiece x)).setState x .buffered = _ from hset,
        ok_bind] at hr
      cases hr
      exact ⟨x, data, rfl, hx, hst ▸ toStore_state hm, hdata, ⟨hshape, rfl⟩, hstore⟩
    · rw [hbad] at hr
      cases hr

theorem handleBufferNotFullCase_total (h : s.Inv c sha1) (hbf : s.peersBitfieldMap.lookup p = some bf)
    (hfull : s.buffer.isFull = false) (hfit : bf.length ≤ s.pieces.length)
    (hsmall : s.buffer.pieceBufferMap.keys.length < 2 ^ 31) : ∃ r, s.handleBufferNotFullCase p = .ok r := by
  obtain ⟨chosen, hfind⟩ := findUnstarted_total (show 0 + bf.length ≤ s.pieces.length by omega)
  rw [handleBufferNotFullCase, mapAt_eq_ok.2 hbf, ok_bind, hfind, ok_bind]
  rcases findUnstarted_cases h.shape hbf hfind with ⟨rfl, -⟩ | ⟨x, m, rfl, -, hm, hst⟩
  · exact ⟨_, rfl⟩
  · simp only [vecAt_eq_ok.2 hm, ok_bind]
    rcases openPiece_spec (p := p) h hm hst hfull with ⟨b, data, hadd, -⟩ | ⟨-, hbig⟩
    · have hset := setState_eq (s := (s.putBuffer b).log (.addPiece x)) hm .buffered
      rw [hadd, ok_bind, show (({ s with buffer := b } : PieceManager).log (.addPiece x)).setState x .buffered = _
        from hset]
      exact ⟨_, rfl⟩
    · omega

/-- a peer takes a piece of the buffer: as it is, or reopened -/
theorem adoptPiece_spec (h : s.Inv c sha1) {q : BufferPiece} (hq : s.buffer.slotOf x = some q) (p : ℕ) :
    ∃ t, s.adoptPiece p x = .ok t ∧ Keeps c s t ∧
      (s.toStore.state x = some .buffered ∧ t.toStore = s.toStore.bind p x ∨
        s.toStore.state x = some .allRequested ∧ t.toStore = s.toStore.reopen p x (toSlot q)) := by
  obtain ⟨m, hm, hst, -⟩ := h.slotOf_eq_some hq
  rw [adoptPiece]
  simp only [vecAt_eq_ok.2 hm, ok_bind]
  rcases hst with hst | hst
  · rw [if_neg (by rw [hst]; decide)]
    exact ⟨s.bindPeer p x, rfl, ⟨h.shape.bindPeer, rfl⟩, Or.inl ⟨hst ▸ toStore_state hm, toStore_bindPeer⟩⟩
  · rw [if_pos hst, clearAllRequested_spec h.shape.wf hq, ok_bind]
    set u := ((s.bindPeer p x).putBuffer ((s.bindPeer p x).buffer.putSlot x
      { q with blocksState := clearRequested q.blocksState })).log (.clearAllRequested x) with hu
    have hshape : u.Shape c := ((h.shape.bindPeer (p := p)).putSlot hq q.data _).log _
    refine ⟨u.putState x m .buffered, setState_eq (s := u) hm _, ⟨hshape.putState hm (by simp [hst]) _ (by simp), rfl⟩,
      Or.inr ⟨hst ▸ toStore_state hm, ?_⟩⟩
    rw [toStore_putState (s := u) hm, hu, toStore_log, toStore_putSlot (s := s.bindPeer p x) h.shape.wf hq,
      toStore_bindPeer]
    rfl

theorem handleBufferFullOrNoPieceToAdd_cases (h : s.Inv c sha1) (hbf : s.peersBitfieldMap.lookup p = some bf)
    (hr : s.handleBufferFullOrNoPieceToAdd p order = .ok (r, t)) :
    (r = none ∧ Keeps c s t ∧ t.toStore = s.toStore ∧ ∀ x ∈ haveSet bf, s.toStore.slot x = none) ∨
      ∃ x q, r = some x ∧ x ∈ haveSet bf ∧ s.buffer.slotOf x = some q ∧ Keeps c s t ∧
        (s.toStore.state x = some .buffered ∧ t.toStore = s.toStore.bind p x ∨
          s.toStore.state x = some .allRequested ∧ t.toStore = s.toStore.reopen p x (toSlot q)) := by
  have hmem : ∀ x, x ∈ s.buffer.getPiecesInBuffer order ↔ (s.buffer.slotOf x).isSome := fun x =>
    mem_getPiecesInBuffer h.shape.wf
  have hslot : ∀ x, x ∉ s.buffer.getPiecesInBuffer order → s.toStore.slot x = none := fun x hx => by
    rw [hmem, Option.not_isSome_iff_eq_none] at hx
    simp [toStore, hx]
  rw [handleBufferFullOrNoPieceToAdd, mapAt_eq_ok.2 hbf, ok_bind] at hr
  simp only at hr
  split_ifs at hr with hpos
  · obtain ⟨rng, start, hstart, hnext⟩ := FastRandom.next_ok (Nat.pos_iff_ne_zero.1 hpos) s.rng
    rw [hnext, ok_bind, bind_eq_ok] at hr
    obtain ⟨chosen, hpick, hr⟩ := hr
    dsimp only at hpick
    cases chosen with
    | none =>
      cases hr
      refine Or.inl ⟨rfl, ⟨h.shape.rng rng, rfl⟩, rfl, ?_⟩
      intro x hx
      by_contra hsome
      have hx' : x ∈ s.buffer.getPiecesInBuffer order := by
        by_contra hno
        exact hsome (hslot x hno)
      have hlen : (s.buffer.getPiecesInBuffer order).length < 2 ^ 32 := by
        rw [length_getPiecesInBuffer]
        exact lt_of_le_of_lt h.shape.wf.size_le h.shape.wf.width
      exact pickPiece_none hlen hstart hpick hx' hx
    | some x =>
      obtain ⟨hx, hhave⟩ := pickPiece_some hpick
      obtain ⟨q, hq⟩ := Option.isSome_iff_exists.1 ((hmem x).1 hx)
      have hinv : ({ s with rng := rng } : PieceManager).Inv c sha1 := ⟨h.shape.rng rng, h.good⟩
      obtain ⟨u, hu, hshape, hstore⟩ := adoptPiece_spec hinv hq p
      simp only [hu, ok_bind] at hr
      cases hr
      exact Or.inr ⟨x, q, rfl, hhave, hq, ⟨hshape.shape, hshape.bitfields⟩, hstore⟩
  · cases hr
    refine Or.inl ⟨rfl, ⟨h.shape, rfl⟩, rfl, fun x _ => hslot x ?_⟩
    have hnil := List.length_eq_zero_iff.1 (Nat.not_lt.1 hpos |> Nat.le_zero.1)
    rw [hnil]
    exact List.not_mem_nil

theorem handleBufferFullOrNoPieceToAdd_total (h : s.Inv c sha1) (hbf : s.peersBitfieldMap.lookup p = some bf)
    (hfit : ∀ x, (s.buffer.slotOf x).isSome → x < bf.length)
    (hsmall : s.buffer.pieceBufferMap.keys.length < 2 ^ 31) (order : List ℕ) :
    ∃ r, s.handleBufferFullOrNoPieceToAdd p order = .ok r := by
  rw [handleBufferFullOrNoPieceToAdd, mapAt_eq_ok.2 hbf, ok_bind]
  simp only
  split_ifs with hpos
  · obtain ⟨rng, start, hstart, hnext⟩ := FastRandom.next_ok (Nat.pos_iff_ne_zero.1 hpos) s.rng
    have hlen : (s.buffer.getPiecesInBuffer order).length < 2 ^ 31 := by
      rw [length_getPiecesInBuffer]; exact hsmall
    obtain ⟨chosen, hpick⟩ := pickPiece_total hlen hstart fun x hx =>
      hfit x ((mem_getPiecesInBuffer h.shape.wf).1 hx)
    rw [hnext, ok_bind]
    simp only [hpick, ok_bind]
    cases chosen with
    | none => exact ⟨_, rfl⟩
    | some x =>
      obtain ⟨q, hq⟩ := Option.isSome_iff_exists.1 ((mem_getPiecesInBuffer h.shape.wf).1 (pickPiece_some hpick).1)
      have hinv : ({ s with rng := rng } : PieceManager).Inv c sha1 := ⟨h.shape.rng rng, h.good⟩
      obtain ⟨u, hu, -⟩ := adoptPiece_spec hinv hq p
      simp only [hu, ok_bind]
      exact ⟨_, rfl⟩
  · exact ⟨_, rfl⟩

/-- **The choice of a piece**, read on the store -/
theorem choosePiece_cases (h : s.Inv c sha1) (hbf : s.peersBitfieldMap.lookup p = some bf)
    (hr : s.choosePiece p order = .ok (r, t)) :
    Keeps c s t ∧ Store.Choice c.layout (s.buffer.isFull = true) p (haveSet bf) s.toStore r t.toStore := by
  rw [choosePiece] at hr
  simp only at hr
  cases ha : s.peerPieceAffinityMap.lookup p with
  | some x =>
    rw [ha] at hr
    cases hr
    exact ⟨⟨h.shape, rfl⟩, .affinity x ha⟩
  | none =>
    have ha' : s.toStore.affinity p = none := ha
    simp only [ha, Option.isNone_none, Bool.true_and, Bool.not_eq_true'] at hr
    -- the last stage, reached with the manager unchanged
    have hlast : ∀ {t}, s.handleBufferFullOrNoPieceToAdd p order = .ok (r, t) →
        (s.buffer.isFull = true ∨ ∀ x ∈ haveSet bf, s.toStore.state x ≠ some .notStarted) →
        Keeps c s t ∧ Store.Choice c.layout (s.buffer.isFull = true) p (haveSet bf) s.toStore r t.toStore := by
      intro t ht hstart
      rcases handleBufferFullOrNoPieceToAdd_cases h hbf ht with
        ⟨rfl, hshape, hstore, hopen⟩ | ⟨x, q, rfl, hx, hq, hshape, ⟨hst, hstore⟩ | ⟨hst, hstore⟩⟩
      · exact ⟨hshape, by rw [hstore]; exact .nothing ha' hopen hstart⟩
      · exact ⟨hshape, hstore ▸ .bound x ha' hst hx hstart⟩
      · exact ⟨hshape, hstore ▸ .reopened x (toSlot q) ha' hst (toStore_slot hq) hx hstart⟩
    by_cases hfull : s.buffer.isFull = true
    · rw [if_neg (by simp [hfull])] at hr
      exact hlast hr (Or.inl hfull)
    · rw [if_pos (by simpa using hfull), bind_eq_ok] at hr
      obtain ⟨⟨r', u⟩, hu, hr⟩ := hr
      rcases handleBufferNotFullCase_cases h hbf (by simpa using hfull) hu with
        ⟨rfl, rfl, hnone⟩ | ⟨x, data, rfl, hx, hst, hdata, hshape, hstore⟩
      · exact hlast hr (Or.inr hnone)
      · cases hr
        exact ⟨hshape, hstore ▸ .opened x data ha' hst hx hfull hdata⟩

theorem choosePiece_total (h : s.Inv c sha1) (hbf : s.peersBitfieldMap.lookup p = some bf)
    (hfit : bf.length ≤ s.pieces.length) (hopen : ∀ x, (s.buffer.slotOf x).isSome → x < bf.length)
    (hsmall : s.buffer.pieceBufferMap.keys.length < 2 ^ 31) (order : List ℕ) : ∃ r, s.choosePiece p order = .ok r := by
  obtain ⟨r, hr⟩ := handleBufferFullOrNoPieceToAdd_total h hbf hopen hsmall order
  rw [choosePiece]
  simp only
  split_ifs with h1
  · rw [Bool.and_eq_true, Bool.not_eq_true'] at h1
    obtain ⟨⟨r', u⟩, hu⟩ := handleBufferNotFullCase_total h hbf h1.2 hfit hsmall
    rw [hu, ok_bind]
    rcases handleBufferNotFullCase_cases h hbf h1.2 hu with ⟨rfl, rfl, -⟩ | ⟨x, data, rfl, -⟩
    · exact ⟨r, hr⟩
    · exact ⟨_, rfl⟩
  · rw [pure_eq_ok, ok_bind]
    simp only
    split_ifs
    · exact ⟨r, hr⟩
    · exact ⟨_, rfl⟩

/-- a choice is a sequence of store steps, and the piece chosen is one being downloaded -/
theorem choice_steps (h : s.Inv c sha1) (hbf : s.peersBitfieldMap.lookup p = some bf) {full : Prop}
    (hc : Store.Choice c.layout full p (haveSet bf) s.toStore r t.toStore) (ht : t.Shape c) :
    Moves c sha1 s t ∧ ∀ x, r = some x → t.toStore.state x = some .buffered := by
  have hp := toStore_peers hbf
  generalize htt : t.toStore = u at hc
  cases hc with
  | affinity x ha =>
    refine ⟨⟨ht, htt ▸ .refl⟩, ?_⟩
    rintro _ ⟨⟩
    exact (h.good.inv.affinity p x ha).1
  | opened x data ha hx hS hfull hd =>
    refine ⟨.single ht (htt ▸ .openPiece p x _ data hx hp hS hd), ?_⟩
    rintro _ ⟨⟩
    simp [Store.openPiece]
  | bound x ha hx hS hstart =>
    refine ⟨.single ht (htt ▸ .bind p x _ hx hp hS), ?_⟩
    rintro _ ⟨⟩
    exact hx
  | reopened x sl ha hx hsl hS hstart =>
    refine ⟨.single ht (htt ▸ .reopen p x _ sl hx hsl hp hS), ?_⟩
    rintro _ ⟨⟩
    simp [Store.reopen]
  | nothing ha hopen hstart => exact ⟨⟨ht, htt ▸ .refl⟩, by simp⟩

end Choose

/-! ## The request -/

/-- the request a manager makes for a block depends only on the torrent -/
theorem Shape.calculateBlockLength (h : s.Shape c) {m : PieceMetadata} (hm : s.pieces[x]? = some m) (k : ℕ) :
    s.calculateBlockLength x k = c.requestLength x k := by
  have hxlt : x < s.pieces.length := (List.getElem?_eq_some_iff.1 hm).1
  rw [PieceManager.calculateBlockLength, Config.requestLength, ← h.size, ← h.blockLength]
  by_cases hx : x + 1 = s.pieces.length
  · have hlast : s.pieces.getLast? = some m := by
      rw [List.getLast?_eq_getElem?, show s.pieces.length - 1 = x by omega, hm]
    have hlen := (h.piece x m hm).2.1
    simp only [hlast, hx, if_true, true_and, hlen]
    by_cases hk : k < c.layout.len x / s.blockLength
    · rw [if_pos hk, if_neg (Nat.not_le.2 hk)]
    · rw [if_neg hk, if_pos (Nat.not_lt.1 hk)]
  · cases hlast : s.pieces.getLast? with
    | none => simp [hx]
    | some last => simp [hx]

/-- the last lines of `select_next_block`: the answer for the block that was chosen -/
theorem answer_spec (h : s.Shape c) {m : PieceMetadata} (hm : s.pieces[x]? = some m) (k : Option ℕ) :
    ∃ t, (match k with
        | none => pure (none, s)
        | some k => pure (some ⟨x, k * s.blockLength % 2 ^ 32, s.calculateBlockLength x k⟩, s.log (.request x k)) :
          Except Fault (Option BlockRequest × PieceManager)) = .ok (k.map (c.request x), t) ∧ Keeps c s t ∧
      t.toStore = match k with
        | some k => s.toStore.log (.request x k)
        | none => s.toStore := by
  cases k with
  | none => exact ⟨s, rfl, ⟨h, rfl⟩, rfl⟩
  | some k =>
    refine ⟨s.log (.request x k), ?_, ⟨h.log _, rfl⟩, rfl⟩
    dsimp only
    rw [h.calculateBlockLength hm, h.blockLength]
    rfl

/-- **The request**: the first missing block of the piece, if it has one -/
theorem requestFrom_spec (h : s.Inv c sha1) (hx : s.toStore.state x = some .buffered) {q : BufferPiece}
    (hq : s.buffer.slotOf x = some q) :
    ∃ t, s.requestFrom x = .ok ((firstMissing q.blocksState).map (c.request x), t) ∧ Keeps c s t ∧
      t.toStore = s.toStore.retrieve x (toSlot q) := by
  obtain ⟨m, hm, hms⟩ := state_toStore hx
  set u := s.putBuffer (s.buffer.putSlot x { q with blocksState := markRequested q.blocksState }) with hu
  have hushape : u.Shape c := h.shape.putSlot hq q.data _
  have hustore : u.toStore = s.toStore.setSlot x (some ⟨markRequested q.blocksState, q.data⟩) :=
    toStore_putSlot h.shape.wf hq q.data _
  have hum : u.pieces[x]? = some m := hm
  rw [requestFrom, getBlockIndexToRetrieve_spec h.shape.wf hq, ok_bind]
  simp only [Store.retrieve, toSlot, ← hustore]
  by_cases hall : allRequestedOrCompleted (markRequested q.blocksState) = true
  · -- no missing block is left: the piece leaves the reach of the affinities
    have hvm : ((u.putState x m .allRequested).removeAffinity x).pieces[x]? = some { m with state := .allRequested } :=
      List.getElem?_set_self (List.getElem?_eq_some_iff.1 hum).1
    have hvshape := (hushape.putState hum (by simp [hms]) .allRequested (by simp)).removeAffinity (x := x)
    have hset := setState_eq (s := u) hum .allRequested
    rw [hu, putBuffer] at hset
    obtain ⟨t, ht, htshape, htstore⟩ := answer_spec hvshape hvm (firstMissing q.blocksState)
    rw [toStore_removeAffinity, toStore_putState hum] at htstore
    refine ⟨t, ?_, ⟨htshape.shape, htshape.bitfields⟩, ?_⟩
    · rw [if_pos hall, hset]
      exact ht
    · rw [if_pos hall]
      exact htstore
  · obtain ⟨t, ht, htshape, htstore⟩ := answer_spec hushape hum (firstMissing q.blocksState)
    refine ⟨t, ?_, ⟨htshape.shape, htshape.bitfields⟩, ?_⟩
    · rw [if_neg hall]
      exact ht
    · rw [if_neg hall]
      exact htstore

/-- **What `select_next_block` does**: nothing for an unregistered peer; otherwise it chooses a piece, and when it has
one it takes the first missing block of that piece. -/
theorem selectNextBlock_cases (h : s.Inv c sha1) {order : List ℕ} {r : Option BlockRequest}
    (hr : s.selectNextBlock p order = .ok (r, t)) :
    (s.peersBitfieldMap.lookup p = none ∧ r = none ∧ t = s) ∨
      ∃ bf chosen u, s.peersBitfieldMap.lookup p = some bf ∧
        Store.Choice c.layout (s.buffer.isFull = true) p (haveSet bf) s.toStore chosen u.toStore ∧
        Moves c sha1 s u ∧ Keeps c s t ∧
        (chosen = none ∧ r = none ∧ t = u ∨
          ∃ x sl, chosen = some x ∧ u.toStore.state x = some .buffered ∧ u.toStore.slot x = some sl ∧
            r = (firstMissing sl.blocks).map (c.request x) ∧ t.toStore = u.toStore.retrieve x sl) := by
  cases hbf : s.peersBitfieldMap.lookup p with
  | none =>
    rw [selectNextBlock_unregistered hbf] at hr
    cases hr
    exact Or.inl ⟨rfl, rfl, rfl⟩
  | some bf =>
    right
    rw [selectNextBlock_eq hbf, bind_eq_ok] at hr
    obtain ⟨⟨chosen, u⟩, hu, hr⟩ := hr
    obtain ⟨hushape, hchoice⟩ := choosePiece_cases h hbf hu
    obtain ⟨hmoves, hstate⟩ := choice_steps h hbf hchoice hushape.shape
    cases chosen with
    | none =>
      cases hr
      exact ⟨bf, none, t, rfl, hchoice, hmoves, hushape, Or.inl ⟨rfl, rfl, rfl⟩⟩
    | some x =>
      have hx := hstate x rfl
      have huinv := hmoves.inv h
      obtain ⟨sl, hsl⟩ := huinv.good.inv.slot_of_state (Or.inl hx)
      obtain ⟨q, hq, rfl⟩ := slot_toStore hsl
      obtain ⟨t', ht', hshape, hstore⟩ := requestFrom_spec huinv hx hq
      simp only [ht'] at hr
      cases hr
      exact ⟨bf, some x, u, rfl, hchoice, hmoves,
        ⟨hshape.shape, hshape.bitfields.trans hushape.bitfields⟩, Or.inr ⟨x, toSlot q, rfl, hx, hsl, rfl, hstore⟩⟩

theorem selectNextBlock_moves (h : s.Inv c sha1) {order : List ℕ} {r : Option BlockRequest}
    (hr : s.selectNextBlock p order = .ok (r, t)) : Moves c sha1 s t := by
  rcases selectNextBlock_cases h hr with
    ⟨-, -, rfl⟩ | ⟨bf, chosen, u, -, -, hmoves, hshape, ⟨-, -, ht⟩ | ⟨x, sl, -, hx, hsl, -, hstore⟩⟩
  · exact .refl h.shape
  · exact ht ▸ hmoves
  · exact hmoves.trans (.single hshape.shape (hstore ▸ .retrieve x sl hx hsl))

theorem selectNextBlock_bitfields (h : s.Inv c sha1) {order : List ℕ} {r : Option BlockRequest}
    (hr : s.selectNextBlock p order = .ok (r, t)) : t.peersBitfieldMap = s.peersBitfieldMap := by
  rcases selectNextBlock_cases h hr with ⟨-, -, rfl⟩ | ⟨bf, chosen, u, -, -, -, hkeeps, -⟩
  · rfl
  · exact hkeeps.bitfields

end PieceManager

end SimpleTorrent
