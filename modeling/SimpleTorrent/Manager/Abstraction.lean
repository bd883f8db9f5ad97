/-
From the manager to the piece store.

`toStore` forgets slots, maps and vectors: what is left of a manager is a store. `Shape` collects what the forgotten
parts have to satisfy: the sizes fixed at construction, the representation invariant of the buffer, the completion
count. The lemmas here say what each small update of the manager does to both.

- `Config`: a torrent with a piece length and a block length that are not zero, and what it fixes for each piece.
- `Inv`: the shape, and a store in which everything holds that holds of reachable stores.
- `Moves`: one manager is reached from another by store steps.
-/
import SimpleTorrent.Manager.Search
import SimpleTorrent.Store.Trace

namespace SimpleTorrent

open Checked Buffer

/-! ## Configurations -/

/-- what a manager is constructed from -/
structure Config where
  data : TorrentMetadata
  blockLength : UInt32
  bufferSize : UInt32
  pieceLength_pos : 0 < data.pieceLength
  pieceLength_lt : data.pieceLength < 2 ^ 32
  blockLength_pos : 0 < blockLength.toNat

theorem one_lt_two_pow_32 : 1 < 2 ^ 32 := by decide

/-- a block length of one byte -/
theorem toNat_one_pos : 0 < (1 : UInt32).toNat := by decide

namespace Config

variable (c : Config)

def numPieces : ℕ := c.data.pieceHashes.length

def run (sha1 : Bytes → Bytes) (ops : List PieceManager.Op) : Except Fault PieceManager :=
  PieceManager.run sha1 c.data c.blockLength c.bufferSize ops

theorem sizeOfPiece_bounds (i : ℕ) : 0 < sizeOfPiece c.data i ∧ sizeOfPiece c.data i ≤ c.data.pieceLength := by
  have h0 := c.pieceLength_pos
  have h1 := c.pieceLength_lt
  have hlast := Nat.mod_lt c.data.totalLength h0
  simp only [sizeOfPiece]
  split_ifs with h
  · exact ⟨Nat.pos_of_ne_zero h.2, hlast.le⟩
  · rw [Nat.mod_eq_of_lt h1]; exact ⟨h0, le_rfl⟩

theorem currentPieceLength_eq (i : ℕ) : currentPieceLength c.data i = sizeOfPiece c.data i := by
  have := (c.sizeOfPiece_bounds i).2
  have := c.pieceLength_lt
  exact Nat.mod_eq_of_lt (by omega)

theorem numBlocks_eq (i : ℕ) : numBlocks c.data c.blockLength.toNat i =
    (currentPieceLength c.data i + c.blockLength.toNat - 1) / c.blockLength.toNat := by
  have hs := c.sizeOfPiece_bounds i
  have hp := c.pieceLength_lt
  have hb := c.blockLength.toNat_lt
  have hq : (sizeOfPiece c.data i + c.blockLength.toNat - 1) / c.blockLength.toNat ≤ sizeOfPiece c.data i := by
    rw [Nat.div_le_iff_le_mul_add_pred c.blockLength_pos]
    have := Nat.le_mul_of_pos_left (sizeOfPiece c.data i) c.blockLength_pos
    omega
  rw [numBlocks, currentPieceLength_eq, Nat.mod_eq_of_lt (by omega : _ < 2 ^ 64), Nat.mod_eq_of_lt (by omega)]

/-- what the torrent fixes for each piece -/
def layout : Layout ℕ where
  blockLength := c.blockLength.toNat
  len := currentPieceLength c.data
  blocks := numBlocks c.data c.blockLength.toNat
  offset i := i * c.data.pieceLength % 2 ^ 64
  hash i := c.data.pieceHashes[i]?.getD []
  blockLength_pos := c.blockLength_pos
  len_pos i := by rw [currentPieceLength_eq]; exact (c.sizeOfPiece_bounds i).1
  blocks_eq := c.numBlocks_eq

/-- the length a request for block `k` of piece `x` asks for -/
def requestLength (x k : ℕ) : ℕ :=
  if x + 1 = c.numPieces ∧ c.layout.len x / c.layout.blockLength ≤ k then c.layout.len x % c.layout.blockLength
  else c.layout.blockLength

/-- the request for block `k` of piece `x` -/
def request (x k : ℕ) : BlockRequest := ⟨x, k * c.layout.blockLength % 2 ^ 32, c.requestLength x k⟩

end Config

namespace PieceManager

/-! ## The abstraction -/

def haveSet (bitfield : List PeerPieceState) : Set ℕ := {x | bitfield[x]? = some .havePiece}

theorem mem_haveSet_replicate {n x : ℕ} (h : x < n) : x ∈ haveSet (List.replicate n .havePiece) := by
  simp [haveSet, h]

def toSlot (p : BufferPiece) : Slot := ⟨p.blocksState, p.data⟩

def toStore (s : PieceManager) : Store ℕ ℕ where
  state x := s.pieces[x]?.map (·.state)
  slot x := (s.buffer.slotOf x).map toSlot
  affinity p := s.peerPieceAffinityMap.lookup p
  peers p := (s.peersBitfieldMap.lookup p).map haveSet
  trace := s.trace

/-- what the parts of a manager that `toStore` forgets satisfy -/
structure Shape (c : Config) (s : PieceManager) : Prop where
  size : s.pieces.length = c.numPieces
  piece : ∀ x p, s.pieces[x]? = some p →
    p.pieceHash = c.layout.hash x ∧ p.currentPieceLength = c.layout.len x ∧ p.numBlocks = c.layout.blocks x
  pieceLength : s.pieceLength = c.data.pieceLength
  blockLength : s.blockLength = c.layout.blockLength
  wf : s.buffer.WF
  slots : s.buffer.buffer.length = c.bufferSize.toNat
  bufferBlock : s.buffer.blockLength = c.layout.blockLength
  count : s.numPiecesCompleted = s.pieces.countP (fun p => p.state == .completed) % 2 ^ 32
  /-- piece indices fit into the `uint32_t` that the first search returns -/
  narrow : c.numPieces < 2 ^ 32 ∨ ∀ p bf, s.peersBitfieldMap.lookup p = some bf → bf.length ≤ 2 ^ 32

/-- `t` has the right shape and the bitfields of `s` -/
structure Keeps (c : Config) (s t : PieceManager) : Prop where
  shape : t.Shape c
  bitfields : t.peersBitfieldMap = s.peersBitfieldMap

structure Inv (c : Config) (sha1 : Bytes → Bytes) (s : PieceManager) : Prop where
  shape : s.Shape c
  good : s.toStore.Good c.layout sha1

variable {c : Config} {sha1 : Bytes → Bytes} {s t : PieceManager} {x p : ℕ}

/-! ## Updates -/

def putBuffer (s : PieceManager) (b : Buffer) : PieceManager := { s with buffer := b }

def putState (s : PieceManager) (x : ℕ) (m : PieceMetadata) (st : PieceState) : PieceManager :=
  { s with pieces := s.pieces.set x { m with state := st } }

def bindPeer (s : PieceManager) (p x : ℕ) : PieceManager :=
  { s with peerPieceAffinityMap := s.peerPieceAffinityMap.insert p x }

@[simp] theorem toStore_trace : s.toStore.trace = s.trace := rfl

theorem toStore_log (e : Event ℕ) : (s.log e).toStore = s.toStore.log e := rfl

theorem toStore_state {q : PieceMetadata} (hq : s.pieces[x]? = some q) : s.toStore.state x = some q.state := by
  simp [toStore, hq]

theorem toStore_slot {q : BufferPiece} (hq : s.buffer.slotOf x = some q) : s.toStore.slot x = some (toSlot q) := by
  simp [toStore, hq]

theorem slot_toStore {sl : Slot} (h : s.toStore.slot x = some sl) : ∃ q, s.buffer.slotOf x = some q ∧ sl = toSlot q := by
  simp only [toStore, Option.map_eq_some_iff] at h
  obtain ⟨q, hq, rfl⟩ := h
  exact ⟨q, hq, rfl⟩

theorem state_toStore {st : PieceState} (h : s.toStore.state x = some st) :
    ∃ q, s.pieces[x]? = some q ∧ q.state = st := by
  simpa only [toStore, Option.map_eq_some_iff] using h

theorem toStore_peers {bf : List PeerPieceState} (h : s.peersBitfieldMap.lookup p = some bf) :
    s.toStore.peers p = some (haveSet bf) := by simp [toStore, h]

/-- a new buffer that differs in the slot of `x` -/
theorem toStore_buffer {b : Buffer} {q : Option BufferPiece}
    (h : b.slotOf = Function.update s.buffer.slotOf x q) :
    (s.putBuffer b).toStore = s.toStore.setSlot x (q.map toSlot) := by
  refine Store.ext' rfl ?_ rfl rfl rfl
  funext y
  simp only [toStore, putBuffer, h, Store.setSlot_slot]
  by_cases hy : y = x
  · subst hy; simp
  · simp [hy]

theorem toStore_putSlot (h : s.buffer.WF) {q : BufferPiece} (hq : s.buffer.slotOf x = some q) (data : Bytes)
    (blocks : List BlockState) :
    (s.putBuffer (s.buffer.putSlot x { q with data := data, blocksState := blocks })).toStore =
      s.toStore.setSlot x (some ⟨blocks, data⟩) := toStore_buffer (h.slotOf_putSlot hq)

theorem toStore_bindPeer : (s.bindPeer p x).toStore = s.toStore.bind p x := by
  refine Store.ext' rfl rfl ?_ rfl rfl
  funext q
  by_cases hq : q = p
  · subst hq; simp [toStore, bindPeer, AList.lookup_insert]
  · simp [toStore, bindPeer, AList.lookup_insert_ne hq, hq]

theorem toStore_removeAffinity : (s.removeAffinity x).toStore = s.toStore.dropAffinity x := by
  refine Store.ext' rfl rfl ?_ rfl rfl
  funext q
  exact lookup_eraseValue _ _ _

theorem setState_eq {m : PieceMetadata} (hm : s.pieces[x]? = some m) (st : PieceState) :
    s.setState x st = .ok (s.putState x m st) := by
  rw [setState, vecAt_eq_ok.2 hm]
  rfl

theorem toStore_putState {m : PieceMetadata} (hm : s.pieces[x]? = some m) (st : PieceState) :
    (s.putState x m st).toStore = s.toStore.setState x st := by
  have hlt : x < s.pieces.length := (List.getElem?_eq_some_iff.1 hm).1
  refine Store.ext' ?_ rfl rfl rfl rfl
  funext y
  by_cases hy : y = x
  · subst hy; simp [toStore, putState, hlt]
  · have hxy : x ≠ y := fun e => hy e.symm
    simp [toStore, putState, hy, List.getElem?_set_ne hxy]

namespace Shape

theorem log (h : s.Shape c) (e : Event ℕ) : (s.log e).Shape c := { h with }

theorem removeAffinity (h : s.Shape c) : (s.removeAffinity x).Shape c := { h with }

theorem bindPeer (h : s.Shape c) : (s.bindPeer p x).Shape c := { h with }

theorem rng (h : s.Shape c) (r : ℕ) : ({ s with rng := r } : PieceManager).Shape c := { h with }

theorem putBuffer (h : s.Shape c) {b : Buffer} (hwf : b.WF) (hlen : b.buffer.length = s.buffer.buffer.length)
    (hbl : b.blockLength = s.buffer.blockLength) : (s.putBuffer b).Shape c :=
  { h with wf := hwf, slots := hlen.trans h.slots, bufferBlock := hbl.trans h.bufferBlock }

/-- new bytes and marks in a slot that is in use -/
theorem putSlot (h : s.Shape c) {q : BufferPiece} (hq : s.buffer.slotOf x = some q) (data : Bytes)
    (blocks : List BlockState) :
    (s.putBuffer (s.buffer.putSlot x { q with data := data, blocksState := blocks })).Shape c := by
  obtain ⟨j, -, -, -, -, he, hi⟩ := h.wf.slotOf_eq_some hq
  exact h.putBuffer (h.wf.putSlot hq hi he) (by simp) (by simp)

/-- the static part of the pieces does not change with a state -/
theorem piece_set (h : s.Shape c) {m : PieceMetadata} (hm : s.pieces[x]? = some m) (st : PieceState) (y : ℕ)
    (r : PieceMetadata) (hr : (s.pieces.set x { m with state := st })[y]? = some r) :
    r.pieceHash = c.layout.hash y ∧ r.currentPieceLength = c.layout.len y ∧ r.numBlocks = c.layout.blocks y := by
  rcases getElem?_set_eq_some hr with ⟨rfl, rfl⟩ | ⟨-, hr⟩
  · exact h.piece y m hm
  · exact h.piece y r hr

theorem countP_set {pieces : List PieceMetadata} {m : PieceMetadata} (hm : pieces[x]? = some m)
    (hms : m.state ≠ .completed) (st : PieceState) :
    (pieces.set x { m with state := st }).countP (fun p => p.state == .completed) =
      pieces.countP (fun p => p.state == .completed) + if st = .completed then 1 else 0 := by
  obtain ⟨hlt, rfl⟩ := List.getElem?_eq_some_iff.1 hm
  rw [List.countP_set hlt]
  simp [hms]

/-- a change of state that neither starts nor ends in COMPLETED -/
theorem putState (h : s.Shape c) {m : PieceMetadata} (hm : s.pieces[x]? = some m) (hms : m.state ≠ .completed)
    (st : PieceState) (hst : st ≠ .completed) : (s.putState x m st).Shape c :=
  { h with
    size := by simpa [PieceManager.putState] using h.size
    piece := h.piece_set hm st
    count := by
      have hcount := h.count
      simp only [PieceManager.putState, countP_set hm hms, hst, if_false, Nat.add_zero]
      exact hcount }

/-- a change of state into COMPLETED, with the count -/
theorem complete (h : s.Shape c) {m : PieceMetadata} (hm : s.pieces[x]? = some m) (hms : m.state ≠ .completed) :
    ({ s.putState x m .completed with numPiecesCompleted := (s.numPiecesCompleted + 1) % 2 ^ 32 } :
      PieceManager).Shape c :=
  { h with
    size := by simpa [PieceManager.putState] using h.size
    piece := h.piece_set hm .completed
    count := by
      have hcount := h.count
      simp only [PieceManager.putState, countP_set hm hms, if_true]
      rw [hcount, Nat.mod_add_mod] }

end Shape

/-! ## Pieces and slots -/

/-- a piece that is not in one of the buffer states has no slot -/
theorem Inv.slotOf_eq_none (h : s.Inv c sha1) (h1 : s.toStore.state x ≠ some .buffered)
    (h2 : s.toStore.state x ≠ some .allRequested) : s.buffer.slotOf x = none := by
  cases hq : s.buffer.slotOf x with
  | none => rfl
  | some q =>
    rcases h.good.inv.state_of_slot (toStore_slot hq) with hx | hx
    · exact absurd hx h1
    · exact absurd hx h2

/-- a piece with a slot has its metadata, and both have the sizes of the torrent -/
theorem Inv.slotOf_eq_some (h : s.Inv c sha1) {q : BufferPiece} (hq : s.buffer.slotOf x = some q) :
    ∃ m, s.pieces[x]? = some m ∧ (m.state = .buffered ∨ m.state = .allRequested) ∧
      q.blocksState.length = c.layout.blocks x ∧ q.data.length = c.layout.len x := by
  have hsl := toStore_slot hq
  have hok := h.good.inv.piece x
  have hlen := hok.blocks _ hsl
  have hdata := hok.data _ hsl
  rcases h.good.inv.state_of_slot hsl with hx | hx
  · obtain ⟨m, hm, hst⟩ := state_toStore hx
    exact ⟨m, hm, Or.inl hst, hlen, hdata⟩
  · obtain ⟨m, hm, hst⟩ := state_toStore hx
    exact ⟨m, hm, Or.inr hst, hlen, hdata⟩

/-! ## Moves -/

/-- `t` is reached from `s` by store steps and has the right shape -/
structure Moves (c : Config) (sha1 : Bytes → Bytes) (s t : PieceManager) : Prop where
  shape : t.Shape c
  steps : Relation.ReflTransGen (Store.Step c.layout sha1) s.toStore t.toStore

theorem Moves.refl (h : s.Shape c) : Moves c sha1 s s := ⟨h, .refl⟩

theorem Moves.trans {u : PieceManager} (h₁ : Moves c sha1 s t) (h₂ : Moves c sha1 t u) : Moves c sha1 s u :=
  ⟨h₂.shape, h₁.steps.trans h₂.steps⟩

theorem Moves.single (h : t.Shape c) (hs : s.toStore.Step c.layout sha1 t.toStore) : Moves c sha1 s t :=
  ⟨h, .single hs⟩

theorem Moves.inv (h : Moves c sha1 s t) (hs : s.Inv c sha1) : t.Inv c sha1 :=
  ⟨h.shape, Store.steps_good h.steps hs.good⟩

theorem Moves.trace_grows (h : Moves c sha1 s t) : s.trace <+: t.trace := Store.steps_trace_grows h.steps

theorem Moves.completed (h : Moves c sha1 s t) (hs : s.Inv c sha1) (hx : s.toStore.state x = some .completed) :
    t.toStore.state x = some .completed := Store.steps_completed h.steps hs.good hx

end PieceManager

end SimpleTorrent
