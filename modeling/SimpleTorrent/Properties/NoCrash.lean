/-
What a peer sends cannot crash the piece manager, as long as slot numbers fit into an `int`.

- `Input`: the messages that reach the piece manager, as payloads, and the calls made on behalf of peers.
- `no_crash`: whatever comes in, no step reaches an error branch, provided the buffer size or the number of pieces is
  below 2^31.
- `crowded_buffer_faults`: without that bound there is a run that does, with well-formed messages only. The first empty
  slot is searched with an `int`, and a buffer that holds 2^31 pieces has its first empty slot beyond the largest one.
-/
import SimpleTorrent.Properties.Coherence
import SimpleTorrent.Model.Peer

namespace SimpleTorrent

open Checked Buffer Store MessageUtil

/-- what reaches the piece manager -/
inductive Input where
  | bitfield (payload : Bytes) (peerId : ℕ)
  | piece (payload : Bytes) (peerId : ℕ)
  | selectNextBlock (peerId : ℕ) (order : List ℕ)
  | removePeer (peerId : ℕ)
deriving DecidableEq, Repr

namespace Input

/-- the call it leads to; `handle_piece_message` drops payloads of fewer than 9 bytes -/
def op (c : Config) : Input → Option PieceManager.Op
  | .bitfield payload p => some (.updatePieceFrequencies (getPeerBitfield payload (c.numPieces % 2 ^ 32)) p)
  | .piece payload p => (pieceBlock payload).map (.addBlock p)
  | .selectNextBlock p order => some (.selectNextBlock p order)
  | .removePeer p => some (.removePeer p)

/-- the calls made for a sequence of inputs -/
def ops (c : Config) (inputs : List Input) : List PieceManager.Op := inputs.filterMap (op c)

theorem op_fits {c : Config} {i : Input} {o : PieceManager.Op} (h : i.op c = some o) : o.Fits c := by
  cases i with
  | bitfield payload p => cases h; exact length_getPeerBitfield _ _
  | piece payload p =>
    obtain ⟨block, -, rfl⟩ := Option.map_eq_some_iff.1 h
    trivial
  | selectNextBlock p order => cases h; trivial
  | removePeer p => cases h; trivial

end Input

namespace PieceManager

variable {c : Config} {sha1 : Bytes → Bytes} {s t : PieceManager}

/-- **No crash.** With a buffer or a torrent of fewer than 2^31 pieces, every sequence of inputs is processed without a
fault. -/
theorem no_crash (c : Config) (sha1 : Bytes → Bytes) (hsmall : min c.bufferSize.toNat c.numPieces < 2 ^ 31)
    (inputs : List Input) : ∃ s, c.run sha1 (Input.ops c inputs) = .ok s := by
  refine run_total ?_ hsmall
  intro o ho
  obtain ⟨i, -, hi⟩ := List.mem_filterMap.1 ho
  exact Input.op_fits hi

theorem no_crash_onePiece : ∃ s, onePiece.run id (Input.ops onePiece
    [.bitfield [0x80] 0, .selectNextBlock 0 [], .piece [255, 255, 255, 255, 255, 255, 255, 255, 1] 0]) = .ok s :=
  no_crash onePiece id (by decide) _

/-! ## A buffer with too many slots -/

/-- `n` pieces of one byte each, and a buffer for all of them -/
def crowded (n : ℕ) (h : n < 2 ^ 32) : Config :=
  ⟨.ofHashes (List.replicate n []) 1 n, 1, UInt32.ofNatLT n h, Nat.one_pos, one_lt_two_pow_32, toNat_one_pos⟩

/-- every piece is a single block -/
theorem crowded_blocks {n : ℕ} {h : n < 2 ^ 32} (x : ℕ) : (crowded n h).layout.blocks x = 1 := by
  have hbounds := (crowded n h).sizeOfPiece_bounds x
  have hone : (crowded n h).data.pieceLength = 1 := rfl
  have hlen : currentPieceLength (crowded n h).data x = 1 := by
    rw [Config.currentPieceLength_eq]
    omega
  have hbl : (crowded n h).layout.blockLength = 1 := rfl
  rw [Layout.blocks_eq, hbl, show (crowded n h).layout.len x = 1 from hlen]

/-- the situation after `k` pieces were opened for peer 0: each was requested at once, since it has one block only -/
structure Crowd (c : Config) (sha1 : Bytes → Bytes) (k : ℕ) (s : PieceManager) : Prop where
  inv : s.Inv c sha1
  bits : ∀ p, s.peersBitfieldMap.lookup p = if p = 0 then some (List.replicate c.numPieces .havePiece) else none
  free : s.toStore.affinity 0 = none
  size : s.buffer.pieceBufferMap.keys.length = k
  fresh : ∀ x < c.numPieces, s.toStore.state x = some .notStarted ∨ s.toStore.slot x ≠ none

theorem mem_keys_iff_slot (h : s.buffer.WF) (x : ℕ) : x ∈ s.buffer.pieceBufferMap.keys ↔ s.toStore.slot x ≠ none := by
  rw [mem_keys_iff h, Option.isSome_iff_ne_none]
  simp [toStore]

/-- one more open piece is one more key -/
theorem keys_length_succ (hs : s.buffer.WF) (ht : t.buffer.WF) {x : ℕ} (hx : s.toStore.slot x = none)
    (h : ∀ y, t.toStore.slot y ≠ none ↔ y = x ∨ s.toStore.slot y ≠ none) :
    t.buffer.pieceBufferMap.keys.length = s.buffer.pieceBufferMap.keys.length + 1 := by
  have hnot : x ∉ s.buffer.pieceBufferMap.keys := by
    intro hmem
    exact (mem_keys_iff_slot hs x).1 hmem hx
  have hperm : t.buffer.pieceBufferMap.keys.Perm (x :: s.buffer.pieceBufferMap.keys) := by
    apply (List.perm_ext_iff_of_nodup t.buffer.pieceBufferMap.keys_nodup
      (List.nodup_cons.2 ⟨hnot, s.buffer.pieceBufferMap.keys_nodup⟩)).2
    intro y
    rw [mem_keys_iff_slot ht, h, List.mem_cons, mem_keys_iff_slot hs]
  rw [hperm.length_eq, List.length_cons]

/-- while pieces are left, there is room for another one, and one that nobody has started -/
theorem Crowd.room {k : ℕ} (h : Crowd c sha1 k s) (hB : c.bufferSize.toNat = c.numPieces) (hk : k < c.numPieces) :
    s.buffer.isFull ≠ true ∧ ∃ x, x < c.numPieces ∧ s.toStore.state x = some .notStarted := by
  constructor
  · intro hfull
    rw [isFull_iff, h.size, h.inv.shape.slots] at hfull
    omega
  · by_contra hno
    have hsub : List.range c.numPieces ⊆ s.buffer.pieceBufferMap.keys := by
      intro x hx
      rw [List.mem_range] at hx
      rcases h.fresh x hx with hst | hsl
      · exact absurd ⟨x, hx, hst⟩ hno
      · exact (mem_keys_iff_slot h.inv.shape.wf x).2 hsl
    have hle := List.nodup_range.length_le_of_subset hsub
    rw [List.length_range, h.size] at hle
    omega

/-- a piece was opened, and its one block requested -/
theorem Crowd.opened {k : ℕ} (h : Crowd c sha1 k s) (hinv : t.Inv c sha1)
    (hbits : t.peersBitfieldMap = s.peersBitfieldMap) {x : ℕ} {data : Bytes} (hone : c.layout.blocks x = 1)
    {v : Store ℕ ℕ} (hx : s.toStore.state x = some .notStarted) (hv : v = s.toStore.openPiece c.layout 0 x data)
    (hstore : t.toStore = v.retrieve x ⟨[.dontHave], data⟩) : Crowd c sha1 (k + 1) t := by
  have hslot : v.slot = Function.update s.toStore.slot x (some ⟨[.dontHave], data⟩) := by
    rw [hv]
    simp [openPiece, hone]
  have htslot : t.toStore.slot = Function.update s.toStore.slot x (some ⟨[.requested], data⟩) := by
    rw [hstore, retrieve_slot, hslot, Function.update_idem]
    rfl
  have hxslot : s.toStore.slot x = none := by
    rcases (h.inv.good.inv.piece x) with ⟨hdom, -, -, -, -⟩
    rw [← Option.not_isSome_iff_eq_none, hdom, hx]
    simp
  have hmissing : .dontHave ∉ markRequested [.dontHave] := by decide
  refine ⟨hinv, hbits ▸ h.bits, ?_, ?_, ?_⟩
  · rcases retrieve_affinity v x ⟨[.dontHave], data⟩ with ⟨hd, -⟩ | ⟨-, haff⟩
    · exact absurd hd hmissing
    · rw [hstore, haff, hv]
      simp [dropAffinity, openPiece]
  · rw [keys_length_succ h.inv.shape.wf hinv.shape.wf hxslot, h.size]
    intro y
    rw [htslot]
    by_cases hy : y = x
    · simp [hy]
    · simp [hy]
  · intro y hy
    by_cases hyx : y = x
    · subst hyx
      exact Or.inr (by simp [htslot])
    · rcases h.fresh y hy with hst | hsl
      · left
        rw [hstore, retrieve_state, if_neg hmissing, hv]
        simpa [openPiece, hyx] using hst
      · exact Or.inr (by simpa [htslot, hyx] using hsl)

/-- **One more piece**: the next call opens a piece, requests its block, and leaves peer 0 without affinity. -/
theorem Crowd.select {k : ℕ} (h : Crowd c sha1 k s) (hone : ∀ x, c.layout.blocks x = 1)
    (hB : c.bufferSize.toNat = c.numPieces) (hk : k < c.numPieces) {r : Option BlockRequest}
    (hr : s.selectNextBlock 0 [] = .ok (r, t)) : Crowd c sha1 (k + 1) t := by
  obtain ⟨hfull, z, hz, hzst⟩ := h.room hB hk
  have hmem : ∀ y, y < c.numPieces → y ∈ haveSet (List.replicate c.numPieces .havePiece) := by
    intro y hy
    exact mem_haveSet_replicate hy
  have hinv := (selectNextBlock_moves h.inv hr).inv h.inv
  have hbits := selectNextBlock_bitfields h.inv hr
  rcases selectNextBlock_cases h.inv hr with ⟨hnone, -, -⟩ | ⟨bf, chosen, u, hbf, hchoice, -, -, hrest⟩
  · rw [h.bits, if_pos rfl] at hnone
    cases hnone
  · rw [h.bits, if_pos rfl, Option.some.injEq] at hbf
    subst hbf
    generalize hu : u.toStore = v at hchoice
    cases hchoice with
    | affinity x ha => rw [h.free] at ha; cases ha
    | bound x ha hx hS hstart => exact absurd hzst (hstart.resolve_left hfull z (hmem z hz))
    | reopened x sl ha hx hsl hS hstart => exact absurd hzst (hstart.resolve_left hfull z (hmem z hz))
    | nothing ha hopen hstart => exact absurd hzst (hstart.resolve_left hfull z (hmem z hz))
    | opened x data ha hx hS hnf hd =>
      rcases hrest with ⟨hc, -, -⟩ | ⟨x', sl, hc, -, hsl, -, hstore⟩
      · cases hc
      · cases hc
        -- the fresh slot has one block, which this request takes
        have hfresh : sl = ⟨[.dontHave], data⟩ := by
          rw [hu] at hsl
          simpa [openPiece, hone x, eq_comm] using hsl
        rw [hfresh] at hstore
        exact h.opened hinv hbits (hone x) hx hu hstore

theorem Crowd.run (h : Crowd c sha1 0 s) (hone : ∀ x, c.layout.blocks x = 1) (hB : c.bufferSize.toNat = c.numPieces)
    {k : ℕ} (hk : k ≤ c.numPieces) (hr : runM (step sha1) s (List.replicate k (.selectNextBlock 0 [])) = .ok t) :
    Crowd c sha1 k t := by
  induction k generalizing t with
  | zero => cases hr; exact h
  | succ k ih =>
    rw [List.replicate_succ', runM_snoc, bind_eq_ok] at hr
    obtain ⟨u, hu, hut⟩ := hr
    obtain ⟨r, hv⟩ := step_select hut
    exact (ih (by omega) hu).select hone hB (by omega) hv

/-- bytes of ones announce every piece -/
theorem convert_all_ones {n m : ℕ} (hm : m ≤ 2 ^ 29) (hn : n ≤ 8 * m) :
    convert (getPeerBitfield (List.replicate m 0xFF) n) = List.replicate n .havePiece := by
  have hbit : ∀ j < 8, bit 0xFF j = 1 := by decide
  apply List.ext_getElem?
  intro x
  by_cases hx : x < n
  · have hread := getElem?_getPeerBitfield (show (List.replicate m 0xFF).length ≤ 2 ^ 29 by simpa using hm) hx
    rw [List.getElem?_replicate, if_pos (by omega), Option.map_some, Option.getD_some, hbit _ (Nat.mod_lt x (by decide))]
      at hread
    rw [convert, List.getElem?_map, hread, List.getElem?_replicate, if_pos hx]
    rfl
  · rw [List.getElem?_eq_none (by simp [convert]; omega), List.getElem?_eq_none (by simp; omega)]

/-- the start: peer 0 announces every piece -/
theorem crowd_start {n m : ℕ} (h : n < 2 ^ 32) (hm : m ≤ 2 ^ 29) (hnm : n ≤ 8 * m) (sha1 : Bytes → Bytes) :
    ∃ s, Crowd (crowded n h) sha1 0 s ∧ ∀ ops, (crowded n h).run sha1
      (.updatePieceFrequencies (getPeerBitfield (List.replicate m 0xFF) n) 0 :: ops) = runM (step sha1) s ops := by
  set c := crowded n h with hc
  have hnum : c.numPieces = n := by simp [hc, crowded, Config.numPieces, TorrentMetadata.ofHashes]
  obtain ⟨s₀, hnew, hshape, hstore, hpeers⟩ := new_spec c
  set s := s₀.updatePieceFrequencies (getPeerBitfield (List.replicate m 0xFF) n) 0 with hs
  have hmoves : Moves c sha1 s₀ s := updatePieceFrequencies_moves hshape (Or.inl (by omega)) 0
  have hinv := hmoves.inv ⟨hshape, hstore ▸ emptyStore_good c sha1⟩
  have hslot : s.toStore.slot = (emptyStore c).slot := hstore ▸ rfl
  have hstate : s.toStore.state = (emptyStore c).state := hstore ▸ rfl
  have haff : s.toStore.affinity = (emptyStore c).affinity := hstore ▸ rfl
  refine ⟨s, ⟨hinv, ?_, by rw [haff]; rfl, ?_, fun x hx => Or.inl ?_⟩, ?_⟩
  · intro p
    rw [hs, lookup_updatePieceFrequencies, convert_all_ones hm hnm, hnum, hpeers]
    rfl
  · have hnil : s.buffer.pieceBufferMap.keys = [] := by
      apply List.eq_nil_iff_forall_not_mem.2
      intro x hx
      exact (mem_keys_iff_slot hinv.shape.wf x).1 hx (by rw [hslot]; rfl)
    rw [hnil, List.length_nil]
  · rw [hstate, emptyStore]
    exact if_pos hx
  · intro ops
    rw [Config.run, PieceManager.run, hnew, ok_bind, runM_cons]
    rfl

/-- **Too many slots**: a peer that has every piece of a torrent of more than 2^31, with a buffer for all of them,
cannot be asked for a block more than 2^31 times -/
theorem Crowd.faults {n k : ℕ} {h : n < 2 ^ 32} (h0 : Crowd (crowded n h) sha1 0 s) (hk : 2 ^ 31 < k) (hkn : k ≤ n)
    (t : PieceManager) : runM (step sha1) s (List.replicate k (.selectNextBlock 0 [])) ≠ .ok t := by
  intro hrun
  have hnum : (crowded n h).numPieces = n := by simp [crowded, Config.numPieces, TorrentMetadata.ofHashes]
  have hend := h0.run (fun x => crowded_blocks x) (by rw [hnum]; rfl) (by omega) hrun
  -- all slot numbers in use are below 2^31
  have hle := hend.inv.shape.wf.keys_length_le fun x j hj => hend.inv.shape.wf.small x j hj
  rw [hend.size] at hle
  omega

/-- the calls for a bitfield of ones and any number of requests for blocks -/
theorem ops_ones {n : ℕ} (h : n < 2 ^ 32) (m k : ℕ) :
    Input.ops (crowded n h) (.bitfield (List.replicate m 0xFF) 0 :: List.replicate k (.selectNextBlock 0 [])) =
      .updatePieceFrequencies (getPeerBitfield (List.replicate m 0xFF) n) 0 ::
        List.replicate k (.selectNextBlock 0 []) := by
  have hnum : (crowded n h).numPieces % 2 ^ 32 = n := by
    rw [show (crowded n h).numPieces = n by simp [crowded, Config.numPieces, TorrentMetadata.ofHashes],
      Nat.mod_eq_of_lt h]
  have hhead : Input.op (crowded n h) (.bitfield (List.replicate m 0xFF) 0) =
      some (.updatePieceFrequencies (getPeerBitfield (List.replicate m 0xFF) n) 0) := by rw [Input.op, hnum]
  have htail : Input.op (crowded n h) (.selectNextBlock 0 []) = some (.selectNextBlock 0 []) := rfl
  rw [Input.ops, List.filterMap_cons_some hhead, List.filterMap_replicate_of_some htail]

/-- with 2^31 + 1 pieces and as many slots, well-formed messages lead to a fault -/
theorem crowded_buffer_faults : ¬ ∃ s, (crowded (2 ^ 31 + 1) (by decide)).run id
    (Input.ops (crowded (2 ^ 31 + 1) (by decide)) (.bitfield (List.replicate (2 ^ 29) 0xFF) 0 ::
      List.replicate (2 ^ 31 + 1) (.selectNextBlock 0 []))) = .ok s := by
  rintro ⟨t, ht⟩
  obtain ⟨s, h0, hrun⟩ := crowd_start (n := 2 ^ 31 + 1) (m := 2 ^ 29) (by decide) le_rfl (by decide) id
  rw [ops_ones, hrun] at ht
  exact h0.faults (by decide) le_rfl t ht

end PieceManager

end SimpleTorrent
