/-
What reaches the disk.

The peers may send anything. Where all pieces start below 2^32 and no two files of the torrent are one, what the writer
has written is verified, and is still there at any later time.

- `Verified`: an entry is a piece of the torrent, with the right length and the right hash.
- `written_intact`: in every state reached, every entry that was written is verified, and none was written twice. The
  files still have it, if they are separate.
- `all_pieces_on_disk`: when as many entries have been written as there are pieces, the files together have the total
  length, and each piece of them has its hash, if the files are separate.
-/
import SimpleTorrent.Properties.Download

namespace SimpleTorrent

open Checked Extents Store MessageUtil

/-- an entry of the queue that is a piece of the torrent -/
structure Verified (sha1 : Bytes → Bytes) (data : TorrentMetadata) (x : ℕ) (value : ℕ × Bytes) : Prop where
  piece : x < data.pieceHashes.length
  offset : value.1 = x * data.pieceLength
  length : value.2.length = currentPieceLength data x
  hash : some (sha1 value.2) = data.pieceHashes[x]?

namespace Client

variable {fs : FileSystem} {data : TorrentMetadata} {peerIps : List PeerConnInfo} {sha1 : Bytes → Bytes} {s : Client}
  {x : ℕ} {value : ℕ × Bytes}

/-- what is written are the first of the pieces that were saved -/
theorem Parts.written_eq {c : Config} (h : s.Parts fs c peerIps sha1) (hc : c.data.Consistent) :
    s.session.fileManager.written = ((savedPieces s.pieceManager.trace).take s.session.fileManager.written.length).map
      (pieceEntry c.data (savedData c.data s.pieceManager.trace)) := by
  obtain ⟨hdisk, -, henq, -⟩ := h.disk hc
  have hprefix : s.session.fileManager.written <+: s.session.fileManager.enqueued := by
    rw [hdisk.queue.fifo, List.append_assoc]
    exact List.prefix_append _ _
  rw [henq, h.inv.1.savedEntries_eq] at hprefix
  rw [List.map_take]
  exact List.prefix_iff_eq_take.1 hprefix

section Small

variable {c : Config} (h : s.Parts fs c peerIps sha1) (hc : c.data.Consistent)
  (hsmall : ∀ i < c.data.pieceHashes.length, i * c.data.pieceLength < 2 ^ 32)
include h hc hsmall

/-- an entry that was written -/
theorem Parts.mem_written (hv : value ∈ s.session.fileManager.written) : ∃ x ∈ savedPieces s.pieceManager.trace,
    value = pieceEntry c.data (savedData c.data s.pieceManager.trace) x ∧ Verified sha1 c.data x value := by
  rw [h.written_eq hc, List.mem_map] at hv
  obtain ⟨x, hx, rfl⟩ := hv
  have hmem := List.mem_of_mem_take hx
  have hlt := h.inv.1.lt_of_saved hmem
  obtain ⟨hlen, hhash⟩ := h.inv.1.saved_verified hmem
  exact ⟨x, hmem, rfl, hlt, Nat.mod_eq_of_lt (hsmall x hlt), hlen, hhash⟩

/-- **Written once**: the entries have different offsets. -/
theorem Parts.nodup_written : (s.session.fileManager.written.map (·.1)).Nodup := by
  rw [h.written_eq hc, List.map_map]
  have hnodup : ((savedPieces s.pieceManager.trace).take s.session.fileManager.written.length).Nodup :=
    h.inv.1.good.saves.nodup.sublist (List.take_sublist _ _)
  refine hnodup.map_on ?_
  intro x hx y hy hxy
  have hxlt := h.inv.1.lt_of_saved (List.mem_of_mem_take hx)
  have hylt := h.inv.1.lt_of_saved (List.mem_of_mem_take hy)
  simp only [Function.comp_apply, pieceEntry] at hxy
  rw [Nat.mod_eq_of_lt (hsmall x hxlt), Nat.mod_eq_of_lt (hsmall y hylt)] at hxy
  exact Nat.eq_of_mul_eq_mul_right hc.pieceLength_pos hxy

/-- **Still there**: the files have what was written, if no two of them are one. -/
theorem Parts.valueAt_written (hsep : fs.Separate c.data) (hv : value ∈ s.session.fileManager.written) {j : ℕ}
    (hj : j < value.2.length) :
    valueAt ((outputFiles c.data).map (·.fileLength)) s.session.fileManager.files (value.1 + j) = value.2[j]? := by
  obtain ⟨hdisk, hlens, -, hseparate⟩ := h.disk hc
  have hfit := h.inv.1.saved_fit
  have hlen := length_content hc hfit
  have hsum := hc.sum_outputFiles
  obtain ⟨x, hx, rfl, hver⟩ := h.mem_written hc hsmall hv
  have hxlt := hver.piece
  obtain ⟨-, hend⟩ := pieceEntry_inRange hc hfit hxlt
  rw [hsum] at hend
  have hread : valueAt ((outputFiles c.data).map (·.fileLength)) s.session.fileManager.files
      ((pieceEntry c.data (savedData c.data s.pieceManager.trace) x).1 + j) =
        (content c.data (savedData c.data s.pieceManager.trace))[
          (pieceEntry c.data (savedData c.data s.pieceManager.trace) x).1 + j]? := by
    rw [hdisk.files (hseparate.2 hsep), hlens]
    apply valueAt_writeAll 0 (by simp) (by omega) (by omega)
    · intro w hw
      obtain ⟨y, -, rfl, hy⟩ := h.mem_written hc hsmall hw
      exact pieceEntry_agrees hc hfit hy.piece (hsmall y hy.piece)
    · exact ⟨_, hv, by omega, by omega⟩
  rw [hread, hver.offset]
  exact getElem?_content hc hfit hxlt hj

end Small

/-- **Integrity.** Whatever the peers send: every entry that was written is a piece with the right hash, no piece was
written twice, and the files still have it, if no two of them are one. -/
theorem written_intact (sha1 : Bytes → Bytes) (fs : FileSystem) (data : TorrentMetadata) (hd : data.Startable)
    (hsmall : ∀ i < data.pieceHashes.length, i * data.pieceLength < 2 ^ 32) (peerIps : List PeerConnInfo)
    (hn : peerIps.length ≤ 2 ^ 32) (ourId : Bytes) (ops : List Op) (s : Client)
    (hs : run sha1 fs data peerIps ourId ops = .ok s) :
    (s.session.fileManager.written.map (·.1)).Nodup ∧ ∀ value ∈ s.session.fileManager.written,
      (∃ x, Verified sha1 data x value) ∧ (fs.Separate data → ∀ j < value.2.length,
        valueAt ((outputFiles data).map (·.fileLength)) s.session.fileManager.files (value.1 + j) = value.2[j]?) := by
  obtain ⟨digest, -, hhello⟩ := hd.hello ourId
  obtain ⟨t, ht, hready⟩ := run_ready hd (opens_of_run hs) hn hhello sha1 ops
  obtain rfl : t = s := Except.ok.inj (ht.symm.trans hs)
  have hparts := hready.parts
  refine ⟨hparts.nodup_written hd.consistent hsmall, fun value hv => ⟨?_, fun hsep j hj => ?_⟩⟩
  · obtain ⟨x, -, -, hver⟩ := hparts.mem_written hd.consistent hsmall hv
    exact ⟨x, hver⟩
  · exact hparts.valueAt_written hd.consistent hsmall hsep hv hj

theorem written_intact_tiny : ∃ s, run zeros .plain tiny onePeer [] fetch = .ok s ∧
    (s.session.fileManager.written.map (·.1)).Nodup ∧ ∀ value ∈ s.session.fileManager.written,
      (∃ x, Verified zeros tiny x value) ∧ (FileSystem.plain.Separate tiny → ∀ j < value.2.length,
        valueAt ((outputFiles tiny).map (·.fileLength)) s.session.fileManager.files (value.1 + j) = value.2[j]?) := by
  obtain ⟨s, hs, -⟩ := run_fetch
  exact ⟨s, hs, written_intact zeros .plain tiny startable_tiny (by decide) onePeer (by decide) [] fetch s hs⟩

/-! ## A complete download -/

/-- as many entries as pieces are all pieces -/
theorem Parts.written_all {c : Config} (h : s.Parts fs c peerIps sha1) (hc : c.data.Consistent)
    (hall : s.session.fileManager.written.length = c.data.pieceHashes.length) :
    (savedPieces s.pieceManager.trace).Perm (List.range c.data.pieceHashes.length) ∧
      s.session.fileManager.written =
        (savedPieces s.pieceManager.trace).map (pieceEntry c.data (savedData c.data s.pieceManager.trace)) := by
  have hwritten := h.written_eq hc
  have hlen := congrArg List.length hwritten
  rw [List.length_map, List.length_take, hall] at hlen
  have hnodup : (savedPieces s.pieceManager.trace).Nodup := h.inv.1.good.saves.nodup
  have hsub : savedPieces s.pieceManager.trace ⊆ List.range c.data.pieceHashes.length :=
    fun x hx => List.mem_range.2 (h.inv.1.lt_of_saved hx)
  have hle := hnodup.length_le_of_subset hsub
  rw [List.length_range] at hle
  refine ⟨(hnodup.subperm hsub).perm_of_length_le (by rw [List.length_range]; omega), ?_⟩
  rw [hwritten, hall, List.take_of_length_le (by omega)]

/-- piece `x` of the content -/
theorem slice_content {pieces : ℕ → Bytes} (hc : data.Consistent) (hfit : PiecesFit data pieces)
    (hx : x < data.pieceHashes.length) :
    ((content data pieces).drop (x * data.pieceLength)).take (currentPieceLength data x) = pieces x := by
  apply List.ext_getElem?
  intro j
  rw [List.getElem?_take, List.getElem?_drop, ← hfit x hx]
  split_ifs with hj
  · exact getElem?_content hc hfit hx hj
  · rw [List.getElem?_eq_none (Nat.not_lt.1 hj)]

/-- what the files are then -/
theorem Parts.on_disk {c : Config} (h : s.Parts fs c peerIps sha1) (hc : c.data.Consistent) (hsep : fs.Separate c.data)
    (hsmall : ∀ i < c.data.pieceHashes.length, i * c.data.pieceLength < 2 ^ 32)
    (hall : s.session.fileManager.written.length = c.data.pieceHashes.length) :
    s.session.fileManager.files.flatten.length = c.data.totalLength ∧ ∀ x < c.data.pieceHashes.length,
      some (sha1 ((s.session.fileManager.files.flatten.drop (x * c.data.pieceLength)).take
        (currentPieceLength c.data x))) = c.data.pieceHashes[x]? := by
  have hinv := h.inv.1
  have hfit := hinv.saved_fit
  obtain ⟨horder, hwritten⟩ := h.written_all hc hall
  obtain ⟨hdisk, hlens, -, hseparate⟩ := h.disk hc
  have hflat : s.session.fileManager.files.flatten = content c.data (savedData c.data s.pieceManager.trace) := by
    rw [hdisk.files (hseparate.2 hsep), hlens, hwritten]
    exact assembled hc hfit horder hsmall
  rw [hflat]
  refine ⟨length_content hc hfit, fun x hx => ?_⟩
  rw [slice_content hc hfit hx]
  exact (hinv.saved_verified (horder.mem_iff.2 (List.mem_range.2 hx))).2

/-- **A complete download.** When as many entries have been written as there are pieces, the files, one behind the other,
have the total length, and each piece of them has the hash that the torrent gives for it. -/
theorem all_pieces_on_disk (sha1 : Bytes → Bytes) (fs : FileSystem) (data : TorrentMetadata) (hd : data.Startable)
    (hsep : fs.Separate data) (hsmall : ∀ i < data.pieceHashes.length, i * data.pieceLength < 2 ^ 32)
    (peerIps : List PeerConnInfo) (hn : peerIps.length ≤ 2 ^ 32) (ourId : Bytes) (ops : List Op) (s : Client)
    (hs : run sha1 fs data peerIps ourId ops = .ok s)
    (hall : s.session.fileManager.written.length = data.pieceHashes.length) :
    s.session.fileManager.files.flatten.length = data.totalLength ∧ ∀ x < data.pieceHashes.length,
      some (sha1 ((s.session.fileManager.files.flatten.drop (x * data.pieceLength)).take
        (currentPieceLength data x))) = data.pieceHashes[x]? := by
  obtain ⟨digest, -, hhello⟩ := hd.hello ourId
  obtain ⟨t, ht, hready⟩ := run_ready hd (opens_of_run hs) hn hhello sha1 ops
  obtain rfl : t = s := Except.ok.inj (ht.symm.trans hs)
  exact hready.parts.on_disk hd.consistent hsep hsmall hall

theorem all_pieces_on_disk_tiny : ∃ s, run zeros .plain tiny onePeer [] fetch = .ok s ∧
    s.session.fileManager.files.flatten.length = 1 ∧ ∀ x < 1,
      some (zeros ((s.session.fileManager.files.flatten.drop (x * 1)).take (currentPieceLength tiny x))) =
        tiny.pieceHashes[x]? := by
  obtain ⟨s, hs, hwritten, -⟩ := run_fetch
  have hall : s.session.fileManager.written.length = tiny.pieceHashes.length := by rw [hwritten]; rfl
  exact ⟨s, hs, all_pieces_on_disk zeros .plain tiny startable_tiny (by decide) (by decide) onePeer (by decide) [] fetch
    s hs hall⟩

end Client

end SimpleTorrent
