/-
What the rest of the client relies on in the metadata of an accepted torrent.

The parser takes the entries as they are: no length is compared with another one, and integers are converted without a
check.

- `Dependable`: the metadata fit together, the constructor of the piece manager succeeds, and nothing is saved outside
  the files.
- `Entries.Plausible`: the entries fit together.
- `consistent_iff`: the metadata of an accepted torrent are dependable exactly if its entries are plausible.
- `division_by_zero`: a torrent that is accepted, and with which the client does not start.
-/
import SimpleTorrent.Manager.Refinement
import SimpleTorrent.Parser.Entries
import SimpleTorrent.Properties.Assembly

namespace SimpleTorrent

open Checked PieceManager

variable {sha1 : Bytes → Bytes} {data : TorrentMetadata}

/-! ## Consistent metadata are enough -/

section Enough

variable (h : data.Consistent)
include h

/-- the lengths of all pieces -/
theorem TorrentMetadata.Consistent.sum_pieces :
    ((List.range data.pieceHashes.length).map (currentPieceLength data)).sum = data.totalLength := by
  have hfit : PiecesFit data fun i => List.replicate (currentPieceLength data i) 0 := fun i _ => List.length_replicate ..
  have hlen := length_content h hfit
  rw [content, List.length_flatMap] at hlen
  simpa only [List.length_replicate] using hlen

theorem TorrentMetadata.Consistent.sum_new {blockLength bufferSize : UInt32} (hblock : 0 < blockLength.toNat) :
    ∃ s, new data blockLength bufferSize = .ok s ∧ (s.pieces.map (·.currentPieceLength)).sum = data.totalLength := by
  have hpos := h.pieceLength_pos
  rw [new, if_neg (by omega)]
  refine ⟨_, rfl, ?_⟩
  rw [← h.sum_pieces]
  congr 1
  apply List.ext_getElem?
  intro i
  by_cases hi : i < data.pieceHashes.length
  · simp [hi]
  · simp [Nat.not_lt.1 hi]

/-- the range of a piece -/
theorem TorrentMetadata.Consistent.piece_end {i : ℕ} (hi : i < data.pieceHashes.length) :
    i * data.pieceLength % 2 ^ 64 + currentPieceLength data i ≤ ((outputFiles data).map (·.fileLength)).sum := by
  have hstart := h.lt_count_iff.1 hi
  have hlt := h.totalLength_lt
  rw [h.sum_outputFiles, h.currentPieceLength_eq hi, Nat.mod_eq_of_lt (by omega)]
  omega

theorem TorrentMetadata.Consistent.saved_inside {c : Config} (hc : c.data = data) {ops : List PieceManager.Op}
    (hops : ∀ o ∈ ops, o.Narrow c) {s : PieceManager} (hs : c.run sha1 ops = .ok s) {x off : ℕ} {d : Bytes}
    (hx : .savePiece x off d ∈ s.trace) : off + d.length ≤ ((outputFiles data).map (·.fileLength)).sum := by
  have hinv := run_inv hops hs
  obtain ⟨hoff, hlen, -⟩ := hinv.good.saves.saved x off d hx
  obtain ⟨m, hm, -⟩ := state_toStore ((hinv.good.saves.completed x).2 (Store.mem_savedPieces.2 ⟨off, d, hx⟩))
  have hlt : x < c.numPieces := hinv.shape.size ▸ (List.getElem?_eq_some_iff.1 hm).1
  subst hc
  rw [hoff, hlen]
  exact h.piece_end hlt

end Enough

/-! ## What is relied on -/

/-- the metadata fit together, and so does what is made of them -/
structure Dependable (sha1 : Bytes → Bytes) (data : TorrentMetadata) : Prop where
  consistent : data.Consistent
  hashes : ∀ hash ∈ data.pieceHashes, hash.length = 20
  constructed : ∀ blockLength bufferSize : UInt32, 0 < blockLength.toNat →
    ∃ s, new data blockLength bufferSize = .ok s ∧ (s.pieces.map (·.currentPieceLength)).sum = data.totalLength
  saved : ∀ c : Config, c.data = data → ∀ ops, (∀ o ∈ ops, o.Narrow c) → ∀ s, c.run sha1 ops = .ok s →
    ∀ x off d, .savePiece x off d ∈ s.trace → off + d.length ≤ ((outputFiles data).map (·.fileLength)).sum

theorem TorrentMetadata.Consistent.dependable (h : data.Consistent)
    (hhashes : ∀ hash ∈ data.pieceHashes, hash.length = 20) :
    Dependable sha1 data where
  consistent := h
  hashes := hhashes
  constructed _ _ hblock := h.sum_new hblock
  saved _ hc _ hops _ hs _ _ _ hx := h.saved_inside hc hops hs hx

namespace Parser

/-- the entries fit together: a length of the pieces that is neither zero nor too large, whole hashes, one for each piece,
and a sum that fits into 64 bits -/
structure Entries.Plausible (e : Entries) : Prop where
  pieceLength_pos : 0 < toUint64 e.pieceLength
  pieceLength_lt : toUint64 e.pieceLength < 2 ^ 32
  total : e.content.lengths.sum < 2 ^ 64
  hashes : 20 ∣ e.pieces.length
  count : e.pieces.length / 20 = (e.content.lengths.sum + toUint64 e.pieceLength - 1) / toUint64 e.pieceLength

/-! ## Hashes -/

theorem length_splitPieces (pieces : Bytes) : (splitPieces pieces).length = (pieces.length + 19) / 20 := by
  simp [splitPieces]

/-- the last hash is cut if the string does not end with it -/
theorem splitPieces_whole_iff (pieces : Bytes) :
    (∀ hash ∈ splitPieces pieces, hash.length = 20) ↔ 20 ∣ pieces.length := by
  simp only [splitPieces, List.forall_mem_map, List.mem_range, List.length_take, List.length_drop]
  constructor
  · intro h
    by_contra hdvd
    have hlast := h (pieces.length / 20) (by omega)
    omega
  · intro h i hi
    omega

/-! ## Lengths -/

variable {e : Entries} {torrent : Bencode}

/-- the sum of the file lengths in the metadata -/
theorem Entries.Gives.sum_files (hg : e.Gives data) (hne : data.files ≠ []) :
    (data.files.map (·.fileLength)).sum = e.content.lengths.sum := by
  rw [hg.files] at hne ⊢
  cases hc : e.content with
  | single n =>
    rw [hc] at hne
    exact absurd rfl hne
  | multi files => rw [map_fileLength]

/-- without files, one length or none is summed up -/
theorem Entries.Gives.sum_lt_of_nil (hg : e.Gives data) (hnil : data.files = []) : e.content.lengths.sum < 2 ^ 64 := by
  rw [hg.files] at hnil
  cases hc : e.content with
  | single n =>
    rw [Content.lengths, List.sum_singleton]
    exact toUint64_lt n
  | multi files =>
    rw [hc, Content.files, List.map_eq_nil_iff] at hnil
    rw [hnil]
    exact Nat.two_pow_pos 64

theorem Entries.Gives.consistent (hg : e.Gives data) (hp : e.Plausible) : data.Consistent where
  pieceLength_pos := hg.pieceLength ▸ hp.pieceLength_pos
  pieceLength_lt := hg.pieceLength ▸ hp.pieceLength_lt
  totalLength_lt := hg.totalLength ▸ Nat.mod_lt _ (by decide)
  count := by
    have hdvd := hp.hashes
    have hcount := hp.count
    rw [hg.pieceHashes, length_splitPieces, hg.totalLength, Nat.mod_eq_of_lt hp.total, hg.pieceLength, ← hcount]
    omega
  files hne := by rw [hg.sum_files hne, hg.totalLength, Nat.mod_eq_of_lt hp.total]

theorem Entries.Gives.plausible (hg : e.Gives data) (hd : Dependable sha1 data) : e.Plausible := by
  have hc := hd.consistent
  have hdvd : 20 ∣ e.pieces.length := by
    have hhashes := hd.hashes
    rwa [hg.pieceHashes, splitPieces_whole_iff] at hhashes
  have htotal : e.content.lengths.sum < 2 ^ 64 := by
    by_cases hnil : data.files = []
    · exact hg.sum_lt_of_nil hnil
    · rw [← hg.sum_files hnil, hc.files hnil]
      exact hc.totalLength_lt
  have hcount := hc.count
  rw [hg.pieceHashes, length_splitPieces, hg.totalLength, Nat.mod_eq_of_lt htotal, hg.pieceLength] at hcount
  exact ⟨hg.pieceLength ▸ hc.pieceLength_pos, hg.pieceLength ▸ hc.pieceLength_lt, htotal, hdvd, by omega⟩

/-- **When a torrent is safe.** The metadata of an accepted torrent can be relied on exactly if its entries are
plausible. -/
theorem consistent_iff (sha1 : Bytes → Bytes) (torrent : Bencode) (data : TorrentMetadata)
    (h : readTorrent sha1 torrent = .ok data) :
    ∃ e : Entries, e.In torrent ∧ (Dependable sha1 data ↔ e.Plausible) := by
  obtain ⟨e, hin, hg⟩ := readTorrent_entries h
  refine ⟨e, hin, hg.plausible, fun hp => (hg.consistent hp).dependable ?_⟩
  rw [hg.pieceHashes, splitPieces_whole_iff]
  exact hp.hashes

/-- a torrent of one file of one byte, "a", with some tracker -/
def oneByte (pieceLength : ℤ) (pieces : Bytes) : Bencode :=
  .dict [(announceKey, .string []), (infoKey, .dict [(lengthKey, .integer 1), (nameKey, .string [97]),
    (pieceLengthKey, .integer pieceLength), (piecesKey, .string pieces)])]

theorem consistent_iff_oneByte : ∃ data, readTorrent id (oneByte 1 (List.replicate 20 0)) = .ok data ∧
    ∃ e : Entries, e.In (oneByte 1 (List.replicate 20 0)) ∧ (Dependable id data ↔ e.Plausible) :=
  ⟨_, rfl, consistent_iff id _ _ rfl⟩

/-- **Division by zero.** A torrent with pieces of length zero is accepted; no piece manager can be constructed. -/
theorem division_by_zero : ∃ data, readTorrent id (oneByte 0 []) = .ok data ∧
    (∀ blockLength bufferSize, new data blockLength bufferSize = .error .zeroModulus) ∧ ¬ Dependable id data := by
  refine ⟨_, rfl, fun blockLength bufferSize => ?_, fun hd => absurd hd.consistent.pieceLength_pos (by decide)⟩
  rw [new, if_pos (Or.inr (by decide))]

end Parser

end SimpleTorrent
