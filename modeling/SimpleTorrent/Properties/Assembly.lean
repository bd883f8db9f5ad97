/-
Disk assembly: what the files are when every piece has been written.

`save_piece` computes the offset of a piece in 64 bits, and the queue keeps the lower 32 bits of it. Nothing keeps two
entries of the metadata from naming one file.

- `Consistent`: the metadata agree with each other, as those of a real torrent do.
- `FileSystem.Separate`: no two files of the torrent, other than empty ones, are one file on disk.
- `disk_assembly_iff`: when every enqueued piece is processed, in whatever order and interleaving, the files in order
  are the pieces in order exactly if every piece starts below 2^32, where the files are separate. Where they are not,
  there are pieces that are not assembled in any order.
- `drain`, `run_all`: with fewer than 2^32 pieces, and left alone, the writer does process everything.
- `large_file_garbled`: a file of 4 GiB and one byte is not assembled. `shared_file_garbled`: nor are two files of one
  name.
-/
import SimpleTorrent.Disk.Refinement
import SimpleTorrent.Model.PieceManager

namespace SimpleTorrent

open Checked Extents

/-! ## Consistent metadata -/

/-- total length, piece length, number of pieces and file lengths fit together -/
structure TorrentMetadata.Consistent (data : TorrentMetadata) : Prop where
  pieceLength_pos : 0 < data.pieceLength
  pieceLength_lt : data.pieceLength < 2 ^ 32
  totalLength_lt : data.totalLength < 2 ^ 64
  count : data.pieceHashes.length = (data.totalLength + data.pieceLength - 1) / data.pieceLength
  files : data.files ≠ [] → (data.files.map (·.fileLength)).sum = data.totalLength

namespace TorrentMetadata.Consistent

variable {data : TorrentMetadata} {i : ℕ}

theorem sum_outputFiles (h : data.Consistent) : ((outputFiles data).map (·.fileLength)).sum = data.totalLength := by
  unfold outputFiles
  by_cases hnil : data.files = []
  · rw [if_pos (by rw [hnil]; rfl)]
    simp
  · rw [if_neg (by rwa [List.isEmpty_iff])]
    exact h.files hnil

/-- the pieces are those that start before the end -/
theorem lt_count_iff (h : data.Consistent) : i < data.pieceHashes.length ↔ i * data.pieceLength < data.totalLength := by
  have hpos := h.pieceLength_pos
  rw [h.count, Nat.lt_iff_add_one_le, Nat.le_div_iff_mul_le hpos, Nat.succ_mul]
  omega

/-- a piece has the full length, or what is left -/
theorem currentPieceLength_eq (h : data.Consistent) (hi : i < data.pieceHashes.length) :
    currentPieceLength data i = min data.pieceLength (data.totalLength - i * data.pieceLength) := by
  have hpos := h.pieceLength_pos
  have hlt := h.pieceLength_lt
  have hstart := h.lt_count_iff.1 hi
  have hdm := Nat.div_add_mod data.totalLength data.pieceLength
  have hmod := Nat.mod_lt data.totalLength hpos
  simp only [currentPieceLength, sizeOfPiece]
  by_cases hlast : i = data.pieceHashes.length - 1 ∧ data.totalLength % data.pieceLength ≠ 0
  · rw [if_pos hlast, Nat.mod_eq_of_lt (by omega)]
    -- the last piece, and a short one
    have hend : data.totalLength ≤ (i + 1) * data.pieceLength := by
      by_contra hlt'
      have := h.lt_count_iff.2 (Nat.not_le.1 hlt')
      omega
    have hne : data.totalLength ≠ (i + 1) * data.pieceLength := by
      intro heq
      rw [heq, Nat.mul_mod_left] at hlast
      exact hlast.2 rfl
    have hdiv : data.totalLength / data.pieceLength = i :=
      Nat.div_eq_of_lt_le hstart.le (lt_of_le_of_ne hend hne)
    rw [hdiv, Nat.mul_comm] at hdm
    omega
  · rw [if_neg hlast, Nat.mod_mod, Nat.mod_eq_of_lt hlt, Nat.min_eq_left]
    -- a full piece
    have hend : (i + 1) * data.pieceLength ≤ data.totalLength := by
      by_cases hnext : i + 1 < data.pieceHashes.length
      · exact (h.lt_count_iff.1 hnext).le
      · have hzero : data.totalLength % data.pieceLength = 0 := by
          by_contra hne
          exact hlast ⟨by omega, hne⟩
        rw [hzero, Nat.add_zero] at hdm
        rw [← hdm, Nat.mul_comm] at hstart
        have := Nat.lt_of_mul_lt_mul_left hstart
        calc (i + 1) * data.pieceLength ≤ data.totalLength / data.pieceLength * data.pieceLength :=
              Nat.mul_le_mul_right _ this
          _ = data.totalLength := by rw [Nat.mul_comm, hdm]
    rw [Nat.succ_mul] at hend
    omega

end TorrentMetadata.Consistent

/-! ## Pieces as writes -/

section Pieces

variable (data : TorrentMetadata) (pieces : ℕ → Bytes)

/-- `PieceManager::save_piece(i, data_i)`, as a call of `FileManager::save_piece` -/
def saveOp (i : ℕ) : Session.Op := .savePiece (fileOffset (data.pieceLength % 2 ^ 32) (i % 2 ^ 32)) (pieces i)

/-- the entry of the queue that it makes -/
def pieceEntry (i : ℕ) : ℕ × Bytes := (i * data.pieceLength % 2 ^ 32, pieces i)

/-- only the lower 32 bits of the offset are kept -/
theorem saves_saveOp (order : List ℕ) :
    Session.saves (order.map (saveOp data pieces)) = order.map (pieceEntry data pieces) := by
  have hoff : ∀ i, fileOffset (data.pieceLength % 2 ^ 32) (i % 2 ^ 32) % 2 ^ 32 = i * data.pieceLength % 2 ^ 32 := by
    intro i
    calc fileOffset (data.pieceLength % 2 ^ 32) (i % 2 ^ 32) % 2 ^ 32
        = i % 2 ^ 32 * (data.pieceLength % 2 ^ 32) % 2 ^ 32 := Nat.mod_mod_of_dvd _ (by decide : 2 ^ 32 ∣ 2 ^ 64)
      _ = i * data.pieceLength % 2 ^ 32 := (Nat.mul_mod i data.pieceLength (2 ^ 32)).symm
  induction order with
  | nil => rfl
  | cons i order ih =>
    rw [List.map_cons, List.map_cons, ← ih, pieceEntry, ← hoff]
    rfl

end Pieces

section Writes

variable {data : TorrentMetadata} {pieces : ℕ → Bytes} {i n : ℕ}

/-- pieces of the right lengths for these metadata -/
def PiecesFit (data : TorrentMetadata) (pieces : ℕ → Bytes) : Prop :=
  ∀ i < data.pieceHashes.length, (pieces i).length = currentPieceLength data i

/-- what the pieces are together -/
def content (data : TorrentMetadata) (pieces : ℕ → Bytes) : Bytes := (List.range data.pieceHashes.length).flatMap pieces

variable (h : data.Consistent) (hp : PiecesFit data pieces)
include h hp

theorem length_piece (hi : i < data.pieceHashes.length) :
    (pieces i).length = min data.pieceLength (data.totalLength - i * data.pieceLength) := by
  rw [hp i hi, h.currentPieceLength_eq hi]

/-- all pieces but the last are full -/
theorem length_piece_of_succ_lt (hi : i + 1 < data.pieceHashes.length) : (pieces i).length = data.pieceLength := by
  have hnext := h.lt_count_iff.1 hi
  rw [Nat.succ_mul] at hnext
  rw [length_piece h hp (Nat.lt_of_succ_lt hi)]
  omega

theorem length_content : (content data pieces).length = data.totalLength := by
  rw [content]
  cases hn : data.pieceHashes.length with
  | zero =>
    have hzero : ¬ 0 * data.pieceLength < data.totalLength := by
      intro hlt
      have := h.lt_count_iff.2 hlt
      omega
    rw [Nat.zero_mul] at hzero
    rw [List.range_zero, List.flatMap_nil, List.length_nil]
    omega
  | succ m =>
    have hlast : m < data.pieceHashes.length := by omega
    have hstart := h.lt_count_iff.1 hlast
    have hend : data.totalLength ≤ (m + 1) * data.pieceLength := by
      by_contra hlt
      have := h.lt_count_iff.2 (Nat.not_le.1 hlt)
      omega
    rw [Nat.succ_mul] at hend
    have hfull : ((List.range m).flatMap pieces).length = m * data.pieceLength :=
      length_flatMap_range fun k hk => length_piece_of_succ_lt h hp (by omega)
    calc ((List.range (m + 1)).flatMap pieces).length
        = ((List.range m).flatMap pieces).length + (pieces m).length := by
          rw [List.range_succ, List.flatMap_append, List.length_append, List.flatMap_singleton]
      _ = m * data.pieceLength + min data.pieceLength (data.totalLength - m * data.pieceLength) := by
          rw [hfull, length_piece h hp hlast]
      _ = data.totalLength := by omega

/-- piece `i` in the content -/
theorem getElem?_content {j : ℕ} (hi : i < data.pieceHashes.length) (hj : j < (pieces i).length) :
    (content data pieces)[i * data.pieceLength + j]? = (pieces i)[j]? :=
  getElem?_flatMap_range (fun k hk => length_piece_of_succ_lt h hp (by omega)) hi hj

/-- wherever it goes, a piece stays inside the torrent -/
theorem pieceEntry_inRange (hi : i < data.pieceHashes.length) :
    InRange ((outputFiles data).map (·.fileLength)) (pieceEntry data pieces i) := by
  have hstart := h.lt_count_iff.1 hi
  have hle := Nat.mod_le (i * data.pieceLength) (2 ^ 32)
  have hlen := length_piece h hp hi
  constructor
  · rw [h.sum_outputFiles]
    exact lt_of_le_of_lt hle hstart
  · rw [h.sum_outputFiles]
    simp only [pieceEntry]
    omega

/-- a piece that starts below 2^32 goes where it belongs -/
theorem pieceEntry_agrees (hi : i < data.pieceHashes.length) (hlt : i * data.pieceLength < 2 ^ 32) :
    AgreesWith (content data pieces) (pieceEntry data pieces i) := by
  intro j hj
  simp only [pieceEntry] at hj ⊢
  rw [Nat.mod_eq_of_lt hlt, getElem?_content h hp hi hj]

variable {order : List ℕ} (horder : order.Perm (List.range data.pieceHashes.length))
include horder

/-- **Assembled**: pieces that all start below 2^32 make the content, in any order. -/
theorem assembled (hsmall : ∀ i < data.pieceHashes.length, i * data.pieceLength < 2 ^ 32) :
    (writeAll 0 ((outputFiles data).map (·.fileLength)) (((outputFiles data).map (·.fileLength)).map fun _ => [])
      (order.map (pieceEntry data pieces))).flatten = content data pieces := by
  have hpos := h.pieceLength_pos
  have hlen := length_content h hp
  have hsum := h.sum_outputFiles
  apply ((within_nil _).writeAll 0 _).flatten_of_valueAt (hlen.trans hsum.symm)
  intro g hg
  rw [hsum] at hg
  apply valueAt_writeAll 0 (by simp) (by rwa [hsum]) (by rwa [hlen])
  · intro w hw
    obtain ⟨i, hi, rfl⟩ := List.mem_map.1 hw
    have hin := List.mem_range.1 (horder.mem_iff.1 hi)
    exact pieceEntry_agrees h hp hin (hsmall i hin)
  · -- the piece that position `g` belongs to
    have hdm := Nat.div_add_mod g data.pieceLength
    have hmod := Nat.mod_lt g hpos
    rw [Nat.mul_comm] at hdm
    have hin : g / data.pieceLength < data.pieceHashes.length := h.lt_count_iff.2 (by omega)
    have hmem : g / data.pieceLength ∈ order := horder.mem_iff.2 (List.mem_range.2 hin)
    refine ⟨pieceEntry data pieces (g / data.pieceLength), List.mem_map.2 ⟨_, hmem, rfl⟩, ?_⟩
    have hpiece := length_piece h hp hin
    simp only [pieceEntry]
    rw [Nat.mod_eq_of_lt (hsmall _ hin)]
    omega

/-- **Not assembled**: with a piece that starts at 2^32 or later, the files are too short. -/
theorem not_assembled (hbig : ∃ i < data.pieceHashes.length, 2 ^ 32 ≤ i * data.pieceLength) :
    (writeAll 0 ((outputFiles data).map (·.fileLength)) (((outputFiles data).map (·.fileLength)).map fun _ => [])
      (order.map (pieceEntry data pieces))).flatten ≠ content data pieces := by
  obtain ⟨b, hb, hbig⟩ := hbig
  have hsum := h.sum_outputFiles
  have hstart := h.lt_count_iff.1 hb
  -- no entry reaches the last byte
  have hend : ∀ w ∈ order.map (pieceEntry data pieces), w.1 + w.2.length ≤ data.totalLength - 1 := by
    intro w hw
    obtain ⟨i, hi, rfl⟩ := List.mem_map.1 hw
    have hin := List.mem_range.1 (horder.mem_iff.1 hi)
    have hlen := length_piece h hp hin
    simp only [pieceEntry]
    by_cases hlt : i * data.pieceLength < 2 ^ 32
    · -- a later piece follows
      have hib : (i + 1) * data.pieceLength ≤ b * data.pieceLength := by
        apply Nat.mul_le_mul_right
        exact Nat.lt_of_mul_lt_mul_right (lt_of_lt_of_le hlt hbig)
      rw [Nat.succ_mul] at hib
      rw [Nat.mod_eq_of_lt hlt]
      omega
    · -- the entry is moved down
      have hmod := Nat.mod_lt (i * data.pieceLength) (show 0 < 2 ^ 32 by decide)
      have hdm := Nat.div_add_mod (i * data.pieceLength) (2 ^ 32)
      have hdiv : 1 ≤ i * data.pieceLength / 2 ^ 32 := (Nat.one_le_div_iff (by decide)).2 (Nat.not_lt.1 hlt)
      have hi' := h.lt_count_iff.1 hin
      omega
  have hlast : data.totalLength - 1 < ((outputFiles data).map (·.fileLength)).sum := by omega
  have hshort := ((within_nil (α := UInt8) ((outputFiles data).map (·.fileLength))).writeAll 0
    (order.map (pieceEntry data pieces))).length_flatten_lt hlast
    ((valueAt_writeAll_of_ge 0 hend).trans (valueAt_nil _ _))
  intro heq
  rw [heq, length_content h hp, hsum] at hshort
  exact lt_irrefl _ hshort

end Writes

/-! ## Files that are one -/

/-- no two files of the torrent are one file on disk, except empty ones -/
def FileSystem.Separate (fileSystem : FileSystem) (data : TorrentMetadata) : Prop :=
  Extents.Separate ((outputFiles data).map (·.fileLength)) ((openedPaths data).map fileSystem.file)

instance (fileSystem : FileSystem) (data : TorrentMetadata) : Decidable (fileSystem.Separate data) :=
  inferInstanceAs (Decidable (Extents.Separate _ _))

theorem FileManager.new_separate {fileSystem : FileSystem} {data : TorrentMetadata} {m : FileManager}
    (h : FileManager.new fileSystem data = some m) :
    Separate m.fileLengths m.openFiles ↔ fileSystem.Separate data := by
  obtain ⟨hfiles, hlens⟩ := FileManager.new_openFiles h
  rw [FileSystem.Separate, ← hfiles, ← hlens, separate_map (Option.some_injective _)]

section Marks

variable {data : TorrentMetadata} {f : ℕ → UInt8}

/-- pieces that have `f g` at position `g` -/
def piecesOf (data : TorrentMetadata) (f : ℕ → UInt8) (i : ℕ) : Bytes :=
  (List.range (currentPieceLength data i)).map fun j => f (i * data.pieceLength + j)

theorem piecesOf_fit (data : TorrentMetadata) (f : ℕ → UInt8) : PiecesFit data (piecesOf data f) := by
  intro i _
  rw [piecesOf, List.length_map, List.length_range]

theorem getElem?_piecesOf {i j : ℕ} {b : UInt8} (h : (piecesOf data f i)[j]? = some b) :
    j < currentPieceLength data i ∧ f (i * data.pieceLength + j) = b := by
  rw [piecesOf, List.getElem?_map, Option.map_eq_some_iff] at h
  obtain ⟨k, hk, rfl⟩ := h
  obtain ⟨hlt, hk⟩ := List.getElem?_eq_some_iff.1 hk
  rw [List.getElem_range] at hk
  rw [List.length_range] at hlt
  exact ⟨hlt, by rw [hk]⟩

theorem content_piecesOf (h : data.Consistent) (f : ℕ → UInt8) :
    content data (piecesOf data f) = (List.range data.totalLength).map f := by
  have hfit := piecesOf_fit data f
  apply List.ext_getElem?
  intro g
  by_cases hg : g < data.totalLength
  · have hpos := h.pieceLength_pos
    have hdm := Nat.div_add_mod g data.pieceLength
    have hmod := Nat.mod_lt g hpos
    rw [Nat.mul_comm] at hdm
    have hin : g / data.pieceLength < data.pieceHashes.length := h.lt_count_iff.2 (by omega)
    have hlen := length_piece h hfit hin
    have hread := getElem?_content h hfit hin (j := g % data.pieceLength) (by omega)
    rw [hdm] at hread
    rw [hread, List.getElem?_map, List.getElem?_range hg]
    rw [hfit _ hin] at hlen
    rw [piecesOf, List.getElem?_map, List.getElem?_range (by omega), Option.map_some, Option.map_some, hdm]
  · rw [List.getElem?_eq_none (by rw [length_content h hfit]; omega), List.getElem?_eq_none (by simp; omega)]

variable {m : FileManager} {order : List ℕ}

/-- where a byte that is no padding comes from -/
theorem FileManager.OnDisk.marked (h : data.Consistent) (hd : m.OnDisk)
    (horder : order.Perm (List.range data.pieceHashes.length))
    (hwritten : m.written = order.map (pieceEntry data (piecesOf data f))) {b : UInt8} (hb : b ≠ 0)
    (hmem : b ∈ m.files.flatten) : ∃ name i p j, (m.disk name)[i]? = some b ∧ p < data.pieceHashes.length ∧
      j < data.pieceLength ∧ f (p * data.pieceLength + j) = b ∧
      place m.fileLengths m.openFiles (p * data.pieceLength % 2 ^ 32 + j) = some (name, i) := by
  obtain ⟨file, hfile, hmem⟩ := List.mem_flatten.1 hmem
  obtain ⟨name, hname, rfl⟩ := List.mem_map.1 hfile
  obtain ⟨i, hi⟩ := List.getElem?_of_mem hmem
  obtain ⟨disk, hempty, hdisk⟩ := hd.disk
  have hi' := hi
  rw [hdisk] at hi'
  rcases writeAllNamed_traced hi' with rfl | hold | ⟨w, hw, j, hj, hplace⟩
  · exact absurd rfl hb
  · rw [hempty name hname] at hold
    cases hold
  · rw [hwritten] at hw
    obtain ⟨p, hp, rfl⟩ := List.mem_map.1 hw
    have hin := List.mem_range.1 (horder.mem_iff.1 hp)
    obtain ⟨hlt, hf⟩ := getElem?_piecesOf hj
    rw [h.currentPieceLength_eq hin] at hlt
    exact ⟨name, i, p, j, hi, hin, by omega, hf, hplace⟩

/-- **One file of two names**: a byte of it is there twice, or not at all. -/
theorem shared_garbled (h : data.Consistent)
    (hsmall : ∀ i < data.pieceHashes.length, i * data.pieceLength < 2 ^ 32) {names : List Bytes}
    (hsep : ¬ Separate ((outputFiles data).map (·.fileLength)) names) :
    ∃ f : ℕ → UInt8, ∀ (m : FileManager) (order : List ℕ), m.OnDisk →
      m.fileLengths = (outputFiles data).map (·.fileLength) → m.openFiles = names →
      order.Perm (List.range data.pieceHashes.length) → m.written = order.map (pieceEntry data (piecesOf data f)) →
      m.files.flatten ≠ content data (piecesOf data f) := by
  obtain ⟨name, k, l, hsub, hpos⟩ := exists_alias hsep
  -- where the file begins
  obtain ⟨g, hg, hplace⟩ : ∃ g < ((outputFiles data).map (·.fileLength)).sum,
      place ((outputFiles data).map (·.fileLength)) names g = some (name, 0) := by
    rcases hpos with hpos | hpos
    · exact exists_place (hsub.subset List.mem_cons_self) hpos
    · exact exists_place (hsub.subset (List.mem_cons_of_mem _ List.mem_cons_self)) hpos
  rw [h.sum_outputFiles] at hg
  refine ⟨fun x => if x = g then 1 else 0, fun m order hd hlens hnames horder hwritten heq => ?_⟩
  have hnames' : [name, name].Sublist m.openFiles := by
    have hfst := hsub.map Prod.fst
    have hlen := hd.length
    rw [hlens, hnames] at hlen
    rw [List.map_fst_zip hlen.le] at hfst
    rwa [hnames]
  rw [content_piecesOf h] at heq
  have hone : ((List.range data.totalLength).map fun x => if x = g then (1 : UInt8) else 0).count 1 = 1 := by
    have hcongr : ∀ x ∈ List.range data.totalLength, ((if x = g then (1 : UInt8) else 0) == 1) = (x == g) := by
      intro x _
      by_cases hx : x = g <;> simp [hx]
    rw [List.count, List.countP_map, Function.comp_def, List.countP_congr fun x hx => by rw [hcongr x hx]]
    exact List.count_eq_one_of_mem List.nodup_range (List.mem_range.2 hg)
  have hmem : (1 : UInt8) ∈ m.files.flatten := by
    rw [heq]
    exact List.one_le_count_iff.1 hone.ge
  obtain ⟨name', i, p, j, hi, hp, hj, hf, hplace'⟩ := hd.marked h horder hwritten (by decide) hmem
  have hat : p * data.pieceLength + j = g := by
    by_contra hne
    simp [hne] at hf
  rw [Nat.mod_eq_of_lt (hsmall p hp), hat, hlens, hnames, hplace, Option.some.injEq, Prod.mk.injEq] at hplace'
  obtain ⟨rfl, rfl⟩ := hplace'
  -- it is in both files
  have htwice := count_alias m.disk 1 hnames'
  have hpos : 1 ≤ (m.disk name).count 1 := List.one_le_count_iff.2 (List.mem_of_getElem? hi)
  rw [← FileManager.files, heq, hone] at htwice
  omega

/-- **A large torrent**: two positions have the same place, and only one byte can be there. -/
theorem large_garbled (h : data.Consistent) (hbig : ∃ i < data.pieceHashes.length, 2 ^ 32 ≤ i * data.pieceLength) :
    ∃ f : ℕ → UInt8, ∀ (m : FileManager) (order : List ℕ), m.OnDisk → order.Perm (List.range data.pieceHashes.length) →
      m.written = order.map (pieceEntry data (piecesOf data f)) →
      m.files.flatten ≠ content data (piecesOf data f) := by
  obtain ⟨b, hb, hbig⟩ := hbig
  have hpos := h.pieceLength_pos
  have hend := h.lt_count_iff.1 hb
  have hmod := Nat.mod_lt (b * data.pieceLength) (show 0 < 2 ^ 32 by decide)
  generalize hlow : b * data.pieceLength % 2 ^ 32 = g at hmod
  refine ⟨fun x => if x = b * data.pieceLength then 1 else if x = g then 2 else 0,
    fun m order hd horder hwritten heq => ?_⟩
  rw [content_piecesOf h] at heq
  have hone : (1 : UInt8) ∈ m.files.flatten := by
    rw [heq]
    exact List.mem_map.2 ⟨_, List.mem_range.2 hend, if_pos rfl⟩
  have htwo : (2 : UInt8) ∈ m.files.flatten := by
    rw [heq]
    exact List.mem_map.2 ⟨g, List.mem_range.2 (by omega), by rw [if_neg (by omega), if_pos rfl]⟩
  obtain ⟨name, i, p, j, hi, -, hj, hf, hplace⟩ := hd.marked h horder hwritten (by decide) hone
  obtain ⟨name', i', p', j', hi', -, hj', hf', hplace'⟩ := hd.marked h horder hwritten (by decide) htwo
  -- the one is the first byte of its piece, the other below 2^32
  have hat : p * data.pieceLength + j = b * data.pieceLength := by
    by_contra hne
    rw [if_neg hne] at hf
    split_ifs at hf <;> exact absurd hf (by decide)
  have hat' : p' * data.pieceLength + j' = g := by
    by_contra hne
    rw [if_neg hne] at hf'
    split_ifs at hf' <;> exact absurd hf' (by decide)
  have hj0 : j = 0 := by
    have hmod' := congrArg (· % data.pieceLength) hat
    simpa [Nat.mod_eq_of_lt hj] using hmod'
  rw [hj0, Nat.add_zero] at hat
  rw [hat, hlow, hj0, Nat.add_zero] at hplace
  rw [Nat.mod_eq_of_lt (show p' * data.pieceLength < 2 ^ 32 by omega), hat', hplace, Option.some.injEq,
    Prod.mk.injEq] at hplace'
  obtain ⟨rfl, rfl⟩ := hplace'
  rw [hi] at hi'
  exact absurd (Option.some.inj hi') (by decide)

end Marks

/-! ## Runs -/

namespace Session

def Op.isSave : Op → Bool
  | .savePiece _ _ => true
  | _ => false

theorem saves_filter (ops : List Op) : saves (ops.filter Op.isSave) = saves ops := by
  rw [saves, saves, List.filterMap_filter]
  congr 1
  funext o
  cases o <;> rfl

variable {fileSystem : FileSystem} {data : TorrentMetadata} {s₀ : Session} {pieces : ℕ → Bytes} {order : List ℕ}
  {ops : List Op}

theorem init_enqueued (hnew : init fileSystem data = some s₀) : s₀.fileManager.enqueued = [] := by
  obtain ⟨openFiles, disk, -, hm⟩ := FileManager.new_eq_some.1 (init_eq_some.1 hnew).1
  rw [hm]

/-- a run that saves the pieces goes through -/
theorem run_pieces (h : data.Consistent) (hnew : init fileSystem data = some s₀) (hp : PiecesFit data pieces)
    (horder : order.Perm (List.range data.pieceHashes.length))
    (hops : ops.filter Op.isSave = order.map (saveOp data pieces)) :
    ∃ s, s₀.run ops = .ok s ∧ s.fileManager.OnDisk ∧ s.fileManager.openFiles = s₀.fileManager.openFiles ∧
      s.fileManager.fileLengths = (outputFiles data).map (·.fileLength) ∧
      s.fileManager.enqueued = order.map (pieceEntry data pieces) := by
  obtain ⟨-, hlens₀⟩ := FileManager.new_openFiles (init_eq_some.1 hnew).1
  have hsaves : saves ops = order.map (pieceEntry data pieces) := by rw [← saves_filter, hops, saves_saveOp]
  have hin : ∀ value ∈ saves ops, InRange s₀.fileManager.fileLengths value := by
    intro value hv
    rw [hsaves] at hv
    obtain ⟨i, hi, rfl⟩ := List.mem_map.1 hv
    rw [hlens₀]
    exact pieceEntry_inRange h hp (List.mem_range.1 (horder.mem_iff.1 hi))
  obtain ⟨s, hs, hd, hfiles, hlens, henq⟩ := run_onDisk (FileManager.new_onDisk (init_eq_some.1 hnew).1) ops hin
  exact ⟨s, hs, hd, hfiles, hlens.trans hlens₀, by rw [henq, hsaves, init_enqueued hnew, List.nil_append]⟩

/-! ## The writer left alone -/

/-- one turn of the writer's loop takes one entry from the queue to the files -/
theorem writer_turn {s : Session} (h : s.fileManager.OnDisk) (hstop : s.stopDownload = false)
    (hw : s.fileManager.writer = .test) {value : ℕ × Bytes} {queue : List (ℕ × Bytes)}
    (hq : s.fileManager.writeQueue = value :: queue) (hcount : s.fileManager.writeCount ≠ s.fileManager.numPieces) :
    ∃ t, s.run (List.replicate 3 .writer) = .ok t ∧ t.stopDownload = false ∧ t.fileManager.writer = .test ∧
      t.fileManager.writeQueue = queue ∧ t.fileManager.enqueued = s.fileManager.enqueued ∧
      t.fileManager.numPieces = s.fileManager.numPieces := by
  have hmem : value ∈ s.fileManager.enqueued := by
    rw [h.queue.fifo, hq]
    simp
  obtain ⟨disk, hdisk⟩ : ∃ disk, s.fileManager.writeValue value = .ok disk :=
    ⟨_, FileManager.writeValue_spec h.length (h.inRange value hmem)⟩
  set m := { s.fileManager with writeQueue := queue, writer := .write value } with hm
  set m' := { m with
    disk := disk
    writer := .test
    writeCount := (m.writeCount + 1) % 2 ^ 32
    written := m.written ++ [value] } with hm'
  have h1 : s.step .writer = .ok ⟨{ s.fileManager with writer := .dequeue }, false⟩ := by
    simp [step, FileManager.fileWriter, hw, hstop, hcount]
  have h2 : step ⟨{ s.fileManager with writer := .dequeue }, false⟩ .writer = .ok ⟨m, false⟩ := by
    simp [step, FileManager.fileWriter, hq, hm]
  have h3 : step ⟨m, false⟩ .writer = .ok ⟨m', false⟩ := by
    have hdisk' : m.writeValue value = .ok disk := hdisk
    simp only [step, FileManager.fileWriter, show m.writer = .write value from rfl, hdisk', ok_bind, pure_eq_ok]
    rfl
  refine ⟨⟨m', false⟩, ?_, rfl, rfl, rfl, rfl, rfl⟩
  calc s.run (List.replicate 3 .writer) = s.run [.writer, .writer, .writer] := rfl
    _ = run ⟨{ s.fileManager with writer := .dequeue }, false⟩ [.writer, .writer] := by
        rw [run, runM_cons, h1, ok_bind, run]
    _ = run ⟨m, false⟩ [.writer] := by rw [run, runM_cons, h2, ok_bind, run]
    _ = .ok ⟨m', false⟩ := by rw [run, runM_cons, h3, ok_bind, runM_nil]

/-- **The writer processes everything** if nobody stops it, and no more than `num_pieces_` entries were enqueued. -/
theorem drain {s : Session} (h : s.fileManager.OnDisk) (hstop : s.stopDownload = false)
    (hw : s.fileManager.writer = .test) (hle : s.fileManager.enqueued.length ≤ s.fileManager.numPieces) {k : ℕ}
    (hk : s.fileManager.writeQueue.length = k) :
    ∃ t, s.run (List.replicate (3 * k) .writer) = .ok t ∧ t.fileManager.written = t.fileManager.enqueued := by
  induction k generalizing s with
  | zero =>
    refine ⟨s, rfl, ?_⟩
    rw [h.queue.fifo, FileManager.inHand, hw, List.eq_nil_of_length_eq_zero hk]
    simp
  | succ k ih =>
    obtain ⟨value, queue, hq⟩ := List.exists_cons_of_length_eq_add_one hk
    have hlen := congrArg List.length h.queue.fifo
    rw [hq] at hlen hk
    simp only [List.length_append, List.length_cons] at hlen
    have hsmall := h.queue.small
    have hcount : s.fileManager.writeCount ≠ s.fileManager.numPieces := by
      rw [h.queue.count, Nat.mod_eq_of_lt (by omega)]
      omega
    obtain ⟨t, ht, hstop', hw', hq', henq, hnum⟩ := writer_turn h hstop hw hq hcount
    obtain ⟨t', ht', htd, -⟩ := run_onDisk h (List.replicate 3 .writer) fun value hv => by cases hv
    obtain rfl : t = t' := Except.ok.inj (ht.symm.trans ht')
    obtain ⟨u, hu, hdone⟩ := ih htd hstop' hw' (by rw [henq, hnum]; exact hle) (by rw [hq']; exact Nat.succ.inj hk)
    refine ⟨u, ?_, hdone⟩
    calc s.run (List.replicate (3 * (k + 1)) .writer)
        = s.run (List.replicate 3 Op.writer ++ List.replicate (3 * k) .writer) := by
          rw [List.replicate_append_replicate, Nat.mul_succ, Nat.add_comm]
      _ = s.run (List.replicate 3 .writer) >>= fun t => t.run (List.replicate (3 * k) .writer) := by
          simp only [run, runM_append]
      _ = .ok u := by rw [ht, ok_bind, hu]

/-- **Disk assembly.** Once the files are open, every run that saves all pieces, in any order, goes through; and when
every entry has been processed, the files together are the pieces together exactly if every piece starts below 2^32,
provided that no two files are one. If some are, there are pieces for which they are not, whatever the order. -/
theorem disk_assembly_iff (fileSystem : FileSystem) (data : TorrentMetadata) (h : data.Consistent) (s₀ : Session)
    (hnew : init fileSystem data = some s₀) :
    (∀ pieces, PiecesFit data pieces → ∀ order : List ℕ, order.Perm (List.range data.pieceHashes.length) → ∀ ops,
      ops.filter Op.isSave = order.map (saveOp data pieces) →
      (∃ s, s₀.run ops = .ok s) ∧
        ∀ s, s₀.run ops = .ok s → s.fileManager.written = s.fileManager.enqueued → fileSystem.Separate data →
          (s.fileManager.files.flatten = (List.range data.pieceHashes.length).flatMap pieces ↔
            ∀ i < data.pieceHashes.length, i * data.pieceLength < 2 ^ 32)) ∧
    (¬ fileSystem.Separate data → ∃ pieces, PiecesFit data pieces ∧
      ∀ order : List ℕ, order.Perm (List.range data.pieceHashes.length) → ∀ ops,
        ops.filter Op.isSave = order.map (saveOp data pieces) → ∀ s, s₀.run ops = .ok s →
          s.fileManager.written = s.fileManager.enqueued →
          s.fileManager.files.flatten ≠ (List.range data.pieceHashes.length).flatMap pieces) := by
  have hm := (init_eq_some.1 hnew).1
  obtain ⟨-, hlens₀⟩ := FileManager.new_openFiles hm
  have hsep' := FileManager.new_separate hm
  constructor
  · intro pieces hp order horder ops hops
    obtain ⟨t, ht, hd, hfiles, hlens, henq⟩ := run_pieces h hnew hp horder hops
    refine ⟨⟨t, ht⟩, fun s hs hdone hsep => ?_⟩
    obtain rfl : s = t := Except.ok.inj (hs.symm.trans ht)
    have hseparate : Separate s.fileManager.fileLengths s.fileManager.openFiles := by
      rw [hfiles, hlens, ← hlens₀]
      exact hsep'.2 hsep
    rw [hd.files hseparate, hdone, henq, hlens]
    constructor
    · intro heq i hi
      by_contra hbig
      exact not_assembled h hp horder ⟨i, hi, Nat.not_lt.1 hbig⟩ heq
    · exact assembled h hp horder
  · intro hsep
    obtain ⟨f, hf⟩ : ∃ f : ℕ → UInt8, ∀ (m : FileManager) (order : List ℕ), m.OnDisk →
        m.fileLengths = (outputFiles data).map (·.fileLength) → m.openFiles = s₀.fileManager.openFiles →
        order.Perm (List.range data.pieceHashes.length) → m.written = order.map (pieceEntry data (piecesOf data f)) →
        m.files.flatten ≠ content data (piecesOf data f) := by
      by_cases hsmall : ∀ i < data.pieceHashes.length, i * data.pieceLength < 2 ^ 32
      · exact shared_garbled h hsmall (hlens₀ ▸ mt hsep'.1 hsep)
      · push Not at hsmall
        obtain ⟨f, hf⟩ := large_garbled h hsmall
        exact ⟨f, fun m order hd _ _ => hf m order hd⟩
    refine ⟨_, piecesOf_fit data f, fun order horder ops hops s hs hdone => ?_⟩
    obtain ⟨t, ht, hd, hfiles, hlens, henq⟩ := run_pieces h hnew (piecesOf_fit data f) horder hops
    obtain rfl : s = t := Except.ok.inj (hs.symm.trans ht)
    exact hf _ order hd hlens hfiles horder (hdone.trans henq)

/-- two files of two bytes and an empty one between them, in pieces of three bytes -/
def threeFiles : TorrentMetadata :=
  ⟨[], [[], []], 3, 4, [100], [], [⟨2, [[100], [97]]⟩, ⟨0, [[100], [98]]⟩, ⟨2, [[100], [99]]⟩]⟩

def threeFilesPieces (i : ℕ) : Bytes := if i = 0 then [1, 2, 3] else [4]

/-- the second piece is saved first -/
def threeFilesOps : List Op := [1, 0].map (saveOp threeFiles threeFilesPieces) ++ List.replicate 6 .writer

theorem disk_assembly_threeFiles : ∃ s₀ s, init .plain threeFiles = some s₀ ∧ s₀.run threeFilesOps = .ok s ∧
    s.fileManager.files.flatten = [1, 2, 3, 4] :=
  ⟨_, _, rfl, rfl, (((disk_assembly_iff .plain threeFiles ⟨by decide, by decide, by decide, by decide, by decide⟩ _
    rfl).1 threeFilesPieces (show ∀ i < 2, _ by decide) [1, 0] (by decide) threeFilesOps (by decide)).2 _ rfl
      (by decide) (by decide)).2 (show ∀ i < 2, _ by decide)⟩

example : ∃ s₀ s, init .plain threeFiles = some s₀ ∧ s₀.run threeFilesOps = .ok s ∧
    s.fileManager.files = [[1, 2], [], [3, 4]] :=
  ⟨_, _, rfl, rfl, by decide⟩

/-- two files of one byte and one name -/
def sharedFile : TorrentMetadata := ⟨[], [[], []], 1, 2, [100], [], [⟨1, [[100], [97]]⟩, ⟨1, [[100], [97]]⟩]⟩

/-- **One name twice**: the second byte is in both files. -/
theorem shared_file_garbled : ∃ s₀ s, init .plain sharedFile = some s₀ ∧
    s₀.run ([0, 1].map (saveOp sharedFile fun i => [UInt8.ofNat i]) ++ List.replicate 6 .writer) = .ok s ∧
    s.fileManager.files = [[1], [1]] :=
  ⟨_, _, rfl, rfl, by decide⟩

/-- a run of saves only fills the queue -/
theorem run_saves (data : TorrentMetadata) (pieces : ℕ → Bytes) (order : List ℕ) (s : Session) :
    ∃ t, s.run (order.map (saveOp data pieces)) = .ok t ∧ t.stopDownload = s.stopDownload ∧
      t.fileManager.writer = s.fileManager.writer ∧ t.fileManager.numPieces = s.fileManager.numPieces ∧
      t.fileManager.writeQueue = s.fileManager.writeQueue ++ saves (order.map (saveOp data pieces)) := by
  induction order generalizing s with
  | nil => exact ⟨s, rfl, rfl, rfl, rfl, (List.append_nil _).symm⟩
  | cons i order ih =>
    obtain ⟨u, hu, hstop, hw, hnum, hq⟩ := ih ⟨s.fileManager.savePiece
      (fileOffset (data.pieceLength % 2 ^ 32) (i % 2 ^ 32)) (pieces i), s.stopDownload⟩
    refine ⟨u, ?_, hstop, hw, hnum, ?_⟩
    · rw [List.map_cons, run, runM_cons]
      exact hu
    · rw [hq, FileManager.savePiece, List.append_assoc]
      rfl

/-- **Everything can be processed**: fewer than 2^32 pieces are saved, and then the writer is left alone. -/
theorem run_all (h : data.Consistent) (hnew : init fileSystem data = some s₀) (hp : PiecesFit data pieces)
    (hn : data.pieceHashes.length < 2 ^ 32) :
    ∃ ops s, ops.filter Op.isSave = (List.range data.pieceHashes.length).map (saveOp data pieces) ∧
      s₀.run ops = .ok s ∧ s.fileManager.written = s.fileManager.enqueued := by
  obtain ⟨openFiles, disk, -, hm⟩ := FileManager.new_eq_some.1 (init_eq_some.1 hnew).1
  set order := List.range data.pieceHashes.length with horder
  have hfilter : (order.map (saveOp data pieces)).filter Op.isSave = order.map (saveOp data pieces) := by
    apply List.filter_eq_self.2
    intro o ho
    obtain ⟨i, -, rfl⟩ := List.mem_map.1 ho
    rfl
  obtain ⟨u, hu, hd, -, -, henq⟩ := run_pieces h hnew hp (List.Perm.refl _) hfilter
  obtain ⟨u', hu', hstop, hw, hnum, hq⟩ := run_saves data pieces order s₀
  obtain rfl : u = u' := Except.ok.inj (hu.symm.trans hu')
  rw [hm] at hw hnum hq
  have hlen : u.fileManager.enqueued.length = data.pieceHashes.length := by
    rw [henq, List.length_map, List.length_range]
  have hle : u.fileManager.enqueued.length ≤ u.fileManager.numPieces := by
    rw [hlen, hnum]
    exact (Nat.mod_eq_of_lt hn).ge
  have hqlen : u.fileManager.writeQueue.length = data.pieceHashes.length := by
    rw [hq, saves_saveOp, List.length_append, List.length_map, horder, List.length_range]
    exact Nat.zero_add _
  obtain ⟨s, hs, hdone⟩ := drain hd (hstop.trans (init_eq_some.1 hnew).2) hw hle hqlen
  refine ⟨order.map (saveOp data pieces) ++ List.replicate (3 * data.pieceHashes.length) .writer, s, ?_, ?_, hdone⟩
  · rw [List.filter_append, hfilter, List.filter_replicate]
    exact List.append_nil _
  · rw [run] at hu hs ⊢
    rw [runM_append, hu, ok_bind, hs]

/-- 2^32 + 1 bytes in pieces of 2^31 -/
def largeFile : TorrentMetadata := .ofHashes [[], [], []] (2 ^ 31) (2 ^ 32 + 1)

/-- **Garbled**: the last byte of a large file is written over the first. -/
theorem large_file_garbled : ∃ s₀ ops s, largeFile.Consistent ∧ FileSystem.plain.Separate largeFile ∧
    init .plain largeFile = some s₀ ∧
    PiecesFit largeFile (fun i => List.replicate (currentPieceLength largeFile i) 7) ∧
    ops.filter Op.isSave = [0, 1, 2].map (saveOp largeFile fun i => List.replicate (currentPieceLength largeFile i) 7) ∧
    s₀.run ops = .ok s ∧ s.fileManager.written = s.fileManager.enqueued ∧
    s.fileManager.files.flatten ≠ [0, 1, 2].flatMap fun i => List.replicate (currentPieceLength largeFile i) 7 := by
  have h : largeFile.Consistent := ⟨by decide, by decide, by decide, by decide, fun hne => absurd rfl hne⟩
  have hp : PiecesFit largeFile (fun i => List.replicate (currentPieceLength largeFile i) 7) :=
    fun i _ => List.length_replicate
  have hsep : FileSystem.plain.Separate largeFile := List.pairwise_singleton _ _
  obtain ⟨s₀, hnew⟩ : ∃ s₀, init .plain largeFile = some s₀ := ⟨_, rfl⟩
  have hm := (init_eq_some.1 hnew).1
  obtain ⟨ops, s, hops, hs, hdone⟩ := run_all h hnew hp (by decide)
  obtain ⟨s', hs', hd, hfiles, hlens, henq⟩ := run_pieces h hnew hp (List.Perm.refl _) hops
  obtain rfl : s = s' := Except.ok.inj (hs.symm.trans hs')
  refine ⟨s₀, ops, s, h, hsep, hnew, hp, hops, hs, hdone, ?_⟩
  have hseparate : Separate s.fileManager.fileLengths s.fileManager.openFiles := by
    rw [hfiles, hlens, ← (FileManager.new_openFiles hm).2]
    exact (FileManager.new_separate hm).2 hsep
  rw [hd.files hseparate, hdone, henq, hlens]
  exact not_assembled h hp (List.Perm.refl _) ⟨2, by decide, by decide⟩

end Session

end SimpleTorrent
