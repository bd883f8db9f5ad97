/-
What a torrent says, and what the parser makes of it.

- `Entries`: the entries of the info dictionary that the parser reads; `Entries.In` finds them in a decoded torrent.
- `Entries.Gives`: the metadata that they stand for.
- `readTorrent_entries`: an accepted torrent has such entries, and they give its metadata.
-/
import SimpleTorrent.Model.Parser

namespace SimpleTorrent.Parser

open Checked Bencode

/-! ## Entries -/

/-- an entry of the list of files -/
structure File where
  length : ℤ
  path : List Bytes
deriving DecidableEq, Repr

/-- one file of some length, or a list of files -/
inductive Content where
  | single (length : ℤ)
  | multi (files : List File)
deriving DecidableEq, Repr

structure Entries where
  pieces : Bytes
  pieceLength : ℤ
  name : Bytes
  content : Content
deriving DecidableEq, Repr

def File.In (f : Bencode) (file : File) : Prop :=
  ∃ d, f = .dict d ∧ d.lookup lengthKey = some (.integer file.length) ∧
    d.lookup pathKey = some (.list (file.path.map .string))

/-- a "length" makes a torrent a single file, whatever else is there -/
def Content.In (info : List (Bytes × Bencode)) : Content → Prop
  | .single length => info.lookup lengthKey = some (.integer length)
  | .multi files => info.lookup lengthKey = none ∧
      ∃ l, info.lookup filesKey = some (.list l) ∧ List.Forall₂ File.In l files

/-- the entries of a decoded torrent -/
def Entries.In (torrent : Bencode) (e : Entries) : Prop :=
  ∃ d info, torrent = .dict d ∧ d.lookup infoKey = some (.dict info) ∧
    info.lookup piecesKey = some (.string e.pieces) ∧ info.lookup pieceLengthKey = some (.integer e.pieceLength) ∧
    info.lookup nameKey = some (.string e.name) ∧ e.content.In info

/-! ## Metadata -/

/-- the lengths, converted -/
def Content.lengths : Content → List ℕ
  | .single length => [toUint64 length]
  | .multi files => files.map fun f => toUint64 f.length

/-- the root folder is prepended to every path -/
def Content.files (name : Bytes) : Content → List FileMetadata
  | .single _ => []
  | .multi files => files.map fun f => ⟨toUint64 f.length, name :: f.path⟩

structure Entries.Gives (e : Entries) (data : TorrentMetadata) : Prop where
  pieceHashes : data.pieceHashes = splitPieces e.pieces
  pieceLength : data.pieceLength = toUint64 e.pieceLength
  outputPath : data.outputPath = e.name
  totalLength : data.totalLength = e.content.lengths.sum % 2 ^ 64
  files : data.files = e.content.files e.name

theorem toUint64_lt (n : ℤ) : toUint64 n < 2 ^ 64 := by
  rw [toUint64]
  omega

/-! ## What is read -/

theorem dictAt_eq_ok {d : List (Bytes × Bencode)} {key : Bytes} {v : Bencode} :
    dictAt d key = .ok v ↔ d.lookup key = some v := by
  rw [dictAt]
  split
  · rename_i h
    rw [h, Except.ok.injEq, Option.some.injEq]
  · rename_i h
    simp [h]

theorem getDict_eq_ok {v : Bencode} {d : List (Bytes × Bencode)} : v.getDict = .ok d ↔ v = .dict d := by
  cases v <;> simp [getDict]

theorem getList_eq_ok {v : Bencode} {l : List Bencode} : v.getList = .ok l ↔ v = .list l := by
  cases v <;> simp [getList]

theorem getString_eq_ok {v : Bencode} {s : Bytes} : v.getString = .ok s ↔ v = .string s := by
  cases v <;> simp [getString]

theorem getInteger_eq_ok {v : Bencode} {n : ℤ} : v.getInteger = .ok n ↔ v = .integer n := by
  cases v <;> simp [getInteger]

/-- an entry of some type -/
theorem entry_eq_ok {α : Type} {d : List (Bytes × Bencode)} {key : Bytes} {get : Bencode → Except BencodeError α}
    {make : α → Bencode} (hget : ∀ v a, get v = .ok a ↔ v = make a) {a : α} :
    dictAt d key >>= get = .ok a ↔ d.lookup key = some (make a) := by
  rw [bind_eq_ok]
  constructor
  · intro h
    obtain ⟨v, hv, ha⟩ := h
    rw [dictAt_eq_ok.1 hv, (hget v a).1 ha]
  · intro h
    exact ⟨make a, dictAt_eq_ok.2 h, (hget _ a).2 rfl⟩

theorem mapM_getString_eq_ok {l : List Bencode} {path : List Bytes} :
    l.mapM getString = .ok path ↔ l = path.map .string := by
  rw [mapM_eq_ok]
  constructor
  · intro h
    induction h with
    | nil => rfl
    | cons hs _ ih => rw [List.map_cons, ← ih, getString_eq_ok.1 hs]
  · intro h
    rw [h, List.forall₂_map_left_iff, List.forall₂_same]
    exact fun s _ => rfl

theorem addFile_eq_ok {name : Bytes} {f : Bencode} {file : FileMetadata} (h : addFile name f = .ok file) :
    ∃ entry : File, entry.In f ∧ file = ⟨toUint64 entry.length, name :: entry.path⟩ := by
  obtain ⟨d, hd, h⟩ := bind_eq_ok.1 h
  obtain ⟨v, hv, h⟩ := bind_eq_ok.1 h
  obtain ⟨length, hlength, h⟩ := bind_eq_ok.1 h
  obtain ⟨w, hw, h⟩ := bind_eq_ok.1 h
  obtain ⟨l, hl, h⟩ := bind_eq_ok.1 h
  obtain ⟨path, hpath, h⟩ := bind_eq_ok.1 h
  cases h
  refine ⟨⟨length, path⟩, ⟨d, getDict_eq_ok.1 hd, ?_, ?_⟩, rfl⟩
  · rw [dictAt_eq_ok.1 hv, getInteger_eq_ok.1 hlength]
  · rw [dictAt_eq_ok.1 hw, getList_eq_ok.1 hl, mapM_getString_eq_ok.1 hpath]

theorem addFiles_list {name : Bytes} {l : List Bencode} {files : List FileMetadata}
    (h : l.mapM (addFile name) = .ok files) :
    ∃ entries : List File, List.Forall₂ File.In l entries ∧ files = (Content.multi entries).files name := by
  induction mapM_eq_ok.1 h with
  | nil => exact ⟨[], .nil, rfl⟩
  | cons hfile hrest ih =>
    obtain ⟨entry, hentry, rfl⟩ := addFile_eq_ok hfile
    obtain ⟨entries, hentries, rfl⟩ := ih (mapM_eq_ok.2 hrest)
    exact ⟨entry :: entries, .cons hentry hentries, rfl⟩

/-- the sum wraps at 2^64, which is the same at each addition or at the end -/
theorem foldl_total (files : List FileMetadata) (total : ℕ) :
    files.foldl (fun totalLength file => (totalLength + file.fileLength) % 2 ^ 64) total % 2 ^ 64 =
      (total + (files.map (·.fileLength)).sum) % 2 ^ 64 := by
  induction files generalizing total with
  | nil => simp
  | cons file files ih =>
    rw [List.foldl_cons, ih, List.map_cons, List.sum_cons, Nat.mod_add_mod, Nat.add_assoc]

theorem foldl_total_lt (files : List FileMetadata) {total : ℕ} (h : total < 2 ^ 64) :
    files.foldl (fun totalLength file => (totalLength + file.fileLength) % 2 ^ 64) total < 2 ^ 64 := by
  induction files generalizing total with
  | nil => exact h
  | cons file files ih => exact ih (Nat.mod_lt _ (by decide))

theorem map_fileLength (name : Bytes) (files : List File) :
    ((Content.multi files).files name).map (·.fileLength) = (Content.multi files).lengths := by
  rw [Content.files, List.map_map]
  rfl

theorem addFiles_eq_ok {info : List (Bytes × Bencode)} {name : Bytes} {total : ℕ} {files : List FileMetadata}
    (h : addFiles info name = .ok (total, files)) :
    ∃ content : Content, content.In info ∧ total = content.lengths.sum % 2 ^ 64 ∧ files = content.files name := by
  rw [addFiles] at h
  split at h
  · rename_i v hv
    obtain ⟨n, hn, h⟩ := bind_eq_ok.1 h
    cases h
    refine ⟨.single n, by rw [Content.In, hv, getInteger_eq_ok.1 hn], ?_, rfl⟩
    rw [Content.lengths, List.sum_singleton, Nat.mod_eq_of_lt (toUint64_lt n)]
  · rename_i hnone
    obtain ⟨v, hv, h⟩ := bind_eq_ok.1 h
    obtain ⟨l, hl, h⟩ := bind_eq_ok.1 h
    obtain ⟨fs, hfs, h⟩ := bind_eq_ok.1 h
    cases h
    obtain ⟨entries, hentries, rfl⟩ := addFiles_list hfs
    refine ⟨.multi entries, ⟨hnone, l, by rw [dictAt_eq_ok.1 hv, getList_eq_ok.1 hl], hentries⟩, ?_, rfl⟩
    have hfold := foldl_total ((Content.multi entries).files name) 0
    rwa [Nat.mod_eq_of_lt (foldl_total_lt _ (by decide)), Nat.zero_add, map_fileLength] at hfold

variable {sha1 : Bytes → Bytes} {torrent : Bencode} {data : TorrentMetadata}

/-- the steps of an accepted torrent -/
theorem readTorrent_steps (h : readTorrent sha1 torrent = .ok data) : ∃ d info pieceHashes trackers name text pieceLength
    total files, torrent = .dict d ∧ d.lookup infoKey = some (.dict info) ∧ parsePieceHash info = .ok pieceHashes ∧
      info.lookup nameKey = some (.string name) ∧ infoString d = .ok text ∧
      info.lookup pieceLengthKey = some (.integer pieceLength) ∧ addFiles info name = .ok (total, files) ∧
      data = ⟨trackers, pieceHashes, toUint64 pieceLength, total, name, checksumFinal sha1 text, files⟩ := by
  obtain ⟨d, hd, h⟩ := bind_eq_ok.1 h
  obtain ⟨info, hinfo, h⟩ := bind_eq_ok.1 h
  obtain ⟨pieceHashes, hhashes, h⟩ := bind_eq_ok.1 h
  obtain ⟨trackers, -, h⟩ := bind_eq_ok.1 h
  split_ifs at h
  obtain ⟨name, hname, h⟩ := bind_eq_ok.1 h
  obtain ⟨text, htext, h⟩ := bind_eq_ok.1 h
  obtain ⟨pieceLength, hlength, h⟩ := bind_eq_ok.1 h
  obtain ⟨⟨total, files⟩, hfiles, h⟩ := bind_eq_ok.1 h
  cases h
  rw [mapError_eq_ok] at hd hinfo hhashes hname htext hlength hfiles
  exact ⟨d, info, pieceHashes, trackers, name, text, pieceLength, total, files, getDict_eq_ok.1 hd,
    (entry_eq_ok fun _ _ => getDict_eq_ok).1 hinfo, hhashes, (entry_eq_ok fun _ _ => getString_eq_ok).1 hname, htext,
    (entry_eq_ok fun _ _ => getInteger_eq_ok).1 hlength, hfiles, rfl⟩

/-- **What the parser reads.** -/
theorem readTorrent_entries (h : readTorrent sha1 torrent = .ok data) :
    ∃ e : Entries, e.In torrent ∧ e.Gives data := by
  obtain ⟨d, info, pieceHashes, trackers, name, text, pieceLength, total, files, hd, hinfo, hhashes, hname, -, hlength,
    hfiles, rfl⟩ := readTorrent_steps h
  obtain ⟨v, hv, hhashes⟩ := bind_eq_ok.1 hhashes
  obtain ⟨pieces, hpieces, hhashes⟩ := bind_eq_ok.1 hhashes
  cases hhashes
  obtain ⟨content, hcontent, htotal, hfiles⟩ := addFiles_eq_ok hfiles
  have hread : info.lookup piecesKey = some (.string pieces) := by rw [dictAt_eq_ok.1 hv, getString_eq_ok.1 hpieces]
  exact ⟨⟨pieces, pieceLength, name, content⟩, ⟨d, info, hd, hinfo, hread, hlength, hname, hcontent⟩,
    rfl, rfl, rfl, htotal, hfiles⟩

/-- what is hashed -/
theorem readTorrent_infoHash (h : readTorrent sha1 torrent = .ok data) : ∃ d info, torrent = .dict d ∧
    d.lookup infoKey = some info ∧ data.infoHash = checksumFinal sha1 (encode info) := by
  obtain ⟨d, info, -, -, -, text, -, -, -, hd, hinfo, -, -, htext, -, -, rfl⟩ := readTorrent_steps h
  obtain ⟨v, hv, htext⟩ := bind_eq_ok.1 htext
  cases htext
  exact ⟨d, v, hd, dictAt_eq_ok.1 hv, rfl⟩

end SimpleTorrent.Parser
