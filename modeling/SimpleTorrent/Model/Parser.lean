/-
`parse_torrent_file` (`parser.cpp`).

The text of a file, if it can be opened, is decoded, and the metadata are put together from the entries of two
dictionaries. Integers are signed, and are converted to `uint64_t`. Whatever is thrown becomes one `ParseException`.
-/
import SimpleTorrent.Model.Bencode

namespace SimpleTorrent

open Checked Bencode

/-! ## Keys -/

/-- "announce" -/
def announceKey : Bytes := [97, 110, 110, 111, 117, 110, 99, 101]

/-- "announce-list" -/
def announceListKey : Bytes := [97, 110, 110, 111, 117, 110, 99, 101, 45, 108, 105, 115, 116]

/-- "files" -/
def filesKey : Bytes := [102, 105, 108, 101, 115]

/-- "info" -/
def infoKey : Bytes := [105, 110, 102, 111]

/-- "length" -/
def lengthKey : Bytes := [108, 101, 110, 103, 116, 104]

/-- "name" -/
def nameKey : Bytes := [110, 97, 109, 101]

/-- "path" -/
def pathKey : Bytes := [112, 97, 116, 104]

/-- "piece length" -/
def pieceLengthKey : Bytes := [112, 105, 101, 99, 101, 32, 108, 101, 110, 103, 116, 104]

/-- "pieces" -/
def piecesKey : Bytes := [112, 105, 101, 99, 101, 115]

/-! ## The parser -/

/-- the cause that a `ParseException` repeats -/
inductive ParseError where
  /-- "failed to open torrent file" -/
  | notOpen
  | decode (e : DecodeError)
  | access (e : BencodeError)
  /-- "no HTTP trackers found" -/
  | noTrackers
deriving DecidableEq, Repr

namespace Parser

/-- the conversion of a `long long` -/
def toUint64 (n : ℤ) : ℕ := (n % 2 ^ 64).toNat

/-- the loop of `parse_piece_hash` -/
def splitPieces (pieces : Bytes) : List Bytes :=
  (List.range ((pieces.length + 19) / 20)).map fun i => (pieces.drop (20 * i)).take 20

def parsePieceHash (infoDict : List (Bytes × Bencode)) : Except BencodeError (List Bytes) := do
  let pieces ← (← dictAt infoDict piecesKey).getString
  return splitPieces pieces

/-- the string that `calc_info_hash` hashes -/
def infoString (dataDict : List (Bytes × Bencode)) : Except BencodeError Bytes := do
  return encode (← dictAt dataDict infoKey)

def addTrackers (torrentDataDict : List (Bytes × Bencode)) : Except BencodeError (List Bytes) :=
  match torrentDataDict.lookup announceListKey with
  | some announceList => do
    let trackers ← (← announceList.getList).mapM fun listData => do (← listData.getList).mapM getString
    return trackers.flatten
  | none => do
    let announceUrl ← (← dictAt torrentDataDict announceKey).getString
    return [announceUrl]

/-- one turn of the loop of `add_files`; the root folder is the first of the paths -/
def addFile (outputPath : Bytes) (f : Bencode) : Except BencodeError FileMetadata := do
  let fDict ← f.getDict
  let fileLength ← (← dictAt fDict lengthKey).getInteger
  let paths ← (← (← dictAt fDict pathKey).getList).mapM getString
  return ⟨toUint64 fileLength, outputPath :: paths⟩

/-- the total length, and the files -/
def addFiles (infoDict : List (Bytes × Bencode)) (outputPath : Bytes) : Except BencodeError (ℕ × List FileMetadata) :=
  match infoDict.lookup lengthKey with
  | some length => do
    let totalLength ← length.getInteger
    return (toUint64 totalLength, [])
  | none => do
    let files ← (← (← dictAt infoDict filesKey).getList).mapM (addFile outputPath)
    return (files.foldl (fun totalLength file => (totalLength + file.fileLength) % 2 ^ 64) 0, files)

variable (sha1 : Bytes → Bytes)

/-- from the decoded data on -/
def readTorrent (torrentData : Bencode) : Except ParseError TorrentMetadata := do
  let torrentDataDict ← torrentData.getDict.mapError .access
  let infoDict ← (dictAt torrentDataDict infoKey >>= getDict).mapError .access
  let pieceHashes ← (parsePieceHash infoDict).mapError .access
  let trackerUrlList ← (addTrackers torrentDataDict).mapError .access
  if trackerUrlList = [] then .error .noTrackers
  else
    let outputPath ← (dictAt infoDict nameKey >>= getString).mapError .access
    let infoString ← (infoString torrentDataDict).mapError .access
    let pieceLength ← (dictAt infoDict pieceLengthKey >>= getInteger).mapError .access
    let (totalLength, files) ← (addFiles infoDict outputPath).mapError .access
    return { trackerUrlList, pieceHashes, totalLength, outputPath, files
             pieceLength := toUint64 pieceLength
             infoHash := checksumFinal sha1 infoString }

/-- `torrentFile` is the text of the file, if it can be opened -/
def parseTorrentFile (torrentFile : Option Bytes) : Except ParseError TorrentMetadata :=
  match torrentFile with
  | none => .error .notOpen
  | some text => do
    let torrentData ← (decode text).mapError .decode
    readTorrent sha1 torrentData

end Parser

end SimpleTorrent
