/-
`FileManager` (`FileManager.h`, `file_manager.cpp`), its writer thread, and the stop flag of the whole client.

The network thread enqueues pieces. The writer thread takes them from the queue, in order, and writes each to the files
that it covers. Both are step machines here and can be interleaved in any way: between two looks at shared state (the
stop flag, the queue) a thread does one step. The elements of the queue hold their offset as a `uint32_t`, whatever is
enqueued.

Which file a path names, and whether its directories can be created and it can be resized, is up to the file system; two
paths may name one file, and then two streams write to it. What can be resized can be opened. A stream writes what it is
given at once, and no write fails. Nobody else writes to the files.

Ghost fields record what was enqueued and what was written, oldest first.
-/
import SimpleTorrent.Core.Streams
import SimpleTorrent.Model.Types

namespace SimpleTorrent

open Checked Splice Extents

/-! ## Files -/

/-- the files of the machine, by a name that each has to itself -/
abbrev Disk := Bytes → Bytes

structure FileSystem where
  /-- the file that a path names; `none` if `create_and_open_file` throws for it -/
  file : Bytes → Option Bytes
  disk : Disk

/-- every path but the empty one is a file of its own, and there are none yet -/
def FileSystem.plain : FileSystem := ⟨fun path => if path = [] then none else some path, fun _ => []⟩

/-- the files of a torrent: one at the output path, or those listed -/
def outputFiles (data : TorrentMetadata) : List FileMetadata :=
  if data.files.isEmpty then [⟨data.totalLength, [data.outputPath]⟩] else data.files

/-- '/' -/
def separator : UInt8 := 47

/-- `std::filesystem::path::operator/=`: an absolute path replaces what is there -/
def appendPath (lhs rhs : Bytes) : Bytes :=
  if rhs.head? = some separator then rhs
  else if lhs = [] ∨ lhs.getLast? = some separator then lhs ++ rhs
  else lhs ++ separator :: rhs

/-- the loop over `paths` in the constructor -/
def filePath (paths : List Bytes) : Bytes := paths.foldl appendPath []

/-- the paths that `create_and_open_file` is called with -/
def openedPaths (data : TorrentMetadata) : List Bytes := (outputFiles data).map fun f => filePath f.paths

/-- `std::ofstream::open` without `in` or `app`: the file is truncated -/
def openForOutput (_content : Bytes) : Bytes := []

/-- `create_and_open_file`: the file behind the stream, which was created, resized, and opened again -/
def createAndOpenFile (fileSystem : FileSystem) (disk : Disk) (path : Bytes) (totalLength : ℕ) :
    Option (Bytes × Disk) :=
  (fileSystem.file path).map fun file =>
    (file, Function.update disk file (openForOutput (resize (openForOutput (disk file)) totalLength 0)))

/-- the loop of the constructor -/
def createAndOpenFiles (fileSystem : FileSystem) : List FileMetadata → Disk → Option (List Bytes × Disk)
  | [], disk => some ([], disk)
  | f :: files, disk => do
    let (file, disk) ← createAndOpenFile fileSystem disk (filePath f.paths) f.fileLength
    let (openFiles, disk) ← createAndOpenFiles fileSystem files disk
    return (file :: openFiles, disk)

/-! ## Where a piece goes -/

/-- a file, an offset in it, and a number of bytes -/
abbrev WriteInfo := ℕ × ℕ × ℕ

/-- the first loop of `calculate_files_write_info`, on the rest of `file_lengths_` from `current_file` on: the file that
the offset falls in, and the offset within it -/
def findFile : List ℕ → ℕ → ℕ → Except Fault (ℕ × ℕ)
  | [], _, _ => .error .badIndex
  | fileLength :: fileLengths, currentFile, offset =>
    if fileLength ≤ offset then findFile fileLengths (currentFile + 1) (offset - fileLength)
    else .ok (currentFile, offset)

/-- the second loop, on the rest of `file_lengths_` from `current_file` on -/
def splitOverFiles : List ℕ → ℕ → ℕ → ℕ → Except Fault (List WriteInfo)
  | [], _, _, remainingPieceLength => if remainingPieceLength = 0 then .ok [] else .error .badIndex
  | fileLength :: fileLengths, currentFile, currentFileOffset, remainingPieceLength =>
    if remainingPieceLength = 0 then .ok []
    else do
      let bytesToWrite := min remainingPieceLength (fileLength - currentFileOffset)
      let writeInfo ← splitOverFiles fileLengths (currentFile + 1) 0 (remainingPieceLength - bytesToWrite)
      return (currentFile, currentFileOffset, bytesToWrite) :: writeInfo

def calculateFilesWriteInfo (fileLengths : List ℕ) (offset pieceLength : ℕ) : Except Fault (List WriteInfo) := do
  let (currentFile, currentFileOffset) ← findFile fileLengths 0 offset
  splitOverFiles (fileLengths.drop currentFile) currentFile currentFileOffset pieceLength

/-- the loop of `file_writer` over the result, from `curr_data_offset` on -/
def writeSegments (openFiles : List Bytes) (data : Bytes) : List WriteInfo → ℕ → Disk → Except Fault Disk
  | [], _, disk => .ok disk
  | (fileIndex, fileOffset, bytesToWrite) :: writeInfo, currDataOffset, disk => do
    let file ← vecIdx openFiles fileIndex
    if data.length < currDataOffset + bytesToWrite then .error .badCopy
    else
      let disk := writeFile 0 disk file fileOffset ((data.drop currDataOffset).take bytesToWrite)
      writeSegments openFiles data writeInfo (currDataOffset + bytesToWrite) disk

/-! ## The file manager -/

/-- where the writer thread is -/
inductive WriterState where
  /-- at the condition of its loop -/
  | test
  /-- past it, before `try_dequeue` -/
  | dequeue
  | write (value : ℕ × Bytes)
  | sleep
  | exited
deriving DecidableEq, Repr

structure FileManager where
  numPieces : ℕ
  /-- the file of each stream -/
  openFiles : List Bytes
  disk : Disk
  fileLengths : List ℕ
  writeQueue : List (ℕ × Bytes)
  writer : WriterState
  writeCount : ℕ
  enqueued : List (ℕ × Bytes)
  written : List (ℕ × Bytes)

namespace FileManager

/-- the constructor, which starts the writer thread; `none` is the exception -/
def new (fileSystem : FileSystem) (data : TorrentMetadata) : Option FileManager := do
  let (openFiles, disk) ← createAndOpenFiles fileSystem (outputFiles data) fileSystem.disk
  return {
    numPieces := data.pieceHashes.length % 2 ^ 32
    openFiles := openFiles
    disk := disk
    fileLengths := (outputFiles data).map (·.fileLength)
    writeQueue := []
    writer := .test
    writeCount := 0
    enqueued := []
    written := [] }

/-- what the output files hold, in the order of the metadata -/
def files (s : FileManager) : List Bytes := s.openFiles.map s.disk

/-- `save_piece`: the pair is converted to the element type of the queue, `pair<uint32_t, string>` -/
def savePiece (s : FileManager) (fileOffset : ℕ) (data : Bytes) : FileManager :=
  { s with
    writeQueue := s.writeQueue ++ [(fileOffset % 2 ^ 32, data)]
    enqueued := s.enqueued ++ [(fileOffset % 2 ^ 32, data)] }

/-- one entry of the queue goes to the files -/
def writeValue (s : FileManager) (value : ℕ × Bytes) : Except Fault Disk :=
  if s.openFiles.isEmpty then do
    let outputFile ← vecIdx s.openFiles 0
    return writeFile 0 s.disk outputFile value.1 value.2
  else do
    let fileWriteVec ← calculateFilesWriteInfo s.fileLengths value.1 value.2.length
    writeSegments s.openFiles value.2 fileWriteVec 0 s.disk

/-- the next step of `file_writer` -/
def fileWriter (s : FileManager) (stopDownload : Bool) : Except Fault FileManager :=
  match s.writer with
  | .test =>
    if !stopDownload && s.writeCount != s.numPieces then .ok { s with writer := .dequeue }
    else .ok { s with writer := .exited }
  | .dequeue =>
    match s.writeQueue with
    | [] => .ok { s with writer := .sleep }
    | value :: writeQueue => .ok { s with writeQueue := writeQueue, writer := .write value }
  | .write value => do
    let disk ← s.writeValue value
    return { s with
      disk := disk
      writer := .test
      writeCount := (s.writeCount + 1) % 2 ^ 32
      written := s.written ++ [value] }
  | .sleep => .ok { s with writer := .test }
  | .exited => .ok s

end FileManager

/-! ## Both threads -/

/-- the file manager and the stop flag -/
structure Session where
  fileManager : FileManager
  stopDownload : Bool

namespace Session

/-- `none` if the constructor of the file manager throws -/
def init (fileSystem : FileSystem) (data : TorrentMetadata) : Option Session :=
  (FileManager.new fileSystem data).map fun fileManager => ⟨fileManager, false⟩

inductive Op where
  /-- the network thread: `FileManager::save_piece` -/
  | savePiece (fileOffset : ℕ) (data : Bytes)
  /-- the network thread, or a signal: `set_stop_download` -/
  | setStopDownload
  /-- the writer thread -/
  | writer
deriving DecidableEq, Repr

def step (s : Session) : Op → Except Fault Session
  | .savePiece fileOffset data => .ok { s with fileManager := s.fileManager.savePiece fileOffset data }
  | .setStopDownload => .ok { s with stopDownload := true }
  | .writer => do
    let fileManager ← s.fileManager.fileWriter s.stopDownload
    return { s with fileManager := fileManager }

def run (s : Session) (ops : List Op) : Except Fault Session := runM step s ops

end Session

end SimpleTorrent
