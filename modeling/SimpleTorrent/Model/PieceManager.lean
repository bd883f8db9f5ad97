/-
`PieceManager` (`PieceManager.h`, `piece_manager.cpp`) as the code has it.

Every function returns `Except Fault`: a checked access that throws, a failed assertion of the buffer, or undefined
behaviour ends the run. `selectNextBlock` takes the order in which the buffer's hash map lists its keys, which the
language leaves open; the pseudo-random start index is computed exactly.

`trace` is a ghost: the calls the manager makes on its buffer and on the file manager, and the requests it hands out,
oldest first. The code does not read it.
-/
import SimpleTorrent.Model.Buffer

namespace SimpleTorrent

open Checked

/-- one entry of the ghost trace; `ι` is the type of piece indices -/
inductive Event (ι : Type) where
  | addPiece (x : ι)
  | clearAllRequested (x : ι)
  | request (x : ι) (k : ℕ)
  | writeBlock (x : ι) (k : ℕ)
  | savePiece (x : ι) (fileOffset : ℕ) (data : Bytes)
  | hashMismatch (x : ι)
deriving DecidableEq, Repr

structure PieceManager where
  pieceLength : ℕ
  blockLength : ℕ
  pieces : List PieceMetadata
  buffer : Buffer
  rng : ℕ
  peerPieceAffinityMap : AList fun _ : ℕ => ℕ
  peersBitfieldMap : AList fun _ : ℕ => List PeerPieceState
  numPiecesCompleted : ℕ
  trace : List (Event ℕ)

/-! ## Construction -/

section Layout

variable (data : TorrentMetadata)

/-- the `size_t current_piece_length` of the constructor's loop, for piece `i` -/
def sizeOfPiece (i : ℕ) : ℕ :=
  let lastPieceLength := data.totalLength % data.pieceLength
  if i = data.pieceHashes.length - 1 ∧ lastPieceLength ≠ 0 then lastPieceLength else data.pieceLength % 2 ^ 32

/-- `current_piece_length` of piece `i`, as stored -/
def currentPieceLength (i : ℕ) : ℕ := sizeOfPiece data i % 2 ^ 32

/-- `num_blocks` of piece `i`, as stored -/
def numBlocks (blockLength i : ℕ) : ℕ :=
  (sizeOfPiece data i + blockLength - 1) % 2 ^ 64 / blockLength % 2 ^ 32

end Layout

/-- the `file_offset` of `save_piece`, a `size_t` -/
def fileOffset (pieceLength pieceIndex : ℕ) : ℕ := pieceIndex * pieceLength % 2 ^ 64

namespace PieceManager

/-- the constructor; both divisors are checked, the buffer's first -/
def new (data : TorrentMetadata) (blockLength bufferSize : UInt32) : Except Fault PieceManager :=
  if blockLength.toNat = 0 ∨ data.pieceLength = 0 then .error .zeroModulus
  else .ok
    { pieceLength := data.pieceLength % 2 ^ 32
      blockLength := blockLength.toNat
      pieces := data.pieceHashes.mapIdx fun i hash =>
        ⟨hash, currentPieceLength data i, numBlocks data blockLength.toNat i, .notStarted⟩
      buffer := Buffer.new blockLength.toNat (data.pieceLength % 2 ^ 32) bufferSize.toNat
      rng := FastRandom.init
      peerPieceAffinityMap := ∅
      peersBitfieldMap := ∅
      numPiecesCompleted := 0
      trace := [] }

/-! ## Small steps -/

/-- append to the ghost trace -/
def log (s : PieceManager) (e : Event ℕ) : PieceManager := { s with trace := s.trace ++ [e] }

/-- `pieces_.at(x).state = st` -/
def setState (s : PieceManager) (x : ℕ) (st : PieceState) : Except Fault PieceManager := do
  let p ← vecAt s.pieces x
  return { s with pieces := s.pieces.set x { p with state := st } }

def removeAffinity (s : PieceManager) (pieceIndex : ℕ) : PieceManager :=
  { s with peerPieceAffinityMap := eraseValue s.peerPieceAffinityMap pieceIndex }

def removePieceFromBuffer (s : PieceManager) (pieceIndex : ℕ) : Except Fault PieceManager := do
  let s := s.removeAffinity pieceIndex
  let buffer ← s.buffer.removePieceFromBuffer pieceIndex
  return { s with buffer := buffer }

/-! ## select_next_block -/

/-- the search of `handle_buffer_not_full_case`: the first piece from index `i` on that has not been started and that
the bitfield marks HAVE -/
def findUnstarted (pieces : List PieceMetadata) : List PeerPieceState → ℕ → Except Fault (Option ℕ)
  | [], _ => .ok none
  | have_ :: bitfield, i => do
    let p ← vecAt pieces i
    if p.state = .notStarted ∧ have_ = .havePiece then return some (i % 2 ^ 32)
    else findUnstarted pieces bitfield (i + 1)

def handleBufferNotFullCase (s : PieceManager) (peerId : ℕ) : Except Fault (Option ℕ × PieceManager) := do
  let bitfield ← mapAt s.peersBitfieldMap peerId
  let chosenPiece ← findUnstarted s.pieces bitfield 0
  match chosenPiece with
  | none => return (none, s)
  | some x =>
    let piece ← vecAt s.pieces x
    let (_, buffer) ← s.buffer.addPieceToBuffer x piece.numBlocks piece.currentPieceLength
    let s ← ({ s with buffer := buffer }.log (.addPiece x)).setState x .buffered
    return (some x, { s with peerPieceAffinityMap := s.peerPieceAffinityMap.insert peerId x })

/-- the do-while search of `handle_buffer_full_or_no_piece_to_add`, from index `i` round to `startI`. The source's loop
has no bound; the fuel is the number of pieces, and running out of it is a fault. -/
def pickPiece (bitfield : List PeerPieceState) (pieces : List ℕ) (startI : ℤ) : ℕ → ℤ → Except Fault (Option ℕ)
  | 0, _ => .error .outOfFuel
  | fuel + 1, i => do
    let x ← vecAtInt pieces i
    let have_ ← vecAt bitfield x
    if have_ = .havePiece then return some x
    -- `i + 1` is computed in `int`, the modulus in `size_t`
    else if i = 2 ^ 31 - 1 then .error .intOverflow
    else if toInt ((i + 1).toNat % pieces.length) = startI then return none
    else pickPiece bitfield pieces startI fuel (toInt ((i + 1).toNat % pieces.length))

/-- the peer takes piece `x` of the buffer as its affinity piece, and a piece with all blocks requested is reopened -/
def adoptPiece (s : PieceManager) (peerId x : ℕ) : Except Fault PieceManager := do
  let s := { s with peerPieceAffinityMap := s.peerPieceAffinityMap.insert peerId x }
  let piece ← vecAt s.pieces x
  if piece.state = .allRequested then
    let buffer ← s.buffer.clearAllRequested x
    ({ s with buffer := buffer }.log (.clearAllRequested x)).setState x .buffered
  else return s

def handleBufferFullOrNoPieceToAdd (s : PieceManager) (peerId : ℕ) (order : List ℕ) :
    Except Fault (Option ℕ × PieceManager) := do
  let bitfield ← mapAt s.peersBitfieldMap peerId
  let piecesInBuffer := s.buffer.getPiecesInBuffer order
  if 0 < piecesInBuffer.length then
    let (rng, startI) ← FastRandom.next s.rng piecesInBuffer.length
    let chosenPiece ← pickPiece bitfield piecesInBuffer startI piecesInBuffer.length startI
    match chosenPiece with
    | none => return (none, { s with rng := rng })
    | some x =>
      let s ← { s with rng := rng }.adoptPiece peerId x
      return (some x, s)
  else return (none, s)

def calculateBlockLength (s : PieceManager) (pieceIndex blockIdxToRetrieve : ℕ) : ℕ :=
  match s.pieces.getLast? with
  | some last =>
    if pieceIndex + 1 = s.pieces.length then
      let lastBlockLength := last.currentPieceLength % s.blockLength
      let numberOfBlocks := last.currentPieceLength / s.blockLength
      if blockIdxToRetrieve < numberOfBlocks then s.blockLength else lastBlockLength
    else s.blockLength
  | none => s.blockLength

/-- the end of `select_next_block`: take the next block of the chosen piece -/
def requestFrom (s : PieceManager) (pieceIndex : ℕ) : Except Fault (Option BlockRequest × PieceManager) := do
  let ((allRequestedOrCompleted, blockIdxToRetrieve), buffer) ← s.buffer.getBlockIndexToRetrieve pieceIndex
  let s := { s with buffer := buffer }
  let s ← if allRequestedOrCompleted then (do
      let s ← s.setState pieceIndex .allRequested
      return s.removeAffinity pieceIndex) else pure s
  match blockIdxToRetrieve with
  | none => return (none, s)
  | some k =>
    return (some ⟨pieceIndex, k * s.blockLength % 2 ^ 32, s.calculateBlockLength pieceIndex k⟩,
      s.log (.request pieceIndex k))

def selectNextBlock (s : PieceManager) (peerId : ℕ) (order : List ℕ) :
    Except Fault (Option BlockRequest × PieceManager) := do
  if (s.peersBitfieldMap.lookup peerId).isNone then return (none, s)
  -- 1. the affinity piece of the peer
  let chosenPiece := s.peerPieceAffinityMap.lookup peerId
  -- 2. no affinity piece: try to add a piece to the buffer
  let (chosenPiece, s) ← if chosenPiece.isNone && !s.buffer.isFull then s.handleBufferNotFullCase peerId
    else pure (chosenPiece, s)
  -- 3. the buffer is full, or there is nothing to add to it
  let (chosenPiece, s) ← if chosenPiece.isNone then s.handleBufferFullOrNoPieceToAdd peerId order
    else pure (chosenPiece, s)
  match chosenPiece with
  | none => return (none, s)
  | some x => s.requestFrom x

/-! ## add_block -/

def isValidBlockData (s : PieceManager) (block : Block) : Except Fault Bool :=
  if s.pieces.length ≤ block.pieceIndex then .ok false
  else do
    let p ← vecAt s.pieces block.pieceIndex
    if p.currentPieceLength ≤ block.blockOffset then return false
    else return block.data.length ≤ p.currentPieceLength - block.blockOffset

section Sha1

variable (sha1 : Bytes → Bytes)

def isVerifiedPiece (s : PieceManager) (pieceIndex : ℕ) (data : Bytes) : Except Fault Bool := do
  let p ← vecAt s.pieces pieceIndex
  let pieceHash ← hexDecode (checksumFinal sha1 data)
  return pieceHash == p.pieceHash

/-- the call of `FileManager::save_piece` -/
def savePiece (s : PieceManager) (pieceIndex : ℕ) (data : Bytes) : PieceManager :=
  s.log (.savePiece pieceIndex (fileOffset s.pieceLength pieceIndex) data)

/-- what `add_block` does with a piece all of whose blocks have arrived -/
def finishPiece (s : PieceManager) (pieceIndex : ℕ) (data : Bytes) : Except Fault PieceManager := do
  let verified ← s.isVerifiedPiece sha1 pieceIndex data
  let s ← if verified then (do
      let s ← (s.savePiece pieceIndex data).setState pieceIndex .completed
      return { s with numPiecesCompleted := (s.numPiecesCompleted + 1) % 2 ^ 32 })
    else (s.log (.hashMismatch pieceIndex)).setState pieceIndex .notStarted
  s.removePieceFromBuffer pieceIndex

def addBlock (s : PieceManager) (_peerId : ℕ) (block : Block) : Except Fault PieceManager := do
  let valid ← s.isValidBlockData block
  if !valid then return s
  let should ← s.buffer.shouldWriteBlock block.blockOffset block.pieceIndex
  if !should then return s
  let ((completed, data), buffer) ← s.buffer.writeBlockToBuffer block
  let s := { s with buffer := buffer }.log (.writeBlock block.pieceIndex (block.blockOffset / s.buffer.blockLength))
  if completed then s.finishPiece sha1 block.pieceIndex data else return s

/-! ## Peers and completion -/

def removePeer (s : PieceManager) (peerId : ℕ) : PieceManager :=
  { s with
    peerPieceAffinityMap := s.peerPieceAffinityMap.erase peerId
    peersBitfieldMap := s.peersBitfieldMap.erase peerId }

def updatePieceFrequencies (s : PieceManager) (bitfield : List UInt8) (peerId : ℕ) : PieceManager :=
  { s with
    peersBitfieldMap :=
      s.peersBitfieldMap.insert peerId (bitfield.map fun v => if v = 1 then .havePiece else .dontHave) }

def isDownloadComplete (s : PieceManager) : Bool := s.numPiecesCompleted == s.pieces.length

def continueDownload (s : PieceManager) (stopDownload : Bool) : Bool :=
  !stopDownload && s.numPiecesCompleted != s.pieces.length

/-! ## Runs -/

/-- the calls that peers and the peer manager make, in any order -/
inductive Op where
  | updatePieceFrequencies (bitfield : List UInt8) (peerId : ℕ)
  | selectNextBlock (peerId : ℕ) (order : List ℕ)
  | addBlock (peerId : ℕ) (block : Block)
  | removePeer (peerId : ℕ)
deriving DecidableEq, Repr

def step (s : PieceManager) : Op → Except Fault PieceManager
  | .updatePieceFrequencies bitfield p => .ok (s.updatePieceFrequencies bitfield p)
  | .selectNextBlock p order => do
    let (_, s) ← s.selectNextBlock p order
    return s
  | .addBlock p block => s.addBlock sha1 p block
  | .removePeer p => .ok (s.removePeer p)

/-- construct the manager and run the calls -/
def run (data : TorrentMetadata) (blockLength bufferSize : UInt32) (ops : List Op) : Except Fault PieceManager := do
  let s ← new data blockLength bufferSize
  runM (step sha1) s ops

end Sha1

end PieceManager

end SimpleTorrent
