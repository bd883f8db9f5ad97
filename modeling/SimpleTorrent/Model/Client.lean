/-
The whole client while it downloads (`PeerManager::start`, `cleanup_and_open_connections`, `start_download`, and what
they run): the piece manager that all peers share, the file manager with its writer thread, the pool of peers, and for
each peer its two coroutines.

The network thread runs one coroutine at a time, from one `co_await` to the next; the writer thread runs beside it. A run
is any sequence of such stretches. What a coroutine has awaited ends with a `Completion`: it may have thrown, and it may
have brought any bytes. An object of class `Peer` is named by its place in `peers_`.

`asio::co_spawn` is taken to run `start` of the object it was called for. After `io_context_.stop()` no coroutine
continues. Ctrl-C ends the process, and with it the run. Which paths can be opened is up to the file system, as in
`FileManager`; the exception of its constructor is the fault of a client that is not constructed. The thread that draws
the progress is no part of the client: it is in `Program`.

A ghost field of each object lists the messages that were handed to its socket.
-/
import SimpleTorrent.Model.FileManager
import SimpleTorrent.Model.PeerManager
import SimpleTorrent.Model.Routines

namespace SimpleTorrent

open Checked Splice MessageUtil

/-! ## Peers -/

/-- an object of class `Peer`, with the header buffer of its `receive_messages` -/
structure PeerObject where
  handle : PeerHandle
  routines : Routines
  header : Bytes
  /-- what was handed to the socket, oldest first -/
  sent : List Bytes
deriving DecidableEq, Repr

/-- the constructor of `Peer`; its `start` is spawned -/
def PeerObject.create (handle : PeerHandle) : PeerObject := ⟨handle, .init, [], []⟩

/-- how what a coroutine awaits ends -/
structure Completion where
  throws : Bool
  /-- the bytes that arrived; those beyond the size asked for are not read -/
  data : Bytes
  /-- what uninitialised variables hold -/
  memory : Bytes
deriving DecidableEq, Repr

/-- `size` bytes that nobody has written -/
def Completion.uninitialised (o : Completion) (size : ℕ) : Bytes := (o.memory ++ List.replicate size 0).take size

/-- a buffer after a read into it -/
def Completion.fill (o : Completion) (buffer : Bytes) : Bytes := splice buffer 0 (o.data.take buffer.length)

/-- the data that `send_handshake` writes -/
def sendHandshake (infoHash ourId : Bytes) : Except Fault Bytes := do
  let binaryInfoHash ← hexDecode infoHash
  return createHandshake (List.replicate 8 0) binaryInfoHash ourId

/-- the data that `send_interested` writes -/
def sendInterested : Bytes := constructMessage 2 []

namespace Routines

/-- `select_next_block` is called when the coroutine continues -/
def selects (s : Routines) (throws : Bool) : Bool :=
  match s.spawned with
  | .spawned => s.continueConnection && !s.isChoked && s.numInFlight.toNat < Peer.maxInFlight
  | .write => !throws && (s.numInFlight + 1).toNat < Peer.maxInFlight
  | .timer => !throws && s.continueConnection && !s.isChoked && s.numInFlight.toNat < Peer.maxInFlight
  | .notSpawned | .ended => false

end Routines

/-! ## The client -/

/-- where `cleanup_and_open_connections` is suspended -/
inductive PoolLoop where
  | created
  /-- in the `sleep` at the start of its loop -/
  | sleepBefore
  /-- in the `sleep` at the end -/
  | sleepAfter
  /-- it has called `io_context_.stop()` -/
  | ended
deriving DecidableEq, Repr

structure Client where
  pieceManager : PieceManager
  /-- the file manager, and the flag of `global_state.cpp` -/
  session : Session
  pool : PeerManager
  objects : List PeerObject
  poolLoop : PoolLoop
  infoHash : Bytes
  ourId : Bytes
  numPieces : ℕ

namespace Client

def defaultBlockLength : UInt32 := 16384

def defaultBufferSize : UInt32 := 32

/-- `start_download` up to `peer_manager.start()`, for parsed metadata and the addresses that the trackers gave; the
file manager is a member of the piece manager, whose divisions come behind its construction -/
def new (fileSystem : FileSystem) (data : TorrentMetadata) (peerIps : List PeerConnInfo) (ourId : Bytes) :
    Except PoolFault Client := do
  let session ← (Session.init fileSystem data).elim (.error .fileSystem) .ok
  let pieceManager ← access (PieceManager.new data defaultBlockLength defaultBufferSize)
  let pool ← PeerManager.new peerIps
  return {
    pieceManager := pieceManager
    session := session
    pool := pool
    objects := pool.peers.map PeerObject.create
    poolLoop := .created
    infoHash := data.infoHash
    ourId := ourId
    numPieces := data.pieceHashes.length % 2 ^ 32 }

def continueDownload (s : Client) : Bool := s.pieceManager.continueDownload s.session.stopDownload

/-- the calls of `FileManager::save_piece` between two states of the piece manager -/
def saveCalls (before after : PieceManager) : List Session.Op :=
  (after.trace.drop before.trace.length).filterMap fun
    | .savePiece _ fileOffset data => some (.savePiece fileOffset data)
    | _ => none

/-- the piece manager was called, and has called the file manager -/
def putManager (s : Client) (pieceManager : PieceManager) : Except PoolFault Client := do
  let session ← access (s.session.run (saveCalls s.pieceManager pieceManager))
  return { s with pieceManager := pieceManager, session := session }

def putObject (s : Client) (i : ℕ) (p : PeerObject) : Client := { s with objects := s.objects.set i p }

section Sha1

variable (sha1 : Bytes → Bytes)

/-- what `handle_message` does with the piece manager, and whether it throws -/
def handleMessage (s : Client) (peerNumId : ℕ) (type : UInt8) (payload : Bytes) : Except PoolFault (Bool × Client) :=
  match messageType type with
  | .bitfield =>
    let peerBitfield := getPeerBitfield payload s.numPieces
    if peerBitfield.all (· == 0) then .ok (true, s)
    else do
      let s ← s.putManager (s.pieceManager.updatePieceFrequencies peerBitfield peerNumId)
      return (false, s)
  | .piece =>
    match pieceBlock payload with
    | none => .ok (false, s)
    | some block => do
      let pieceManager ← access (s.pieceManager.addBlock sha1 peerNumId block)
      let s ← s.putManager pieceManager
      return (false, s)
  | _ => .ok (false, s)

/-- `start` of an object continues -/
def resumeMain (s : Client) (i : ℕ) (p : PeerObject) (o : Completion) : Except PoolFault Client :=
  match p.routines.main with
  | .connect => do
    let sent ← if o.throws then .ok [] else access (do return [← sendHandshake s.infoHash s.ourId])
    return s.putObject i { p with
      routines := p.routines.resumeMain ⟨o.throws, false, 0, 0⟩
      sent := p.sent ++ sent }
  | .receiveHandshake => do
    let peerId ← if o.throws then .ok none
      else access (parseHandshakeResponse (o.fill (o.uninitialised 68)) s.infoHash)
    return s.putObject i { p with
      routines := p.routines.resumeMain ⟨peerId.isNone, s.continueDownload, 0, 0⟩
      sent := p.sent ++ if peerId.isSome && s.continueDownload then [sendInterested] else [] }
  | .sendInterested =>
    .ok (s.putObject i { p with
      routines := p.routines.resumeMain ⟨o.throws, false, 0, 0⟩
      header := List.replicate 4 0 })
  | .header =>
    let header := o.fill p.header
    .ok (s.putObject i { p with
      routines := p.routines.resumeMain ⟨o.throws, false, getHeaderLength header, 0⟩
      header := header })
  | .type _ =>
    let messageType := (o.fill (o.uninitialised 1)).headD 0
    .ok (s.putObject i { p with routines := p.routines.resumeMain ⟨o.throws, false, 0, messageType⟩ })
  | .payload messageLength messageType => do
    let payload := o.fill (List.replicate (messageLength - 1) 0)
    let (throws, s) ← if o.throws then .ok (true, s) else s.handleMessage sha1 p.handle.peerNumId messageType payload
    return s.putObject i { p with routines := p.routines.resumeMain ⟨throws, false, 0, 0⟩ }
  | .created | .sendHandshake | .ended =>
    .ok (s.putObject i { p with routines := p.routines.resumeMain ⟨o.throws, false, 0, 0⟩ })

/-- `send_messages` of an object continues; `order` is the order in which the buffer lists its pieces -/
def resumeSpawned (s : Client) (i : ℕ) (p : PeerObject) (throws : Bool) (order : List ℕ) : Except PoolFault Client :=
  if p.routines.selects throws then do
    let (request, pieceManager) ← access (s.pieceManager.selectNextBlock p.handle.peerNumId order)
    let s ← s.putManager pieceManager
    return s.putObject i { p with
      routines := p.routines.resumeSpawned ⟨throws, if request.isSome then .request else .none⟩
      sent := p.sent ++ (request.map constructRequestMessage).toList }
  else .ok (s.putObject i { p with routines := p.routines.resumeSpawned ⟨throws, .none⟩ })

/-! ## The pool -/

/-- the peers in the order that `std::partition` leaves, the exited ones last; an order that does not rearrange them
counts as the order they have -/
def arrange (s : Client) (order : List ℕ) : List PeerObject × List PeerObject :=
  let arranged :=
    if order.isPerm (List.range s.objects.length) then order.filterMap fun i => s.objects[i]? else s.objects
  (arranged.filter fun p => !p.routines.hasExited, arranged.filter fun p => p.routines.hasExited)

def cleanupConnections (s : Client) (order : List ℕ) : Except PoolFault Client := do
  let (kept, dropped) := s.arrange order
  let pool ← s.pool.cleanupConnections (kept.map (·.handle)) (dropped.map (·.handle))
  return { s with
    pieceManager := dropped.foldl (fun m p => m.removePeer p.handle.peerNumId) s.pieceManager
    pool := pool
    objects := kept }

def openConnections (s : Client) : Except PoolFault Client := do
  let pool ← s.pool.openConnections
  return { s with
    pool := pool
    objects := s.objects ++ (pool.peers.drop s.objects.length).map PeerObject.create }

/-- `set_stop_download` -/
def setStopDownload (s : Client) : Client := { s with session := { s.session with stopDownload := true } }

/-- the loop condition of `cleanup_and_open_connections`; behind the loop, `io_context_.stop()` -/
def testPoolLoop (s : Client) : Client :=
  if s.continueDownload then { s with poolLoop := .sleepBefore } else { s with poolLoop := .ended }

def cleanupAndOpenConnections (s : Client) (order : List ℕ) : Except PoolFault Client :=
  match s.poolLoop with
  | .created | .sleepAfter => .ok s.testPoolLoop
  | .sleepBefore =>
    if !s.continueDownload then .ok { s with poolLoop := .ended }
    else do
      let s ← s.cleanupConnections order
      let s ← s.openConnections
      let s := if s.objects.length = 0 then s.setStopDownload else s
      return { s with poolLoop := .sleepAfter }
  | .ended => .ok s

/-! ## Runs -/

inductive Op where
  /-- `start` of an object continues -/
  | main (i : ℕ) (o : Completion)
  /-- `send_messages` of an object continues -/
  | spawned (i : ℕ) (throws : Bool) (order : List ℕ)
  /-- the handler of `set_timeout` of an object -/
  | timeout (i : ℕ)
  /-- `cleanup_and_open_connections` continues -/
  | poolLoop (order : List ℕ)
  /-- `start_download` continues behind `peer_manager.start()` -/
  | returned
  /-- the writer thread -/
  | writer
deriving DecidableEq, Repr

/-- a step of the object in place `i`, while the network thread runs -/
def onObject (s : Client) (i : ℕ) (f : PeerObject → Except PoolFault Client) : Except PoolFault Client :=
  if s.poolLoop = .ended then .ok s
  else
    match s.objects[i]? with
    | none => .ok s
    | some p => f p

def step (s : Client) : Op → Except PoolFault Client
  | .main i o => s.onObject i fun p => s.resumeMain sha1 i p o
  | .spawned i throws order => s.onObject i fun p => s.resumeSpawned i p throws order
  | .timeout i => s.onObject i fun p => .ok (s.putObject i { p with routines := p.routines.step .timeout })
  | .poolLoop order => s.cleanupAndOpenConnections order
  | .returned => .ok (if s.poolLoop = .ended then s.setStopDownload else s)
  | .writer => do
    let session ← access (s.session.step .writer)
    return { s with session := session }

def run (fileSystem : FileSystem) (data : TorrentMetadata) (peerIps : List PeerConnInfo) (ourId : Bytes)
    (ops : List Op) : Except PoolFault Client := do
  let s ← new fileSystem data peerIps ourId
  runM (step sha1) s ops

end Sha1

end Client

end SimpleTorrent
