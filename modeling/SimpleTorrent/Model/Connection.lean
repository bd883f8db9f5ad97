/-
A peer and the remote peer it downloads from.

The remote keeps to the protocol: it answers requests it has received, in any order and whenever it likes, with the bytes
of the right extent, and on choking it discards the requests it has not answered. While it chokes it may discard a request
that arrives, or keep it for later. Messages in either direction arrive in order. It may send any other message at any
time; a message has fewer than 2^32 bytes, as its length must be written in front of it.

The peer's side is `Model/Peer` with the reads of `Model/ReceiveLoop`. A read ends with all the bytes it asked for, the
next ones on their way. Or it fails, with fewer of them: because the remote has closed the connection, or because a
timeout has cancelled it. The loop does not see that, and goes on with what its variables hold; once a read has failed,
nothing is assumed about the bytes of the reads behind it.

A request is on its way from some point during its write, or never if the write fails; a write that fails has sent no
part of it.
-/
import SimpleTorrent.Model.Peer
import SimpleTorrent.Model.ReceiveLoop

namespace SimpleTorrent

open MessageUtil

/-- a Piece message: type and payload -/
def pieceMessage (request : BlockRequest) (data : Bytes) : UInt8 × Bytes :=
  (7, writeUint32 request.pieceIndex ++ writeUint32 request.blockOffset ++ data)

structure Connection where
  peer : Peer
  receiver : Receiver
  /-- the request being written is on its way, or has arrived -/
  transmitted : Bool
  /-- requests on their way -/
  toRemote : List BlockRequest
  /-- requests that the remote has to answer -/
  held : List BlockRequest
  /-- the remote has sent Choke and not Unchoke since; it begins choked -/
  choking : Bool
  /-- messages on their way, type and payload, or keep-alives; the first of them may have been read in part -/
  toPeer : List (Option (UInt8 × Bytes))
  /-- requests that are never answered, or by a block on which `add_block` throws; no count once a read has failed -/
  dropped : ℕ

namespace Connection

def init (pieceManager : PieceManager) (peerNumId numPieces : ℕ) : Connection where
  peer := .init pieceManager peerNumId numPieces
  receiver := .init true
  transmitted := false
  toRemote := []
  held := []
  choking := true
  toPeer := []
  dropped := 0

/-- the send coroutine continues; a request whose write ends before it is on its way is lost -/
def resume (s : Connection) (order : List ℕ) : Connection :=
  match s.peer.send with
  | .writing _ =>
    { s with
      peer := s.peer.resume s.transmitted order
      transmitted := false
      dropped := if s.transmitted then s.dropped else s.dropped + 1 }
  | _ => { s with peer := s.peer.resume true order }

/-- the request being written is put on its way -/
def transmit (s : Connection) : Connection :=
  match s.peer.send with
  | .writing request =>
    if s.transmitted then s else { s with transmitted := true, toRemote := s.toRemote ++ [request] }
  | _ => s

/-- a request arrives -/
def arrive (s : Connection) (keep : Bool) : Connection :=
  match s.toRemote with
  | [] => s
  | request :: rest =>
    if s.choking && !keep then { s with toRemote := rest, dropped := s.dropped + 1 }
    else { s with toRemote := rest, held := s.held ++ [request] }

/-- the remote answers request `i` of those it holds, with bytes of the length asked for -/
def answer (s : Connection) (i : ℕ) (data : Bytes) : Connection :=
  match s.held[i]? with
  | none => s
  | some request =>
    if data ≠ [] ∧ data.length = request.blockLength ∧ data.length + 9 < 2 ^ 32 then
      { s with held := s.held.eraseIdx i, toPeer := s.toPeer ++ [some (pieceMessage request data)] }
    else s

def choke (s : Connection) : Connection :=
  { s with choking := true, held := [], toPeer := s.toPeer ++ [some (0, [])], dropped := s.dropped + s.held.length }

def unchoke (s : Connection) : Connection := { s with choking := false, toPeer := s.toPeer ++ [some (1, [])] }

/-- any message that is not Choke, Unchoke or Piece -/
def message (s : Connection) (type : UInt8) (payload : Bytes) : Connection :=
  match messageType type with
  | .choke | .unchoke | .piece => s
  | _ => if payload.length + 1 < 2 ^ 32 then { s with toPeer := s.toPeer ++ [some (type, payload)] } else s

def keepAlive (s : Connection) : Connection := { s with toPeer := s.toPeer ++ [none] }

/-- the bytes that the pending read is about to get, if they are on their way, and what is on its way behind them -/
def arriving (s : Connection) : Option (Bytes × List (Option (UInt8 × Bytes))) :=
  match s.receiver.state, s.toPeer with
  | .header, none :: rest => some (writeUint32 0, rest)
  | .header, some (type, payload) :: rest => some (writeUint32 (payload.length + 1), some (type, payload) :: rest)
  | .type _, some (type, payload) :: rest => some ([type], some (type, payload) :: rest)
  | .payload _ _, some (_, payload) :: rest => some (payload, rest)
  | _, _ => none

section Sha1

variable (sha1 : Bytes → Bytes)

/-- the pending read ends, with these bytes. After that of a payload the message is handled, and when the receive loop is
left, so is `start` -/
def read (s : Connection) (data : Bytes) (stale : UInt8) : Connection :=
  let o : Outcome := ⟨data, !s.peer.continueConnection, stale, false⟩
  let peer :=
    match s.receiver.state with
    | .payload messageLength messageType =>
      s.peer.handleMessage sha1 messageType (Receiver.fill (List.replicate (messageLength - 1) 0) o)
    | _ => s.peer
  let receiver := s.receiver.step { o with throws := peer.mainRoutineHasExited }
  { s with
    receiver := receiver
    peer := if receiver.state = .exited then peer.finish else peer }

/-- the pending read ends with all the bytes that it asked for -/
def receive (s : Connection) : Connection :=
  match s.arriving with
  | none => s
  | some (data, rest) =>
    if s.receiver.failed then s
    else
      let t := { s.read sha1 data 0 with toPeer := rest }
      match s.receiver.state with
      | .payload _ type =>
        -- the message was an answer, and `add_block` has thrown
        if messageType type = .piece ∧ (s.peer.handleMessage sha1 type data).mainRoutineHasExited then
          { t with dropped := s.dropped + 1 }
        else t
      | _ => t

/-- the pending read fails; or it ends in any way, if one has failed before -/
def fail (s : Connection) (data : Bytes) (stale : UInt8) : Connection :=
  if s.receiver.state ≠ .exited ∧ (s.receiver.failed ∨ data.length < s.receiver.wanted) then s.read sha1 data stale
  else s

inductive Op where
  | resume (order : List ℕ)
  | transmit
  | arrive (keep : Bool)
  | answer (i : ℕ) (data : Bytes)
  | choke
  | unchoke
  | message (type : UInt8) (payload : Bytes)
  | keepAlive
  | receive
  | fail (data : Bytes) (stale : UInt8)
  | other (o : PieceManager.Op)
  /-- the handler of `set_timeout`; the read that it cancels fails later -/
  | timeout
deriving DecidableEq, Repr

def step (s : Connection) : Op → Connection
  | .resume order => s.resume order
  | .transmit => s.transmit
  | .arrive keep => s.arrive keep
  | .answer i data => s.answer i data
  | .choke => s.choke
  | .unchoke => s.unchoke
  | .message type payload => s.message type payload
  | .keepAlive => s.keepAlive
  | .receive => s.receive sha1
  | .fail data stale => s.fail sha1 data stale
  | .other o => { s with peer := s.peer.step sha1 (.other o) }
  | .timeout => { s with peer := s.peer.step sha1 .timeout }

def run (s : Connection) (ops : List Op) : Connection := ops.foldl (step sha1) s

end Sha1

end Connection

end SimpleTorrent
