/-
`Peer` (`Peer.h`, `peer.cpp`) once the handshake is done: the coroutine that sends requests, the message handler, and
the piece manager that both share with the other peers.

A coroutine runs from one `co_await` to the next without interruption. `resume` is one such stretch of `send_messages`
and `send_block_requests`: it begins when the coroutine is started, when its timer expires or when a write completes.
`handle` is one call of `handle_message` from the receive loop. Between them anything can happen to the piece manager,
and the connection can be given up.

Ghost fields record the requests that are written and not answered, how many were written and answered, and every
evaluation of the condition of the send loop.
-/
import SimpleTorrent.Model.MessageUtil
import SimpleTorrent.Model.PieceManager

namespace SimpleTorrent

open MessageUtil

/-! ## Messages -/

inductive MessageType where
  | choke
  | unchoke
  | interested
  | notInterested
  | have_
  | bitfield
  | request
  | piece
  | cancel
  | port
  | unknown
deriving DecidableEq, Repr

def messageType (byte : UInt8) : MessageType :=
  match byte.toNat with
  | 0 => .choke
  | 1 => .unchoke
  | 2 => .interested
  | 3 => .notInterested
  | 4 => .have_
  | 5 => .bitfield
  | 6 => .request
  | 7 => .piece
  | 8 => .cancel
  | 9 => .port
  | _ => .unknown

/-- the block that `handle_piece_message` hands to the piece manager; a payload of fewer than 9 bytes is malformed -/
def pieceBlock (payload : Bytes) : Option Block :=
  if payload.length < 9 then none
  else
    let (pieceIndex, blockOffset) := retrievePieceIndexAndBlockOffset payload
    some ⟨pieceIndex, blockOffset, payload.drop 8⟩

/-! ## The peer -/

/-- where the send coroutine is suspended -/
inductive SendState where
  /-- not started, or waiting for its 100 ms timer -/
  | waiting
  | writing (request : BlockRequest)
  | exited
deriving DecidableEq, Repr

/-- one evaluation of `num_in_flight_ < MAX_IN_FLIGHT` -/
structure Evaluation where
  numInFlight : UInt8
  isChoked : Bool
  written : ℕ
  answered : ℕ
deriving DecidableEq, Repr

structure Peer where
  pieceManager : PieceManager
  peerNumId : ℕ
  numPieces : ℕ
  numInFlight : UInt8
  isChoked : Bool
  continueConnection : Bool
  mainRoutineHasExited : Bool
  spawnedRoutineHasExited : Bool
  send : SendState
  /-- requests handed to the socket and not answered -/
  outstanding : List BlockRequest
  written : ℕ
  answered : ℕ
  evaluations : List Evaluation
  /-- the counter was decremented at zero -/
  wrapped : Bool

namespace Peer

def maxInFlight : ℕ := 5

/-- the peer when `send_messages` has been spawned -/
def init (pieceManager : PieceManager) (peerNumId numPieces : ℕ) : Peer where
  pieceManager := pieceManager
  peerNumId := peerNumId
  numPieces := numPieces
  numInFlight := 0
  isChoked := true
  continueConnection := true
  mainRoutineHasExited := false
  spawnedRoutineHasExited := false
  send := .waiting
  outstanding := []
  written := 0
  answered := 0
  evaluations := []
  wrapped := false

def evaluation (s : Peer) : Evaluation := ⟨s.numInFlight, s.isChoked, s.written, s.answered⟩

/-- the head of the send loop: its condition, `select_next_block`, and the start of the write -/
def sendBlockRequests (s : Peer) (order : List ℕ) : Peer :=
  let s := { s with evaluations := s.evaluations ++ [s.evaluation] }
  if s.numInFlight.toNat < maxInFlight then
    match s.pieceManager.selectNextBlock s.peerNumId order with
    -- caught in `send_messages`, which returns without setting `spawned_routine_has_exited_`
    | .error _ => { s with continueConnection := false, send := .exited }
    | .ok (none, pieceManager) => { s with pieceManager := pieceManager, send := .waiting }
    | .ok (some request, pieceManager) =>
      { s with
        pieceManager := pieceManager
        send := .writing request
        outstanding := s.outstanding ++ [request] }
  else { s with send := .waiting }

/-- the send coroutine continues, up to its next suspension; `writeOk` says whether the write it waited for succeeded,
which it does not look at -/
def resume (s : Peer) (writeOk : Bool) (order : List ℕ) : Peer :=
  match s.send with
  | .waiting =>
    if !s.continueConnection then { s with send := .exited, spawnedRoutineHasExited := true }
    else if s.isChoked then s
    else s.sendBlockRequests order
  | .writing _ =>
    { s with
      numInFlight := s.numInFlight + 1
      written := if writeOk then s.written + 1 else s.written }.sendBlockRequests order
  | .exited => s

/-- the end of `start`, after `receive_messages` has returned or thrown -/
def finish (s : Peer) : Peer := { s with continueConnection := false, mainRoutineHasExited := true }

def handleBitfieldMessage (s : Peer) (payload : Bytes) : Peer :=
  let peerBitfield := getPeerBitfield payload s.numPieces
  if peerBitfield.all (· == 0) then s.finish
  else { s with pieceManager := s.pieceManager.updatePieceFrequencies peerBitfield s.peerNumId }

/-- the request a block answers -/
def answers (block : Block) (request : BlockRequest) : Bool :=
  request.pieceIndex == block.pieceIndex && request.blockOffset == block.blockOffset

section Sha1

variable (sha1 : Bytes → Bytes)

def handlePieceMessage (s : Peer) (payload : Bytes) : Peer :=
  match pieceBlock payload with
  | none => s
  | some block =>
    match s.pieceManager.addBlock sha1 s.peerNumId block with
    | .error _ => s.finish
    | .ok pieceManager =>
      { s with
        pieceManager := pieceManager
        numInFlight := s.numInFlight - 1
        wrapped := s.wrapped || s.numInFlight == 0
        answered := if s.outstanding.any (answers block) then s.answered + 1 else s.answered
        outstanding := s.outstanding.eraseP (answers block) }

def handleMessage (s : Peer) (type : UInt8) (payload : Bytes) : Peer :=
  match messageType type with
  | .choke => { s with isChoked := true }
  | .unchoke => { s with isChoked := false }
  | .bitfield => s.handleBitfieldMessage payload
  | .piece => s.handlePieceMessage sha1 payload
  | _ => s

/-! ## Runs -/

inductive Op where
  /-- the send coroutine continues -/
  | resume (writeOk : Bool) (order : List ℕ)
  /-- the receive loop has read a message -/
  | handle (type : UInt8) (payload : Bytes)
  /-- another peer, or the peer manager, uses the piece manager -/
  | other (o : PieceManager.Op)
  | timeout
  /-- the receive loop tests `continue_connection_` -/
  | receiveLoop
deriving DecidableEq, Repr

def step (s : Peer) : Op → Peer
  | .resume writeOk order => s.resume writeOk order
  | .handle type payload => if s.mainRoutineHasExited then s else s.handleMessage sha1 type payload
  | .other o =>
    match s.pieceManager.step sha1 o with
    | .error _ => s
    | .ok pieceManager => { s with pieceManager := pieceManager }
  | .timeout => { s with continueConnection := false }
  | .receiveLoop => if s.continueConnection then s else s.finish

def run (s : Peer) (ops : List Op) : Peer := ops.foldl (step sha1) s

/-! ## What only the send coroutine does -/

/-- the send coroutine stays where it is, evaluates nothing and starts no request -/
structure Frame (s t : Peer) : Prop where
  send : t.send = s.send
  evaluations : t.evaluations = s.evaluations
  outstanding : t.outstanding.length ≤ s.outstanding.length

theorem Frame.refl (s : Peer) : Frame s s := ⟨rfl, rfl, le_rfl⟩

theorem finish_frame (s : Peer) : Frame s s.finish := ⟨rfl, rfl, le_rfl⟩

theorem handleMessage_frame (s : Peer) (type : UInt8) (payload : Bytes) :
    Frame s (s.handleMessage sha1 type payload) := by
  unfold handleMessage
  cases messageType type with
  | choke | unchoke => exact ⟨rfl, rfl, le_rfl⟩
  | bitfield =>
    simp only [handleBitfieldMessage]
    split_ifs
    · exact finish_frame s
    · exact ⟨rfl, rfl, le_rfl⟩
  | piece =>
    simp only [handlePieceMessage]
    split
    · exact .refl s
    · split
      · exact finish_frame s
      · exact ⟨rfl, rfl, List.length_eraseP_le⟩
  | _ => exact .refl s

theorem step_frame (s : Peer) {o : Op} (ho : ∀ writeOk order, o ≠ .resume writeOk order) : Frame s (s.step sha1 o) := by
  cases o with
  | resume writeOk order => exact absurd rfl (ho writeOk order)
  | handle type payload =>
    simp only [step]
    split_ifs
    · exact .refl s
    · exact handleMessage_frame sha1 s type payload
  | other o =>
    simp only [step]
    split
    · exact .refl s
    · exact ⟨rfl, rfl, le_rfl⟩
  | timeout => exact ⟨rfl, rfl, le_rfl⟩
  | receiveLoop =>
    simp only [step]
    split_ifs
    · exact .refl s
    · exact finish_frame s

end Sha1

end Peer

end SimpleTorrent
